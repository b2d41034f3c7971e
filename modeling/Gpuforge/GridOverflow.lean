import Gpuforge.TilePlanner

/-!
# The grid of a large product

Dimensions have 64 bits, the grid is computed in `int`: the dimension is narrowed, the tile
added, one subtracted, and the sum divided.  While the dimension and the tile add up to
less than `2^31` nothing is lost.  From there on the sum loses a multiple of `2^32`, and the
quotient with it at least one tile, so the plan covers too little of the product
(`tiled_grid_exact_iff`, `tiled_grid_empty`).
-/

namespace Gpuforge.Compiler

variable {M N K : Int} {type type' : ScalarType} {layout layout' : Layout} {schedule : Schedule}

/-- The dimensions of a product are `int64` values and the blocks are below `2^15`. -/
structure ProductBounds (M N K : Int) (schedule : Schedule) : Prop where
  m : 0 ≤ M ∧ M < 2 ^ 63
  n : 0 ≤ N ∧ N < 2 ^ 63
  k : 0 ≤ K ∧ K < 2 ^ 63
  blockM : 1 ≤ schedule.blockM ∧ schedule.blockM < 2 ^ 15
  blockN : 1 ≤ schedule.blockN ∧ schedule.blockN < 2 ^ 15
  blockK : 1 ≤ schedule.blockK ∧ schedule.blockK < 2 ^ 15

/-- The grid of a plan counts the tiles that cover the product. -/
def GridCovers (M N : Int) (p : TilePlan) : Prop :=
  p.gridM = ⌈(M : ℚ) / p.tileM⌉ ∧ p.gridN = ⌈(N : ℚ) / p.tileN⌉

/-- The narrowing and the two `int` operations in front of the division keep their values. -/
def DividendExact (dim tile : Int) : Prop :=
  wrapInt dim = dim ∧ wrapInt (wrapInt dim + tile) = dim + tile ∧
    wrapInt (wrapInt (wrapInt dim + tile) - 1) = dim + tile - 1

/-- An `int` expression has its value only if that fits. -/
theorem lt_of_wrapInt_eq {i : Int} (h : wrapInt i = i) : i < 2 ^ 31 := by
  rw [← h, wrapInt]
  have hlt := Int.bmod_lt (x := i) (m := 2 ^ 32) (by decide)
  omega

/-- A value from `2^31` on loses at least `2^32`. -/
theorem wrapInt_le_of_ge {i : Int} (h : 2 ^ 31 ≤ i) : wrapInt i ≤ i - 2 ^ 32 := by
  have hlt : wrapInt i < 2 ^ 31 := by
    have hbmod := Int.bmod_lt (x := i) (m := 2 ^ 32) (by decide)
    rw [wrapInt]
    omega
  obtain ⟨c, hc⟩ := Int.dvd_self_sub_bmod (x := i) (m := 2 ^ 32)
  have hlost : i - wrapInt i = (2 ^ 32 : Nat) * c := hc
  omega

/-- All operations on the dividend are exact while the sum with the tile fits. -/
theorem dividendExact_iff {dim tile : Int} (hdim : 0 ≤ dim) (htile : 1 ≤ tile) :
    DividendExact dim tile ↔ dim + tile < 2 ^ 31 := by
  constructor
  · intro hexact
    obtain ⟨hnarrow, hsum, _⟩ := hexact
    rw [hnarrow] at hsum
    exact lt_of_wrapInt_eq hsum
  · intro hfits
    have hnarrow := wrapInt_of_lt (i := dim) (by omega) (by omega)
    have hsum := wrapInt_of_lt (i := dim + tile) (by omega) (by omega)
    refine ⟨hnarrow, ?_, ?_⟩
    · rw [hnarrow, hsum]
    · rw [hnarrow, hsum, wrapInt_of_lt (by omega) (by omega)]

/-- A dividend that does not fit gives fewer tiles. -/
theorem tdiv_wrapInt_lt {dividend tile : Int} (hlarge : 2 ^ 31 ≤ dividend) (htile : 1 ≤ tile)
    (htile' : tile < 2 ^ 15) : (wrapInt dividend).tdiv tile < dividend / tile := by
  have hshort := wrapInt_le_of_ge hlarge
  by_cases hsign : 0 ≤ wrapInt dividend
  · calc (wrapInt dividend).tdiv tile
        = wrapInt dividend / tile := Int.tdiv_eq_ediv_of_nonneg hsign
      _ ≤ (dividend - 1 * tile) / tile := Int.ediv_le_ediv (by omega) (by omega)
      _ = dividend / tile - 1 := Int.sub_mul_ediv_right dividend 1 (by omega)
      _ < dividend / tile := by omega
  · have hquotient : 1 ≤ dividend / tile := Int.le_ediv_of_mul_le (by omega) (by omega)
    have hnonneg : 0 ≤ (-wrapInt dividend).tdiv tile := Int.tdiv_nonneg (by omega) (by omega)
    rw [Int.neg_tdiv] at hnonneg
    omega

/-- **When the quotient is right.**  The quotient is the number of tiles if and only if the
dividend fits. -/
theorem tdiv_wrapInt_iff {dim tile : Int} (hdim : 0 ≤ dim) (htile : 1 ≤ tile)
    (htile' : tile < 2 ^ 15) :
    (wrapInt (dim + tile - 1)).tdiv tile = ⌈(dim : ℚ) / tile⌉ ↔ dim + tile ≤ 2 ^ 31 := by
  rw [ceil_div htile]
  constructor
  · intro hgrid
    by_contra hlarge
    have hfewer : (wrapInt (dim + tile - 1)).tdiv tile < (dim + tile - 1) / tile :=
      tdiv_wrapInt_lt (by omega) htile htile'
    exact absurd hgrid (Int.ne_of_lt hfewer)
  · intro hfits
    rw [wrapInt_of_lt (by omega) (by omega), Int.tdiv_eq_ediv_of_nonneg (by omega)]

/-- The grid and the tiles of a plan, for dimensions of any size. -/
theorem plan_grid (h : ProductBounds M N K schedule) :
    ∃ p, plan ⟨[M, K], type, layout⟩ ⟨[K, N], type', layout'⟩ schedule = some p ∧
      p.gridM = (wrapInt (M + schedule.blockM - 1)).tdiv schedule.blockM ∧
      p.gridN = (wrapInt (N + schedule.blockN - 1)).tdiv schedule.blockN ∧
      if WmmaPath M N K type schedule then p.kind = .wmmaTensorCore
      else p.kind = .cudaTiled ∧ p.tileM = schedule.blockM ∧ p.tileN = schedule.blockN := by
  have hpadded := anyRagged_eq
    [(M, schedule.blockM), (N, schedule.blockN), (K, schedule.blockK)]
    (by simpa using ⟨h.blockM.1, h.blockN.1, h.blockK.1⟩)
  simp only [plan, matrixShape, List.length_cons, List.length_nil, List.getD_cons_zero,
    List.getD_cons_succ, gridSize_wrapped h.blockM.1, gridSize_wrapped h.blockN.1, hpadded,
    wmmaPath_iff, Option.bind_eq_bind, Option.bind_some]
  rw [if_neg (by decide), if_neg (by simp)]
  by_cases hpath : WmmaPath M N K type schedule
  · rw [if_pos hpath]
    exact ⟨_, rfl, rfl, rfl, by rw [if_pos hpath]⟩
  · rw [if_neg hpath]
    refine ⟨_, rfl, rfl, rfl, ?_⟩
    rw [if_neg hpath]
    exact ⟨rfl, rfl, rfl⟩

/-- The grid of a plan off the tensor core path covers the product while both dividends
fit. -/
theorem gridCovers_iff (h : ProductBounds M N K schedule) {p : TilePlan}
    (hgridM : p.gridM = (wrapInt (M + schedule.blockM - 1)).tdiv schedule.blockM)
    (hgridN : p.gridN = (wrapInt (N + schedule.blockN - 1)).tdiv schedule.blockN)
    (htileM : p.tileM = schedule.blockM) (htileN : p.tileN = schedule.blockN) :
    GridCovers M N p ↔ M + schedule.blockM ≤ 2 ^ 31 ∧ N + schedule.blockN ≤ 2 ^ 31 := by
  rw [GridCovers, hgridM, hgridN, htileM, htileN,
    tdiv_wrapInt_iff h.m.1 h.blockM.1 h.blockM.2, tdiv_wrapInt_iff h.n.1 h.blockN.1 h.blockN.2]

/-- **When planning survives large dimensions.**  A plan for tiled kernels has the grid of
its tiles, and every narrowing and addition on the way keeps its value, if and only if both
dimensions and their blocks add up to less than `2^31`.  The grid alone is right for sums up
to `2^31`, where the overflow of the addition is undone by the subtraction, and for no
others. -/
theorem tiled_grid_exact_iff (h : ProductBounds M N K schedule) :
    ∃ p, plan ⟨[M, K], type, layout⟩ ⟨[K, N], type', layout'⟩ schedule = some p ∧
      ((p.kind = .cudaTiled → GridCovers M N p ∧ DividendExact M schedule.blockM ∧
          DividendExact N schedule.blockN) ↔
        (WmmaPath M N K type schedule ∨
          (M + schedule.blockM < 2 ^ 31 ∧ N + schedule.blockN < 2 ^ 31))) ∧
      ((p.kind = .cudaTiled → GridCovers M N p) ↔
        (WmmaPath M N K type schedule ∨
          (M + schedule.blockM ≤ 2 ^ 31 ∧ N + schedule.blockN ≤ 2 ^ 31))) := by
  obtain ⟨p, hp, hgridM, hgridN, hkind⟩ := @plan_grid M N K type type' layout layout' schedule h
  refine ⟨p, hp, ?_⟩
  by_cases hpath : WmmaPath M N K type schedule
  · rw [if_pos hpath] at hkind
    simp [hkind, hpath]
  · rw [if_neg hpath] at hkind
    obtain ⟨hkind, htileM, htileN⟩ := hkind
    have hcovers := gridCovers_iff h hgridM hgridN htileM htileN
    have hexactM := dividendExact_iff h.m.1 h.blockM.1
    have hexactN := dividendExact_iff h.n.1 h.blockN.1
    simp only [hkind, hpath, false_or, forall_true_left, hcovers, hexactM, hexactN, and_true]
    omega

/-- A large product whose grid is right. -/
theorem tiled_grid_exact_iff_example :
    ∃ p, plan ⟨[2 ^ 30, 64], .f32, .rowMajor⟩ ⟨[64, 64], .f32, .rowMajor⟩ {} = some p ∧
      (p.kind = .cudaTiled → GridCovers (2 ^ 30) 64 p ∧ DividendExact (2 ^ 30) 128 ∧
        DividendExact 64 128) := by
  have h : ProductBounds (2 ^ 30) 64 64 {} := ⟨by decide, by decide, by decide, by decide,
    by decide, by decide⟩
  obtain ⟨p, hp, hexact, _⟩ :=
    @tiled_grid_exact_iff (2 ^ 30) 64 64 .f32 .f32 .rowMajor .rowMajor {} h
  exact ⟨p, hp, hexact.mpr (Or.inr (by decide))⟩

/-- **A grid without tiles.**  For a product of `2^32` rows the plan for tiled kernels has
a grid of zero rows of tiles; there are `2^25` to cover. -/
theorem tiled_grid_empty : ProductBounds (2 ^ 32) 64 64 {} ∧
    ∃ p, plan ⟨[2 ^ 32, 64], .f32, .rowMajor⟩ ⟨[64, 64], .f32, .rowMajor⟩ {} = some p ∧
      p.kind = .cudaTiled ∧ p.tileM = 128 ∧ p.gridM = 0 ∧
        ⌈((2 ^ 32 : Int) : ℚ) / (128 : Int)⌉ = 2 ^ 25 ∧ ¬ GridCovers (2 ^ 32) 64 p := by
  have hceil : ⌈((2 ^ 32 : Int) : ℚ) / (128 : Int)⌉ = 2 ^ 25 := by
    rw [ceil_div_eq_iff (by decide)]
    decide
  refine ⟨⟨by decide, by decide, by decide, by decide, by decide, by decide⟩,
    _, rfl, rfl, rfl, by decide, hceil, ?_⟩
  intro hcovers
  have hgrid := hcovers.1.trans hceil
  revert hgrid
  decide

end Gpuforge.Compiler

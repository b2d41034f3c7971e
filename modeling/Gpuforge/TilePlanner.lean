import Mathlib.Data.Rat.Floor
import Gpuforge.CompilePipeline

/-!
# The tile planner (`planner.cpp`)

`plan` lays a matrix product out in tiles: the tile sizes come from the schedule,
the grid, the padding flag and the shared memory from them and the shapes.  At the
end it picks the kernel.  Tensor cores need tiles of 16, and that branch sets the
three tile sizes after everything else was computed from the old ones
(`plan_consistent_iff`, `wmma_plan_inconsistent`).
-/

namespace Gpuforge.Compiler

inductive KernelKind where
  | cudaTiled
  | wmmaTensorCore
  | fallback
  deriving DecidableEq, Repr

structure TilePlan where
  kind : KernelKind := .fallback
  tileM : Int := 16
  tileN : Int := 16
  tileK : Int := 16
  gridM : Int := 0
  gridN : Int := 0
  sharedBytes : Nat := 0
  padded : Bool := false
  reason : String := ""
  deriving DecidableEq, Repr

def matrixShape (shape : Shape) : Bool := shape.dims.length = 2

def aligned (shape : Shape) (tile : Int) : Bool :=
  matrixShape shape && (shape.dims.getD 0 0).tmod tile = 0 && (shape.dims.getD 1 0).tmod tile = 0

/-- A division is defined unless the divisor is 0 or the quotient is one above the
largest value of the type. -/
def Divisible (lowest a b : Int) : Prop := b ≠ 0 ∧ ¬ (a = lowest ∧ b = -1)

instance (lowest a b : Int) : Decidable (Divisible lowest a b) :=
  inferInstanceAs (Decidable (_ ∧ _))

/-- `(static_cast<int>(dim) + tile - 1) / tile`; `none` is undefined. -/
def gridSize (dim tile : Int) : Option Int :=
  let last := wrapInt (wrapInt (wrapInt dim + tile) - 1)
  if Divisible (-2 ^ 31) last tile then some (last.tdiv tile) else none

/-- The chain `dim % tile != 0 || ...`, which stops at the first remainder. -/
def anyRagged : List (Int × Int) → Option Bool
  | [] => some false
  | (dim, tile) :: rest =>
      if Divisible (-2 ^ 63) dim tile then
        if dim.tmod tile ≠ 0 then some true else anyRagged rest
      else none

/-- The `element_bytes` of the planner. -/
def elementBytes (type : ScalarType) : Nat := if type = .f32 then 4 else 2

/-- `TilePlanner::plan`; `none` is an undefined division. -/
def plan (lhs rhs : Shape) (schedule : Schedule) : Option TilePlan :=
  let plan : TilePlan :=
    { tileM := schedule.blockM, tileN := schedule.blockN, tileK := schedule.blockK }
  if matrixShape lhs = false ∨ matrixShape rhs = false then
    some { plan with reason := "matmul requires rank-2 tensors" }
  else if lhs.dims.getD 1 0 ≠ rhs.dims.getD 0 0 then
    some { plan with reason := "matmul inner dimensions mismatch" }
  else do
    let gridM ← gridSize (lhs.dims.getD 0 0) plan.tileM
    let gridN ← gridSize (rhs.dims.getD 1 0) plan.tileN
    let padded ← anyRagged [(lhs.dims.getD 0 0, plan.tileM), (rhs.dims.getD 1 0, plan.tileN),
      (lhs.dims.getD 1 0, plan.tileK)]
    let sharedBytes :=
      mulSize (mulSize (castSize plan.tileK) (castSize (wrapInt (plan.tileM + plan.tileN))))
        (elementBytes lhs.type)
    let plan : TilePlan :=
      { plan with gridM := gridM, gridN := gridN, padded := padded, sharedBytes := sharedBytes }
    let wmmaShape := aligned lhs 16 && aligned rhs 16 && (lhs.dims.getD 1 0).tmod 16 = 0
    if schedule.tensorCore = true ∧ lhs.type ≠ .f32 ∧ wmmaShape = true then
      some { plan with
        kind := .wmmaTensorCore
        tileM := 16
        tileN := 16
        tileK := 16
        reason := "aligned WMMA Tensor Core path" }
    else
      some { plan with
        kind := .cudaTiled
        reason :=
          if plan.padded then "boundary guarded tiled path" else "shared-memory tiled path" }

/-! ## Consistent plans -/

/-- The bytes of one element. -/
def ScalarType.bytes : ScalarType → Nat
  | .f32 => 4
  | .f16 => 2
  | .bf16 => 2
  | .i8 => 1

/-- **A consistent plan.**  Grid, padding and shared memory of a plan for an
`M x K` by `K x N` product are those of its own tiles, for elements of a size. -/
structure SelfConsistent (M N K : Int) (bytes : Nat) (p : TilePlan) : Prop where
  gridM : p.gridM = ⌈(M : ℚ) / p.tileM⌉
  gridN : p.gridN = ⌈(N : ℚ) / p.tileN⌉
  padded : p.padded = true ↔ ¬ p.tileM ∣ M ∨ ¬ p.tileN ∣ N ∨ ¬ p.tileK ∣ K
  sharedBytes : (p.sharedBytes : Int) = p.tileK * (p.tileM + p.tileN) * bytes

/-- The conditions of the tensor core path. -/
def WmmaPath (M N K : Int) (type : ScalarType) (schedule : Schedule) : Prop :=
  schedule.tensorCore = true ∧ type ≠ .f32 ∧ 16 ∣ M ∧ 16 ∣ N ∧ 16 ∣ K

instance (M N K : Int) (type : ScalarType) (schedule : Schedule) :
    Decidable (WmmaPath M N K type schedule) :=
  inferInstanceAs (Decidable (_ ∧ _))

/-- The plan with the tiles of the schedule. -/
def scheduledPlan (M N K : Int) (type : ScalarType) (schedule : Schedule) : TilePlan :=
  { tileM := schedule.blockM
    tileN := schedule.blockN
    tileK := schedule.blockK
    gridM := ⌈(M : ℚ) / schedule.blockM⌉
    gridN := ⌈(N : ℚ) / schedule.blockN⌉
    padded := ¬ schedule.blockM ∣ M ∨ ¬ schedule.blockN ∣ N ∨ ¬ schedule.blockK ∣ K
    sharedBytes :=
      (schedule.blockK * (schedule.blockM + schedule.blockN)).toNat * elementBytes type }

/-- The number of tiles that cover a dimension. -/
theorem ceil_div_eq_iff {dim tile g : Int} (htile : 0 < tile) :
    ⌈(dim : ℚ) / tile⌉ = g ↔ (g - 1) * tile < dim ∧ dim ≤ g * tile := by
  have hpos : (0 : ℚ) < tile := by exact_mod_cast htile
  rw [Int.ceil_eq_iff, lt_div_iff₀ hpos, div_le_iff₀ hpos]
  norm_cast

/-- The number of tiles as the rounded up quotient. -/
theorem ceil_div {dim tile : Int} (htile : 0 < tile) :
    ⌈(dim : ℚ) / tile⌉ = (dim + tile - 1) / tile := by
  rw [ceil_div_eq_iff htile]
  have hdiv := Int.mul_ediv_add_emod (dim + tile - 1) tile
  have hnonneg := Int.emod_nonneg (dim + tile - 1) (Int.ne_of_gt htile)
  have hlt := Int.emod_lt_of_pos (dim + tile - 1) htile
  rw [Int.sub_mul, Int.mul_comm _ tile]
  omega

/-- The narrowing and the two `int` operations wrap once. -/
theorem wrapInt_last (dim tile : Int) :
    wrapInt (wrapInt (wrapInt dim + tile) - 1) = wrapInt (dim + tile - 1) := by
  simp [wrapInt]

/-- The grid of a dimension, with what its `int` operations make of the dividend. -/
theorem gridSize_wrapped {dim tile : Int} (htile : 1 ≤ tile) :
    gridSize dim tile = some ((wrapInt (dim + tile - 1)).tdiv tile) := by
  unfold gridSize
  rw [wrapInt_last, if_pos ⟨by omega, by omega⟩]

/-- The grid of a dimension is its number of tiles. -/
theorem gridSize_eq {dim tile : Int} (hdim : 0 ≤ dim) (hdim' : dim < 2 ^ 30) (htile : 1 ≤ tile)
    (htile' : tile < 2 ^ 15) : gridSize dim tile = some ⌈(dim : ℚ) / tile⌉ := by
  rw [gridSize_wrapped htile, wrapInt_of_lt (by omega) (by omega),
    Int.tdiv_eq_ediv_of_nonneg (by omega), ceil_div (by omega)]

/-- The chain of remainders tells whether some tile does not divide. -/
theorem anyRagged_eq : ∀ pairs : List (Int × Int), (∀ pair ∈ pairs, 1 ≤ pair.2) →
    anyRagged pairs = some (decide (∃ pair ∈ pairs, ¬ pair.2 ∣ pair.1)) := by
  intro pairs
  induction pairs with
  | nil =>
      intro _
      simp [anyRagged]
  | cons pair rest ih =>
      intro hpos
      have htile := hpos pair (List.mem_cons_self ..)
      rw [anyRagged, if_pos ⟨by omega, by omega⟩]
      split
      · next hragged =>
          rw [ne_eq, ← Int.dvd_iff_tmod_eq_zero] at hragged
          simp [hragged]
      · next hdvd =>
          rw [not_not, ← Int.dvd_iff_tmod_eq_zero] at hdvd
          rw [ih fun other hother => hpos other (List.mem_cons_of_mem _ hother)]
          simp [hdvd]

/-- Alignment of a matrix. -/
theorem aligned_eq (rows columns tile : Int) (type : ScalarType) (layout : Layout) :
    aligned ⟨[rows, columns], type, layout⟩ tile = true ↔ tile ∣ rows ∧ tile ∣ columns := by
  simp [aligned, matrixShape, Int.dvd_iff_tmod_eq_zero]

variable {M N K : Int} {type type' : ScalarType} {layout layout' : Layout} {schedule : Schedule}

/-- The domain of the planner: dimensions below `2^30` and blocks below `2^15`. -/
structure PlanBounds (M N K : Int) (schedule : Schedule) : Prop where
  m : 1 ≤ M ∧ M < 2 ^ 30
  n : 1 ≤ N ∧ N < 2 ^ 30
  k : 1 ≤ K ∧ K < 2 ^ 30
  blockM : 1 ≤ schedule.blockM ∧ schedule.blockM < 2 ^ 15
  blockN : 1 ≤ schedule.blockN ∧ schedule.blockN < 2 ^ 15
  blockK : 1 ≤ schedule.blockK ∧ schedule.blockK < 2 ^ 15

/-- The shared memory of a schedule fits. -/
theorem sharedBytes_eq (h : PlanBounds M N K schedule) (type : ScalarType) :
    mulSize (mulSize (castSize schedule.blockK)
      (castSize (wrapInt (schedule.blockM + schedule.blockN)))) (elementBytes type) =
        (schedule.blockK * (schedule.blockM + schedule.blockN)).toNat * elementBytes type := by
  obtain ⟨k, hk⟩ := Int.eq_ofNat_of_zero_le (show 0 ≤ schedule.blockK by have := h.blockK; omega)
  obtain ⟨s, hs⟩ := Int.eq_ofNat_of_zero_le
    (show 0 ≤ schedule.blockM + schedule.blockN by have := h.blockM; have := h.blockN; omega)
  have hkbound : k < 2 ^ 15 := by have := h.blockK; omega
  have hsbound : s < 2 ^ 16 := by have := h.blockM; have := h.blockN; omega
  have hprod : k * s ≤ 2 ^ 15 * 2 ^ 16 :=
    Nat.mul_le_mul (by omega) (by omega)
  have hbytes : k * s * elementBytes type ≤ 2 ^ 15 * 2 ^ 16 * 4 :=
    Nat.mul_le_mul hprod (by unfold elementBytes; split <;> omega)
  rw [hk, hs, wrapInt_of_lt (by omega) (by omega), castSize_natCast (by omega),
    castSize_natCast (by omega), mulSize_of_lt (a := k) (by omega), mulSize_of_lt (by omega),
    ← Int.natCast_mul, Int.toNat_natCast]

/-- The test for the tensor core path. -/
theorem wmmaPath_iff : (schedule.tensorCore = true ∧ type ≠ .f32 ∧
    (aligned ⟨[M, K], type, layout⟩ 16 && aligned ⟨[K, N], type', layout'⟩ 16 &&
      decide (K.tmod 16 = 0)) = true) ↔ WmmaPath M N K type schedule := by
  simp only [WmmaPath, Bool.and_eq_true, aligned_eq, decide_eq_true_eq,
    ← Int.dvd_iff_tmod_eq_zero]
  grind

/-- **The plan of a product.**  It is the plan with the tiles of the schedule, up to
the tiles of the tensor core path. -/
theorem plan_eq (h : PlanBounds M N K schedule) :
    plan ⟨[M, K], type, layout⟩ ⟨[K, N], type', layout'⟩ schedule =
      some (if WmmaPath M N K type schedule then
        { scheduledPlan M N K type schedule with
          kind := .wmmaTensorCore
          tileM := 16
          tileN := 16
          tileK := 16
          reason := "aligned WMMA Tensor Core path" }
      else
        { scheduledPlan M N K type schedule with
          kind := .cudaTiled
          reason := if (scheduledPlan M N K type schedule).padded then
            "boundary guarded tiled path" else "shared-memory tiled path" }) := by
  have hgridM := gridSize_eq (Int.le_trans (by omega) h.m.1) h.m.2 h.blockM.1 h.blockM.2
  have hgridN := gridSize_eq (Int.le_trans (by omega) h.n.1) h.n.2 h.blockN.1 h.blockN.2
  have hpadded : anyRagged [(M, schedule.blockM), (N, schedule.blockN), (K, schedule.blockK)] =
      some (scheduledPlan M N K type schedule).padded := by
    rw [anyRagged_eq _ (by simpa using ⟨h.blockM.1, h.blockN.1, h.blockK.1⟩)]
    simp [scheduledPlan]
  simp only [plan, matrixShape, List.length_cons, List.length_nil, List.getD_cons_zero,
    List.getD_cons_succ, hgridM, hgridN, hpadded, sharedBytes_eq h type, wmmaPath_iff,
    Option.bind_eq_bind, Option.bind_some]
  rw [if_neg (by decide), if_neg (by simp)]
  by_cases hwmmaPath : WmmaPath M N K type schedule
  · rw [if_pos hwmmaPath, if_pos hwmmaPath]
    rfl
  · rw [if_neg hwmmaPath, if_neg hwmmaPath]
    rfl

/-- A tiling by the schedule is consistent, for the sizes that the planner knows. -/
theorem scheduledPlan_consistent (h : PlanBounds M N K schedule) (kind : KernelKind)
    (reason : String) {bytes : Nat} :
    SelfConsistent M N K bytes
      { scheduledPlan M N K type schedule with kind := kind, reason := reason } ↔
        elementBytes type = bytes := by
  have hprod : 0 < schedule.blockK * (schedule.blockM + schedule.blockN) :=
    Int.mul_pos h.blockK.1 (Int.add_pos h.blockM.1 h.blockN.1)
  constructor
  · intro hconsistent
    have hshared := hconsistent.sharedBytes
    simp only [scheduledPlan, Int.natCast_mul,
      Int.toNat_of_nonneg (Int.le_of_lt hprod)] at hshared
    exact Int.ofNat.inj (Int.eq_of_mul_eq_mul_left (Int.ne_of_gt hprod) hshared)
  · intro hbytes
    exact
      { gridM := rfl
        gridN := rfl
        padded := decide_eq_true_iff
        sharedBytes := by
          rw [← hbytes]
          simp only [scheduledPlan, Int.natCast_mul, Int.toNat_of_nonneg (Int.le_of_lt hprod)] }

/-- A tile that divides a multiple of 16 into as many tiles as 16 does is 16. -/
theorem tile_eq_of_grid {dim tile : Int} (hdim : 1 ≤ dim) (htile : 1 ≤ tile) (hsixteen : 16 ∣ dim)
    (hdvd : tile ∣ dim) (hgrid : ⌈(dim : ℚ) / tile⌉ = ⌈(dim : ℚ) / (16 : Int)⌉) : tile = 16 := by
  obtain ⟨c, rfl⟩ := hdvd
  obtain ⟨d, hd⟩ := hsixteen
  have hc : ⌈((tile * c : Int) : ℚ) / tile⌉ = c := by
    rw [ceil_div_eq_iff (by omega), Int.mul_comm tile c, Int.sub_mul]
    omega
  have hd' : ⌈((tile * c : Int) : ℚ) / (16 : Int)⌉ = d := by
    rw [ceil_div_eq_iff (by omega), hd]
    omega
  have hcd : c = d := by rw [← hc, hgrid, hd']
  subst hcd
  refine Int.eq_of_mul_eq_mul_right ?_ hd
  intro hzero
  rw [hzero, Int.mul_zero] at hdim
  omega

/-- The plan of the tensor core path is consistent if the schedule has its tiles. -/
theorem wmmaPlan_consistent (h : PlanBounds M N K schedule)
    (hpath : WmmaPath M N K type schedule) (reason : String) {bytes : Nat} :
    SelfConsistent M N K bytes
      { scheduledPlan M N K type schedule with
        kind := .wmmaTensorCore, tileM := 16, tileN := 16, tileK := 16, reason := reason } ↔
      schedule.blockM = 16 ∧ schedule.blockN = 16 ∧ schedule.blockK ∣ K ∧
        schedule.blockK * elementBytes type = 16 * bytes := by
  obtain ⟨_, _, hM, hN, hK⟩ := hpath
  have hprod : 0 < schedule.blockK * (schedule.blockM + schedule.blockN) :=
    Int.mul_pos h.blockK.1 (Int.add_pos h.blockM.1 h.blockN.1)
  constructor
  · intro hconsistent
    have hnot : ¬ (scheduledPlan M N K type schedule).padded = true := by
      intro hpadded
      rcases hconsistent.padded.mp hpadded with hragged | hragged | hragged
      · exact hragged hM
      · exact hragged hN
      · exact hragged hK
    simp only [scheduledPlan, decide_eq_true_eq, not_or, not_not] at hnot
    obtain ⟨hblockM, hblockN, hblockK⟩ := hnot
    have hm := tile_eq_of_grid h.m.1 h.blockM.1 hM hblockM hconsistent.gridM
    have hn := tile_eq_of_grid h.n.1 h.blockN.1 hN hblockN hconsistent.gridN
    refine ⟨hm, hn, hblockK, ?_⟩
    have hshared := hconsistent.sharedBytes
    simp only [scheduledPlan, Int.natCast_mul, hm, hn] at hshared
    grind
  · intro htiles
    obtain ⟨hm, hn, hblockK, hbytes⟩ := htiles
    refine ⟨?_, ?_, ?_, ?_⟩
    · simp only [scheduledPlan, hm]
    · simp only [scheduledPlan, hn]
    · simp [scheduledPlan, hm, hn, hM, hN, hK, hblockK]
    · simp only [scheduledPlan, Int.natCast_mul, hm, hn]
      grind

/-- **When a plan is consistent.**  Off the tensor core path a plan is consistent
except for `I8`, whose elements the planner takes to have 2 bytes; on that path only if
the schedule has the tiles that the path sets, for `I8` with half the depth.  Measured
by the planner's own element sizes only the tensor core path is at fault. -/
theorem plan_consistent_iff (h : PlanBounds M N K schedule) :
    ∃ p, plan ⟨[M, K], type, layout⟩ ⟨[K, N], type', layout'⟩ schedule = some p ∧
      (SelfConsistent M N K type.bytes p ↔
        if WmmaPath M N K type schedule then
          schedule.blockM = 16 ∧ schedule.blockN = 16 ∧
            schedule.blockK = if type = .i8 then 8 else 16
        else type ≠ .i8) ∧
      (SelfConsistent M N K (elementBytes type) p ↔
        (WmmaPath M N K type schedule →
          schedule.blockM = 16 ∧ schedule.blockN = 16 ∧ schedule.blockK = 16)) := by
  refine ⟨_, plan_eq h, ?_⟩
  by_cases hpath : WmmaPath M N K type schedule
  · rw [if_pos hpath, if_pos hpath]
    obtain ⟨_, htype, _, _, hK⟩ := id hpath
    have hK8 : 8 ∣ K := Int.dvd_trans (by decide) hK
    refine ⟨(wmmaPlan_consistent h hpath _).trans ?_, (wmmaPlan_consistent h hpath _).trans ?_⟩
    · cases type <;> simp only [ScalarType.bytes, elementBytes] <;> grind
    · cases type <;> simp only [elementBytes] <;> grind
  · rw [if_neg hpath, if_neg hpath]
    refine ⟨(scheduledPlan_consistent h _ _).trans ?_, (scheduledPlan_consistent h _ _).trans ?_⟩
    · cases type <;> simp [ScalarType.bytes, elementBytes]
    · simp [hpath]

/-- A ragged product of halves. -/
theorem plan_consistent_iff_example :
    ∃ p, plan ⟨[127, 63], .f16, .rowMajor⟩ ⟨[63, 129], .f16, .rowMajor⟩ {} = some p ∧
      SelfConsistent 127 129 63 ScalarType.f16.bytes p := by
  have h : PlanBounds 127 129 63 {} := ⟨by decide, by decide, by decide, by decide, by decide,
    by decide⟩
  obtain ⟨p, hp, hconsistent, _⟩ :=
    @plan_consistent_iff 127 129 63 .f16 .f16 .rowMajor .rowMajor {} h
  rw [if_neg (by decide)] at hconsistent
  exact ⟨p, hp, hconsistent.mpr (by decide)⟩

/-- **A tensor core plan that covers too little.**  For 128 x 64 by 64 x 128 halves and
the default schedule the plan has tiles of 16, and the grid of tiles of 128. -/
theorem wmma_plan_inconsistent :
    ∃ p, plan ⟨[128, 64], .f16, .rowMajor⟩ ⟨[64, 128], .f16, .rowMajor⟩ {} = some p ∧
      p.tileM = 16 ∧ p.gridM = 1 ∧ p.sharedBytes = 16384 ∧
        ¬ SelfConsistent 128 128 64 ScalarType.f16.bytes p := by
  refine ⟨_, rfl, rfl, by decide +kernel, by decide +kernel, ?_⟩
  intro hconsistent
  have hshared := hconsistent.sharedBytes
  revert hshared
  decide +kernel

end Gpuforge.Compiler

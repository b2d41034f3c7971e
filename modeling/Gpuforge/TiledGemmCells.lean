import Mathlib.Algebra.Ring.Nat
import Gpuforge.TiledGemm

/-!
# The tiled product is the product

A thread outside of the matrices loads zeros, so a block multiplies the operands
continued by zeros (`paddedCell`).  After each turn of the loop over tiles every
accumulator of the block is the sum of its first terms (`tileTurn_accumulates`),
and the terms past the inner dimension are zeros (`dot_padded`).

The grid covers the output, and each cell has one thread in it: the one at the
quotients and remainders of its row and column by the side of a tile
(`launch_writes`).
-/

namespace Gpuforge

open ForLoop GridLaunch

/-- A size rounded up to whole tiles. -/
def padded (n : Nat) : Nat := (n + kGemmTile - 1) / kGemmTile * kGemmTile

/-- **Sizes within `int`.**  The sizes are positive, and the matrices and the
rounded sizes are below `2^31`. -/
structure GemmSizes (rows inner columns : Nat) : Prop where
  rowsPos : 1 ≤ rows
  innerPos : 1 ≤ inner
  columnsPos : 1 ≤ columns
  lhs : rows * inner < 2 ^ 31
  rhs : inner * columns < 2 ^ 31
  output : rows * columns < 2 ^ 31
  rowsPadded : padded rows < 2 ^ 31
  innerPadded : padded inner < 2 ^ 31
  columnsPadded : padded columns < 2 ^ 31

/-- A matrix continued by zeros. -/
def paddedCell {α : Type} [Zero α] (c : Nat → Nat → α) (rows columns i j : Nat) : α :=
  if i < rows ∧ j < columns then c i j else 0

/-- The row of a thread. -/
def tileRow (blockIdx threadIdx : Idx) : Nat := blockIdx.y * kGemmTile + threadIdx.y

/-- The column of a thread. -/
def tileColumn (blockIdx threadIdx : Idx) : Nat := blockIdx.x * kGemmTile + threadIdx.x

/-- A thread of the block. -/
def InTile (threadIdx : Idx) : Prop := threadIdx.x < kGemmTile ∧ threadIdx.y < kGemmTile

/-- A block of the grid over the output. -/
def InGrid (rows columns : Nat) (blockIdx : Idx) : Prop :=
  blockIdx.x < (columns + kGemmTile - 1) / kGemmTile ∧
    blockIdx.y < (rows + kGemmTile - 1) / kGemmTile

/-- **The arguments hold two matrices.** -/
structure GemmArgs.Holds {α : Type} (args : GemmArgs α) (rows inner columns : Nat)
    (a b : Nat → Nat → α) : Prop where
  lhs : DeviceCells args.lhs rows inner a
  rhs : DeviceCells args.rhs inner columns b
  outputSize : args.outputSize = rows * columns
  rows : args.rows = rows
  columns : args.columns = columns
  inner : args.inner = inner

section sizes

variable {rows inner columns : Nat} {blockIdx threadIdx : Idx}

/-- A rounded size has room for one more tile less one. -/
theorem add_lt_of_padded {n : Nat} (h : padded n < 2 ^ 31) : n + kGemmTile - 1 < 2 ^ 31 := by
  unfold padded kGemmTile at *
  omega

/-- Every size has that room. -/
theorem GemmSizes.rooms (h : GemmSizes rows inner columns) :
    rows + kGemmTile - 1 < 2 ^ 31 ∧ inner + kGemmTile - 1 < 2 ^ 31 ∧
      columns + kGemmTile - 1 < 2 ^ 31 :=
  ⟨add_lt_of_padded h.rowsPadded, add_lt_of_padded h.innerPadded,
    add_lt_of_padded h.columnsPadded⟩

/-- The row of a thread is an `int`. -/
theorem gemmRow_eq (hsizes : GemmSizes rows inner columns) (hblock : InGrid rows columns blockIdx)
    (hthread : InTile threadIdx) :
    tileRow blockIdx threadIdx < 2 ^ 31 ∧
      gemmRow blockIdx threadIdx = (tileRow blockIdx threadIdx : Nat) := by
  have hpadded := hsizes.rowsPadded
  obtain ⟨_, hblockY⟩ := hblock
  obtain ⟨_, hy⟩ := hthread
  have hlt : tileRow blockIdx threadIdx < padded rows := RowMajor.cell_lt hblockY hy
  exact ⟨by omega, castInt_of_lt (Nat.lt_trans hlt hpadded)⟩

/-- The column of a thread is an `int`. -/
theorem gemmColumn_eq (hsizes : GemmSizes rows inner columns)
    (hblock : InGrid rows columns blockIdx) (hthread : InTile threadIdx) :
    tileColumn blockIdx threadIdx < 2 ^ 31 ∧
      gemmColumn blockIdx threadIdx = (tileColumn blockIdx threadIdx : Nat) := by
  have hpadded := hsizes.columnsPadded
  obtain ⟨hblockX, _⟩ := hblock
  obtain ⟨hx, _⟩ := hthread
  have hlt : tileColumn blockIdx threadIdx < padded columns := RowMajor.cell_lt hblockX hx
  exact ⟨by omega, castInt_of_lt (Nat.lt_trans hlt hpadded)⟩

/-- A position inside a tile of the inner dimension is an `int`. -/
theorem tile_position_lt (hsizes : GemmSizes rows inner columns) {n x : Nat}
    (hn : n * kGemmTile < inner) (hx : x < kGemmTile) : n * kGemmTile + x < 2 ^ 31 := by
  have hpadded := hsizes.innerPadded
  unfold padded at hpadded
  unfold kGemmTile at *
  omega

end sizes

section kernel

variable {α : Type} [Semiring α] {args : GemmArgs α} {rows inner columns : Nat}
  {a b : Nat → Nat → α} {blockIdx threadIdx : Idx} {n : Nat}

/-- A thread loads its element of the left operand. -/
theorem lhsElement_eq (h : args.Holds rows inner columns a b)
    (hsizes : GemmSizes rows inner columns) (hblock : InGrid rows columns blockIdx)
    (hthread : InTile threadIdx) (hn : n * kGemmTile < inner) :
    lhsElement args blockIdx (n * kGemmTile) threadIdx = .ok (paddedCell a rows inner
      (tileRow blockIdx threadIdx) (n * kGemmTile + threadIdx.x)) := by
  obtain ⟨_, hrow⟩ := gemmRow_eq hsizes hblock hthread
  have hposition := tile_position_lt hsizes hn hthread.1
  have hlhs := hsizes.lhs
  simp only [lhsElement, hrow, h.rows, h.inner]
  generalize hi : tileRow blockIdx threadIdx = i
  generalize hk : n * kGemmTile + threadIdx.x = k at hposition
  by_cases hin : i < rows
  · rw [if_pos (by omega), checkedInt_natCast (n := k) (by omega) hposition, ok_bind]
    by_cases hkin : k < inner
    · have hcell := RowMajor.cell_lt hin hkin
      rw [if_pos (by omega),
        checkedInt_natCast (n := i * inner) (by push_cast; rfl) (by omega), ok_bind,
        checkedInt_natCast (n := i * inner + n * kGemmTile) (by push_cast; rfl) (by omega),
        ok_bind, checkedInt_natCast (n := i * inner + k) (by omega) (by omega), ok_bind,
        readAt_natCast (h.lhs i hin k hkin), paddedCell, if_pos ⟨hin, hkin⟩]
    · rw [if_neg (by omega), paddedCell, if_neg (by omega)]
  · rw [if_neg (by omega), paddedCell, if_neg (by omega)]

/-- A thread loads its element of the right operand. -/
theorem rhsElement_eq (h : args.Holds rows inner columns a b)
    (hsizes : GemmSizes rows inner columns) (hblock : InGrid rows columns blockIdx)
    (hthread : InTile threadIdx) (hn : n * kGemmTile < inner) :
    rhsElement args blockIdx (n * kGemmTile) threadIdx = .ok (paddedCell b inner columns
      (n * kGemmTile + threadIdx.y) (tileColumn blockIdx threadIdx)) := by
  obtain ⟨_, hcolumn⟩ := gemmColumn_eq hsizes hblock hthread
  have hposition := tile_position_lt hsizes hn hthread.2
  have hrhs := hsizes.rhs
  simp only [rhsElement, hcolumn, h.columns, h.inner]
  generalize hj : tileColumn blockIdx threadIdx = j
  generalize hk : n * kGemmTile + threadIdx.y = k at hposition
  rw [checkedInt_natCast (n := k) (by omega) hposition, ok_bind]
  by_cases hin : k < inner ∧ j < columns
  · rw [if_pos (by omega), h.rhs.cellAt hsizes.rhs rfl rfl rfl hin.1 hin.2, paddedCell,
      if_pos hin]
  · rw [if_neg (by omega), paddedCell, if_neg hin]

/-! ## One tile -/

/-- The left tile is loaded. -/
def LhsLoaded (rows inner : Nat) (a : Nat → Nat → α) (blockIdx : Idx) (n : Nat)
    (tile : Nat → Nat → α) : Prop :=
  ∀ y < kGemmTile, ∀ x < kGemmTile,
    tile y x = paddedCell a rows inner (blockIdx.y * kGemmTile + y) (n * kGemmTile + x)

/-- The right tile is loaded. -/
def RhsLoaded (inner columns : Nat) (b : Nat → Nat → α) (blockIdx : Idx) (n : Nat)
    (tile : Nat → Nat → α) : Prop :=
  ∀ y < kGemmTile, ∀ x < kGemmTile,
    tile y x = paddedCell b inner columns (n * kGemmTile + y) (blockIdx.x * kGemmTile + x)

/-- The accumulators of a block have a number of terms. -/
def Accumulated (rows inner columns : Nat) (a b : Nat → Nat → α) (blockIdx : Idx)
    (terms : Nat) (s : GemmBlock α) : Prop :=
  ∀ t, InTile t → s.accumulator t = dot (paddedCell a rows inner) (paddedCell b inner columns)
    (tileRow blockIdx t) (tileColumn blockIdx t) terms

omit [Semiring α] in
/-- A write to one entry of a tile. -/
theorem setTile_eq (tile : Nat → Nat → α) {t : Idx} (ht : InTile t) (value : α) :
    ∃ tile', setTile tile t.y t.x value = .ok tile' ∧ tile' t.y t.x = value ∧
      ∀ t' : Idx, t' ≠ t → tile' t'.y t'.x = tile t'.y t'.x := by
  refine ⟨_, if_pos ⟨ht.2, ht.1⟩, if_pos ⟨rfl, rfl⟩, ?_⟩
  intro t' hne
  apply if_neg
  intro hsame
  exact hne (by
    cases t
    cases t'
    simp_all)

omit [Semiring α] in
/-- **Rule for loading a tile.**  Each thread writes its element; `get` and
`put` say which tile it is, and `keep` what stays. -/
theorem load_all (threads : TurnOrder) {load : Idx → GemmBlock α → Except Fault (GemmBlock α)}
    (element : Idx → α) (get : GemmBlock α → Nat → Nat → α)
    (put : GemmBlock α → (Nat → Nat → α) → GemmBlock α) (keep : GemmBlock α → Prop)
    (hget : ∀ s tile, get (put s tile) = tile) (hkeep : ∀ s tile, keep s → keep (put s tile))
    (hload : ∀ t s tile, InTile t → setTile (get s) t.y t.x (element t) = .ok tile →
      load t s = .ok (put s tile)) {s : GemmBlock α} (hs : keep s) :
    ∃ s', loop load (threads.turns kGemmTile kGemmTile) s = .ok s' ∧ keep s' ∧
      ∀ y < kGemmTile, ∀ x < kGemmTile, get s' y x = element ⟨x, y⟩ := by
  obtain ⟨s', hrun, hkept, hloaded⟩ := each_total load (threads.turns kGemmTile kGemmTile)
    (threads.nodup _ _)
    (fun done s => keep s ∧ ∀ t ∈ done, get s t.y t.x = element t)
    (by
      intro done t s ht hfresh hinv
      obtain ⟨hkept, hdone⟩ := hinv
      have hthread : InTile t := (threads.mem_iff _ _ _).mp ht
      obtain ⟨tile, htile, hself, hothers⟩ := setTile_eq (get s) hthread (element t)
      refine ⟨put s tile, hload t s tile hthread htile, hkeep s tile hkept, ?_⟩
      intro t' hmem
      rw [hget]
      rcases List.mem_append.mp hmem with hold | hnew
      · have hne : t' ≠ t := by
          intro heq
          exact hfresh (heq ▸ hold)
        rw [hothers t' hne, hdone t' hold]
      · rw [List.mem_singleton.mp hnew, hself])
    ⟨hs, by simp⟩
  refine ⟨s', hrun, hkept, ?_⟩
  intro y hy x hx
  exact hloaded ⟨x, y⟩ ((threads.mem_iff _ _ _).mpr ⟨hx, hy⟩)

/-- **All threads load the left tile.** -/
theorem loadLhs_all (threads : TurnOrder) (h : args.Holds rows inner columns a b)
    (hsizes : GemmSizes rows inner columns) (hblock : InGrid rows columns blockIdx)
    (hn : n * kGemmTile < inner) (s : GemmBlock α) :
    ∃ s', loop (loadLhs args blockIdx (n * kGemmTile)) (threads.turns kGemmTile kGemmTile) s
        = .ok s' ∧ (s'.rhsTile = s.rhsTile ∧ s'.accumulator = s.accumulator) ∧
      LhsLoaded rows inner a blockIdx n s'.lhsTile := by
  apply load_all threads
    (fun t => paddedCell a rows inner (tileRow blockIdx t) (n * kGemmTile + t.x))
    (·.lhsTile) (fun s tile => { s with lhsTile := tile })
    (fun s' => s'.rhsTile = s.rhsTile ∧ s'.accumulator = s.accumulator)
    (fun _ _ => rfl) (fun _ _ hkept => hkept) _ ⟨rfl, rfl⟩
  intro t s tile ht htile
  rw [loadLhs, lhsElement_eq h hsizes hblock ht hn, ok_bind, htile, ok_bind]

/-- **All threads load the right tile.** -/
theorem loadRhs_all (threads : TurnOrder) (h : args.Holds rows inner columns a b)
    (hsizes : GemmSizes rows inner columns) (hblock : InGrid rows columns blockIdx)
    (hn : n * kGemmTile < inner) (s : GemmBlock α) :
    ∃ s', loop (loadRhs args blockIdx (n * kGemmTile)) (threads.turns kGemmTile kGemmTile) s
        = .ok s' ∧ (s'.lhsTile = s.lhsTile ∧ s'.accumulator = s.accumulator) ∧
      RhsLoaded inner columns b blockIdx n s'.rhsTile := by
  apply load_all threads
    (fun t => paddedCell b inner columns (n * kGemmTile + t.y) (tileColumn blockIdx t))
    (·.rhsTile) (fun s tile => { s with rhsTile := tile })
    (fun s' => s'.lhsTile = s.lhsTile ∧ s'.accumulator = s.accumulator)
    (fun _ _ => rfl) (fun _ _ hkept => hkept) _ ⟨rfl, rfl⟩
  intro t s tile ht htile
  rw [loadRhs, rhsElement_eq h hsizes hblock ht hn, ok_bind, htile, ok_bind]

/-- **All threads add one term.** -/
theorem multiply_all (threads : TurnOrder) {k : Nat} (hk : k < kGemmTile) {s : GemmBlock α}
    (hlhs : LhsLoaded rows inner a blockIdx n s.lhsTile)
    (hrhs : RhsLoaded inner columns b blockIdx n s.rhsTile)
    (h : Accumulated rows inner columns a b blockIdx (n * kGemmTile + k) s) :
    ∃ s', loop (multiply k) (threads.turns kGemmTile kGemmTile) s = .ok s' ∧
      s'.lhsTile = s.lhsTile ∧ s'.rhsTile = s.rhsTile ∧
      Accumulated rows inner columns a b blockIdx (n * kGemmTile + (k + 1)) s' := by
  obtain ⟨s', hrun, hlhs', hrhs', hdone⟩ := each_total (multiply k)
    (threads.turns kGemmTile kGemmTile) (threads.nodup _ _)
    (fun done s₁ => s₁.lhsTile = s.lhsTile ∧ s₁.rhsTile = s.rhsTile ∧
      ∀ t, InTile t → s₁.accumulator t =
        dot (paddedCell a rows inner) (paddedCell b inner columns)
          (tileRow blockIdx t) (tileColumn blockIdx t)
          (n * kGemmTile + if t ∈ done then k + 1 else k))
    (by
      intro done t s₁ ht hfresh hinv
      obtain ⟨hl, hr, hacc⟩ := hinv
      have hthread : InTile t := (threads.mem_iff _ _ _).mp ht
      have hx : tileAt s₁.lhsTile t.y k = .ok (paddedCell a rows inner (tileRow blockIdx t)
          (n * kGemmTile + k)) := by
        rw [tileAt, if_pos ⟨hthread.2, hk⟩, hl, hlhs t.y hthread.2 k hk, tileRow]
      have hy : tileAt s₁.rhsTile k t.x = .ok (paddedCell b inner columns
          (n * kGemmTile + k) (tileColumn blockIdx t)) := by
        rw [tileAt, if_pos ⟨hk, hthread.1⟩, hr, hrhs k hk t.x hthread.1, tileColumn]
      have hstep : multiply k t s₁ = .ok { s₁ with
          accumulator := fun t' =>
            if t' = t then s₁.accumulator t' +
                paddedCell a rows inner (tileRow blockIdx t) (n * kGemmTile + k) *
                  paddedCell b inner columns (n * kGemmTile + k) (tileColumn blockIdx t)
              else s₁.accumulator t' } := by
        rw [multiply, hx, ok_bind, hy, ok_bind]
      refine ⟨_, hstep, hl, hr, ?_⟩
      intro t' ht'
      by_cases heq : t' = t
      · subst heq
        rw [if_pos (by simp), ← Nat.add_assoc, dot]
        simp only [if_pos]
        rw [hacc t' ht', if_neg hfresh]
      · simp only [List.mem_append, List.mem_singleton, heq, or_false]
        exact hacc t' ht')
    (by
      refine ⟨rfl, rfl, ?_⟩
      intro t ht
      rw [h t ht, if_neg List.not_mem_nil])
  refine ⟨s', hrun, hlhs', hrhs', ?_⟩
  intro t ht
  rw [hdone t ht, if_pos ((threads.mem_iff _ _ _).mpr ht)]

/-- **A turn of the loop over tiles adds the terms of one tile.** -/
theorem tileTurn_accumulates (threads : TurnOrder) (h : args.Holds rows inner columns a b)
    (hsizes : GemmSizes rows inner columns) (hblock : InGrid rows columns blockIdx)
    (hn : n * kGemmTile < inner) {s : GemmBlock α}
    (hs : Accumulated rows inner columns a b blockIdx (n * kGemmTile) s) :
    ∃ s', tileTurn threads args blockIdx (n * kGemmTile) s = .ok s' ∧
      Accumulated rows inner columns a b blockIdx ((n + 1) * kGemmTile) s' := by
  obtain ⟨s₁, hrun₁, ⟨_, hacc₁⟩, hlhs₁⟩ := loadLhs_all threads h hsizes hblock hn s
  obtain ⟨s₂, hrun₂, ⟨hlhs₂, hacc₂⟩, hrhs₂⟩ := loadRhs_all threads h hsizes hblock hn s₁
  obtain ⟨s₃, hrun₃, _, _, hacc₃⟩ := upTo_total
    (fun k => loop (multiply k) (threads.turns kGemmTile kGemmTile)) 0 kGemmTile
    (fun k s => LhsLoaded rows inner a blockIdx n s.lhsTile ∧
      RhsLoaded inner columns b blockIdx n s.rhsTile ∧
      Accumulated rows inner columns a b blockIdx (n * kGemmTile + k) s)
    (by
      intro k s _ hk hinv
      obtain ⟨hl, hr, hacc⟩ := hinv
      obtain ⟨s', hrun, hl', hr', hacc'⟩ := multiply_all threads hk hl hr hacc
      exact ⟨s', hrun, hl' ▸ hl, hr' ▸ hr, hacc'⟩)
    (Nat.zero_le _)
    (s := s₂) (by
      refine ⟨hlhs₂ ▸ hlhs₁, hrhs₂, ?_⟩
      intro t ht
      rw [hacc₂, hacc₁, hs t ht, Nat.add_zero])
  refine ⟨s₃, ?_, ?_⟩
  · simp only [tileTurn, hrun₁, hrun₂, ok_bind]
    exact hrun₃
  · rwa [Nat.succ_mul]

/-! ## One block -/

/-- Terms past the inner dimension are zeros. -/
theorem dot_padded {i j terms : Nat} (hi : i < rows) (hj : j < columns)
    (hterms : inner ≤ terms) :
    dot (paddedCell a rows inner) (paddedCell b inner columns) i j terms = dot a b i j inner := by
  have hinside : ∀ m ≤ inner,
      dot (paddedCell a rows inner) (paddedCell b inner columns) i j m = dot a b i j m := by
    intro m
    induction m with
    | zero =>
        intro _
        rfl
    | succ m ih =>
        intro hm
        rw [dot, dot, ih (by omega), paddedCell, paddedCell, if_pos ⟨hi, by omega⟩,
          if_pos ⟨by omega, hj⟩]
  obtain ⟨extra, rfl⟩ := Nat.exists_eq_add_of_le hterms
  induction extra with
  | zero => exact hinside inner (Nat.le_refl _)
  | succ extra ih =>
      rw [← Nat.add_assoc, dot, ih (by omega), paddedCell, if_neg (by omega), zero_mul, add_zero]

/-- The store of a thread, if it has one. -/
def cellStores (rows inner columns : Nat) (a b : Nat → Nat → α) (blockIdx t : Idx) :
    List (Store α) :=
  if tileRow blockIdx t < rows ∧ tileColumn blockIdx t < columns then
    [⟨blockIdx, t, tileRow blockIdx t * columns + tileColumn blockIdx t,
      dot a b (tileRow blockIdx t) (tileColumn blockIdx t) inner⟩]
  else []

/-- A thread stores its cell. -/
theorem storeCell_eq (h : args.Holds rows inner columns a b)
    (hsizes : GemmSizes rows inner columns) (hblock : InGrid rows columns blockIdx)
    {t : Idx} (ht : InTile t) {terms : Nat} (hterms : inner ≤ terms) {s : GemmBlock α}
    (hs : Accumulated rows inner columns a b blockIdx terms s) :
    storeCell args blockIdx s t = .ok (cellStores rows inner columns a b blockIdx t) := by
  obtain ⟨_, hrow⟩ := gemmRow_eq hsizes hblock ht
  obtain ⟨_, hcolumn⟩ := gemmColumn_eq hsizes hblock ht
  have houtput := hsizes.output
  have hvalue := hs t ht
  simp only [storeCell, cellStores, hrow, hcolumn, h.rows, h.columns, h.outputSize]
  generalize hi : tileRow blockIdx t = i at hvalue
  generalize hj : tileColumn blockIdx t = j at hvalue
  by_cases hin : i < rows ∧ j < columns
  · have hcell := RowMajor.cell_lt hin.1 hin.2
    rw [if_pos (by omega), if_pos hin, cellIndex_eq rfl rfl rfl (by omega), ok_bind,
      writeAt_natCast hcell, hvalue, dot_padded hin.1 hin.2 hterms]
  · rw [if_neg (by omega), if_neg hin]

/-- **A block stores the cells of its tile.** -/
theorem gemmTiled_eq (threads : TurnOrder) (fresh : Uninitialized α)
    (h : args.Holds rows inner columns a b) (hsizes : GemmSizes rows inner columns)
    (hblock : InGrid rows columns blockIdx) :
    gemmTiled threads fresh args blockIdx = .ok ((threads.turns kGemmTile kGemmTile).flatMap
      (cellStores rows inner columns a b blockIdx)) := by
  have hpadded := hsizes.innerPadded
  have hpos := kGemmTile_pos
  obtain ⟨s, hrun, hs⟩ := turns_total (tileTurn threads args blockIdx) inner kGemmTile hpos
    (fun n => Accumulated rows inner columns a b blockIdx (n * kGemmTile))
    (by
      intro n s hn hs
      exact tileTurn_accumulates threads h hsizes hblock hn hs)
    (s := ⟨fresh.lhsTile, fresh.rhsTile, fun _ => 0⟩)
    (by
      intro t _
      rw [Nat.zero_mul, dot])
  have hroom : inner + kGemmTile ≤ 2 ^ 31 := by
    unfold padded kGemmTile at hpadded
    unfold kGemmTile
    omega
  rw [gemmTiled, h.inner, Int.toNat_natCast, counted_of_loop hpos hroom hrun, ok_bind]
  apply gather_eq
  intro t ht
  exact storeCell_eq h hsizes hblock ((threads.mem_iff _ _ _).mp ht) (le_turns_mul hpos) hs

/-! ## The grid -/

/-- A store goes to the cell of its thread. -/
theorem cellStores_index {t : Idx} {store : Store α}
    (hstore : store ∈ cellStores rows inner columns a b blockIdx t) {i j : Nat}
    (hj : j < columns) (hindex : store.index = i * columns + j) :
    tileRow blockIdx t = i ∧ tileColumn blockIdx t = j := by
  unfold cellStores at hstore
  split at hstore
  · rename_i hin
    rw [List.mem_singleton.mp hstore] at hindex
    exact (RowMajor.cell_inj hin.2 hj).mp hindex
  · cases hstore

/-- No store leaves the output. -/
theorem cellStores_lt {t : Idx} {store : Store α}
    (hstore : store ∈ cellStores rows inner columns a b blockIdx t) :
    store.index < rows * columns := by
  unfold cellStores at hstore
  split at hstore
  · rename_i hin
    rw [List.mem_singleton.mp hstore]
    exact RowMajor.cell_lt hin.1 hin.2
  · cases hstore

omit [Semiring α] in
/-- The block and the thread of a cell. -/
theorem tile_coordinates {t : Idx} (ht : InTile t) {i j : Nat} :
    tileRow blockIdx t = i ∧ tileColumn blockIdx t = j ↔
      blockIdx = ⟨j / kGemmTile, i / kGemmTile⟩ ∧ t = ⟨j % kGemmTile, i % kGemmTile⟩ := by
  obtain ⟨hx, hy⟩ := ht
  obtain ⟨blockX, blockY⟩ := blockIdx
  obtain ⟨x, y⟩ := t
  simp only [tileRow, tileColumn, kGemmTile, Idx.mk.injEq] at *
  omega

/-- **Each cell is written once.** -/
theorem launch_writes (device : Device) {i j : Nat} (hi : i < rows) (hj : j < columns) :
    WrittenOnce
      ((device.blocks.turns ((columns + kGemmTile - 1) / kGemmTile)
        ((rows + kGemmTile - 1) / kGemmTile)).flatMap fun blockIdx =>
          (device.threads.turns kGemmTile kGemmTile).flatMap
            (cellStores rows inner columns a b blockIdx))
      (i * columns + j) (dot a b i j inner) := by
  have hthread : InTile ⟨j % kGemmTile, i % kGemmTile⟩ :=
    ⟨Nat.mod_lt j kGemmTile_pos, Nat.mod_lt i kGemmTile_pos⟩
  apply writtenOnce_flatMap (device.blocks.nodup _ _)
    (i := ⟨j / kGemmTile, i / kGemmTile⟩)
  · apply (device.blocks.mem_iff _ _ _).mpr
    simp only [kGemmTile]
    omega
  · intro blockIdx _ store hstore hindex
    obtain ⟨t, ht, hcell⟩ := List.mem_flatMap.mp hstore
    have hcoordinates := cellStores_index hcell hj hindex
    exact ((tile_coordinates ((device.threads.mem_iff _ _ _).mp ht)).mp hcoordinates).1
  · apply writtenOnce_flatMap (device.threads.nodup _ _)
      (i := ⟨j % kGemmTile, i % kGemmTile⟩)
    · exact (device.threads.mem_iff _ _ _).mpr hthread
    · intro t ht store hstore hindex
      have hcoordinates := cellStores_index hstore hj hindex
      exact ((tile_coordinates ((device.threads.mem_iff _ _ _).mp ht)).mp hcoordinates).2
    · obtain ⟨hrow, hcolumn⟩ := (tile_coordinates hthread (i := i) (j := j)).mpr ⟨rfl, rfl⟩
      refine ⟨⟨⟨j / kGemmTile, i / kGemmTile⟩, ⟨j % kGemmTile, i % kGemmTile⟩,
        i * columns + j, dot a b i j inner⟩, ?_, rfl⟩
      rw [cellStores, hrow, hcolumn, if_pos ⟨hi, hj⟩]
      simp

/-- **What `gemm_cuda` does.**  It writes the product. -/
theorem gemmCuda_writes (device : Device) (fresh : Uninitialized α) {lhs rhs : Tensor α}
    (hsizes : GemmSizes rows inner columns) (hlhs : lhs.Cells rows inner a)
    (hrhs : rhs.Cells inner columns b) :
    ∃ launched, gemmCuda device fresh lhs rhs = .ok launched ∧
      launched.Writes rows columns (fun i j => dot a b i j inner) ∧
      launched.output.Cells rows columns (fun i j => dot a b i j inner) := by
  obtain ⟨hrowsRoom, hinnerRoom, hcolumnsRoom⟩ := hsizes.rooms
  have houtput := hsizes.output
  have hpos := kGemmTile_pos
  obtain ⟨output, hnew, hzero⟩ := Tensor.new_cells (α := α) (by omega : rows < 2 ^ 64)
    (by omega : rows * columns < 2 ^ 64)
  have hnumel : output.numel = rows * columns := (Tensor.length_of_matrix hzero.shape).1
  have hargs : GemmArgs.Holds (α := α)
      ⟨lhs.storage, rhs.storage, rows * columns, rows, columns, inner⟩ rows inner columns a b :=
    ⟨hlhs.cells, hrhs.cells, rfl, rfl, rfl, rfl⟩
  let blocks := device.blocks.turns ((columns + kGemmTile - 1) / kGemmTile)
    ((rows + kGemmTile - 1) / kGemmTile)
  let stores := blocks.flatMap fun blockIdx =>
    (device.threads.turns kGemmTile kGemmTile).flatMap
      (cellStores rows inner columns a b blockIdx)
  have hgather : gather (gemmTiled device.threads fresh
      ⟨lhs.storage, rhs.storage, rows * columns, rows, columns, inner⟩) blocks = .ok stores := by
    apply gather_eq
    intro blockIdx hmem
    exact gemmTiled_eq device.threads fresh hargs hsizes ((device.blocks.mem_iff _ _ _).mp hmem)
  have hwrites : (copyBack fresh.device stores output).Writes rows columns
      (fun i j => dot a b i j inner) := by
    refine ⟨fun i hi j hj => launch_writes device hi hj, ?_⟩
    intro store hstore
    obtain ⟨blockIdx, _, hstore⟩ := List.mem_flatMap.mp hstore
    obtain ⟨t, _, hcell⟩ := List.mem_flatMap.mp hstore
    exact cellStores_lt hcell
  refine ⟨copyBack fresh.device stores output, ?_, hwrites, hwrites.copied hzero.shape⟩
  rw [gemmCuda, hlhs.shape, hrhs.shape]
  simp only [ne_eq, not_true_eq_false, if_false]
  rw [castInt_of_lt (by omega : rows < 2 ^ 31), castInt_of_lt (by omega : inner < 2 ^ 31),
    castInt_of_lt (by omega : columns < 2 ^ 31), castSize_natCast (by omega),
    castSize_natCast (by omega), hnew, ok_bind,
    wrapInt_rounded hpos hcolumnsRoom, wrapInt_rounded hpos hrowsRoom,
    ← Int.ofNat_tdiv, ← Int.ofNat_tdiv, castUnsigned_natCast, castUnsigned_natCast,
    hnumel, hgather, ok_bind]
  · exact Nat.lt_of_le_of_lt (Nat.div_le_self _ _) hrowsRoom
  · exact Nat.lt_of_le_of_lt (Nat.div_le_self _ _) hcolumnsRoom

end kernel

/-- **The tiled product on the device is the product on the CPU.**  For positive
sizes within `int`, over any semiring and for every order of blocks and threads:
`gemm_cuda` and `gemm` both succeed, each cell of the output is written by exactly
one store of one thread, with the value `gemm` has there, no store leaves the
output, and both return the same tensor. -/
theorem gemm_cuda_is_gemm {α : Type} [Semiring α] (device : Device) (fresh : Uninitialized α)
    {lhs rhs : Tensor α} {rows inner columns : Nat} (hlhs : lhs.shape = [rows, inner])
    (hrhs : rhs.shape = [inner, columns]) (hsizes : GemmSizes rows inner columns) :
    ∃ launched output, gemmCuda device fresh lhs rhs = .ok launched ∧
      gemm lhs rhs = .ok output ∧ launched.output = output ∧
      launched.Writes rows columns (output.entry columns) := by
  obtain ⟨hrowsRoom, hinnerRoom, hcolumnsRoom⟩ := hsizes.rooms
  have houtput := hsizes.output
  have hpos := kGemmTile_pos
  have htile : (max 1 ({} : GemmConfig).tile).toNat = 16 := by decide
  obtain ⟨launched, hlaunch, hwrites, hcells⟩ := gemmCuda_writes device fresh hsizes
    (Tensor.cells_entry hlhs) (Tensor.cells_entry hrhs)
  obtain ⟨output, hgemm, hproduct⟩ := gemm_cells {} (Tensor.cells_entry hlhs)
    (Tensor.cells_entry hrhs) (by omega) (by omega) (by omega) (by omega) (by omega)
  exact ⟨launched, output, hlaunch, hgemm, hcells.eq hproduct,
    hwrites.congr fun i hi j hj => hproduct.entry_eq hi hj⟩

/-- Sizes that are no multiples of the tile, on a device that takes blocks and
threads in sequence. -/
theorem gemm_cuda_is_gemm_example :
    ∃ launched output,
      gemmCuda ⟨.sequential, .sequential⟩ ⟨fun _ => 7, fun _ _ => 7, fun _ _ => 7⟩
        (⟨[33, 2], List.replicate 66 1, by decide +kernel⟩ : Tensor Nat)
        ⟨[2, 40], List.range 80, by decide +kernel⟩ = .ok launched ∧
      gemm (⟨[33, 2], List.replicate 66 1, by decide +kernel⟩ : Tensor Nat)
        ⟨[2, 40], List.range 80, by decide +kernel⟩ = .ok output ∧
      launched.output = output ∧ launched.Writes 33 40 (output.entry 40) :=
  gemm_cuda_is_gemm ⟨.sequential, .sequential⟩ ⟨fun _ => 7, fun _ _ => 7, fun _ _ => 7⟩
    rfl rfl ⟨by decide, by decide, by decide, by decide, by decide, by decide, by decide,
      by decide, by decide⟩

end Gpuforge

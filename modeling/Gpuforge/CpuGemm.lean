import Gpuforge.ForLoop
import Gpuforge.Tensors
import Gpuforge.TuneTable

/-!
# The product on the CPU (`kernels.cpp`)

`gemm` walks over blocks of rows, of columns and of the inner dimension.  A
block adds its terms to the cells of the output that it covers, in the order of
the inner dimension: the accumulator of a cell is read from the output before
the block and stored after it.

The proof follows how many terms each cell has (`Progress`).  Blocks of the
inner dimension come in order, so the terms of a cell are added from the left,
one after another, whatever the tile is (`gemm_cells`).
-/

namespace Gpuforge

open ForLoop

variable {α : Type} [Zero α] [Add α] [Mul α]

/-- The loop over `index`, for one cell. -/
def accumulate (lhs rhs : Tensor α) (inner columns row column innerBlock innerEnd : Nat)
    (accumulator : α) : Except Fault α :=
  loop (fun index accumulator => do
      let x ← lhs.get (flatIndex row inner index)
      let y ← rhs.get (flatIndex index columns column)
      .ok (accumulator + x * y))
    (upTo innerBlock innerEnd) accumulator

/-- The loop body for one cell. -/
def gemmCell (lhs rhs : Tensor α) (inner columns innerBlock innerEnd row column : Nat)
    (output : Tensor α) : Except Fault (Tensor α) := do
  let accumulator ← output.get (flatIndex row columns column)
  let accumulator ←
    accumulate lhs rhs inner columns row column innerBlock innerEnd accumulator
  output.put (flatIndex row columns column) accumulator

/-- The loops over the cells of a block. -/
def gemmBlock (lhs rhs : Tensor α)
    (rows inner columns tile rowBlock columnBlock innerBlock : Nat) (output : Tensor α) :
    Except Fault (Tensor α) :=
  let rowEnd := min (addSize rowBlock tile) rows
  let columnEnd := min (addSize columnBlock tile) columns
  let innerEnd := min (addSize innerBlock tile) inner
  loop (fun row =>
      loop (gemmCell lhs rhs inner columns innerBlock innerEnd row)
        (upTo columnBlock columnEnd))
    (upTo rowBlock rowEnd) output

/-- The loop over `inner_block`. -/
def innerBlocks (lhs rhs : Tensor α) (rows inner columns tile rowBlock columnBlock : Nat) :
    Tensor α → Except Fault (Tensor α) :=
  counted (2 ^ 64) .wraps
    (fun innerBlock =>
      gemmBlock lhs rhs rows inner columns tile rowBlock columnBlock innerBlock)
    inner tile

/-- The loop over `column_block`. -/
def columnBlocks (lhs rhs : Tensor α) (rows inner columns tile rowBlock : Nat) :
    Tensor α → Except Fault (Tensor α) :=
  counted (2 ^ 64) .wraps
    (fun columnBlock => innerBlocks lhs rhs rows inner columns tile rowBlock columnBlock)
    columns tile

def gemm (lhs rhs : Tensor α) (config : GemmConfig := {}) : Except Fault (Tensor α) :=
  match lhs.shape, rhs.shape with
  | [rows, inner], [inner', columns] =>
      if inner ≠ inner' then .error (.threw .invalidArgument)
      else do
        let tile := castSize (max 1 config.tile)
        let output ← Tensor.new [rows, columns]
        counted (2 ^ 64) .wraps
          (fun rowBlock => columnBlocks lhs rhs rows inner columns tile rowBlock)
          rows tile output.zeros
  | _, _ => .error (.threw .invalidArgument)

/-- The first terms of a cell of a product, added from the left. -/
def dot (a b : Nat → Nat → α) (i j : Nat) : Nat → α
  | 0 => 0
  | n + 1 => dot a b i j n + a i n * b n j

/-- **Cells under way.**  Each cell has the sum of its first terms. -/
def Progress (a b : Nat → Nat → α) (rows columns : Nat) (terms : Nat → Nat → Nat)
    (output : Tensor α) : Prop :=
  output.Cells rows columns fun i j => dot a b i j (terms i j)

variable {lhs rhs output : Tensor α} {a b : Nat → Nat → α} {rows inner columns : Nat}
  {terms terms' : Nat → Nat → Nat}

/-- The same numbers of terms. -/
theorem Progress.congr (h : Progress a b rows columns terms output)
    (heq : ∀ i < rows, ∀ j < columns, terms i j = terms' i j) :
    Progress a b rows columns terms' output := by
  apply Tensor.Cells.congr h
  intro i hi j hj
  rw [heq i hi j hj]

/-- A cell goes on from the terms it has. -/
theorem accumulate_dot (hlhs : lhs.Cells rows inner a) (hrhs : rhs.Cells inner columns b)
    {i j lo hi : Nat} (hi' : i < rows) (hj : j < columns) (hlo : lo ≤ hi) (hhi : hi ≤ inner) :
    accumulate lhs rhs inner columns i j lo hi (dot a b i j lo) = .ok (dot a b i j hi) := by
  obtain ⟨total, hrun, htotal⟩ := upTo_total
    (fun index accumulator => do
      let x ← lhs.get (flatIndex i inner index)
      let y ← rhs.get (flatIndex index columns j)
      .ok (accumulator + x * y))
    lo hi (fun n accumulator => accumulator = dot a b i j n)
    (by
      intro n accumulator _ hn hinv
      refine ⟨_, ?_, rfl⟩
      rw [hlhs.get hi' (by omega), hrhs.get (by omega) hj, hinv, ok_bind, ok_bind, dot])
    hlo rfl
  rw [accumulate, hrun, htotal]

/-- A cell of a block gets the terms of the block. -/
theorem gemmCell_progress (hlhs : lhs.Cells rows inner a) (hrhs : rhs.Cells inner columns b)
    (hout : Progress a b rows columns terms output) {i j m n : Nat} (hi : i < rows)
    (hj : j < columns) (hmn : m ≤ n) (hn : n ≤ inner) (hterms : terms i j = m) :
    ∃ output', gemmCell lhs rhs inner columns m n i j output = .ok output' ∧
      Progress a b rows columns (fun i' j' => if i' = i ∧ j' = j then n else terms i' j')
        output' := by
  obtain ⟨output', hput, hcells⟩ := Tensor.Cells.put hout hi hj (dot a b i j n)
  refine ⟨output', ?_, ?_⟩
  · rw [gemmCell, Tensor.Cells.get hout hi hj, ok_bind, hterms,
      accumulate_dot hlhs hrhs hi hj hmn hn, ok_bind, hput]
  · apply Tensor.Cells.congr hcells
    intro i' _ j' _
    by_cases hsame : i' = i ∧ j' = j
    · simp only [if_pos hsame]
      rw [hsame.1, hsame.2]
    · simp only [if_neg hsame]

/-- **A block.**  Its cells get its terms, and no other cell changes. -/
theorem gemmBlock_progress (hlhs : lhs.Cells rows inner a) (hrhs : rhs.Cells inner columns b)
    {tile rowBlock columnBlock innerBlock : Nat} (hrows : rows + tile ≤ 2 ^ 64)
    (hinner : inner + tile ≤ 2 ^ 64) (hcolumns : columns + tile ≤ 2 ^ 64)
    (hrow : rowBlock < rows) (hcolumn : columnBlock < columns) (hin : innerBlock < inner)
    (hout : Progress a b rows columns terms output)
    (hterms : ∀ i j, rowBlock ≤ i → i < min (rowBlock + tile) rows → columnBlock ≤ j →
      j < min (columnBlock + tile) columns → terms i j = innerBlock) :
    ∃ output', gemmBlock lhs rhs rows inner columns tile rowBlock columnBlock innerBlock output
        = .ok output' ∧
      Progress a b rows columns (fun i j =>
        if rowBlock ≤ i ∧ i < min (rowBlock + tile) rows ∧ columnBlock ≤ j ∧
            j < min (columnBlock + tile) columns
          then min (innerBlock + tile) inner else terms i j) output' := by
  unfold gemmBlock
  rw [addSize_of_lt (by omega), addSize_of_lt (by omega), addSize_of_lt (by omega)]
  simp only
  generalize hre : min (rowBlock + tile) rows = rowEnd at hterms ⊢
  generalize hce : min (columnBlock + tile) columns = columnEnd at hterms ⊢
  generalize hie : min (innerBlock + tile) inner = innerEnd at hterms ⊢
  obtain ⟨output', hrun, hprogress⟩ := upTo_total
    (fun row =>
      loop (gemmCell lhs rhs inner columns innerBlock innerEnd row) (upTo columnBlock columnEnd))
    rowBlock rowEnd
    (fun row => Progress a b rows columns fun i j =>
      if rowBlock ≤ i ∧ i < row ∧ columnBlock ≤ j ∧ j < columnEnd then innerEnd else terms i j)
    (by
      intro row output₁ hlo hhi hout₁
      obtain ⟨output₂, hrun₂, hout₂⟩ := upTo_total
        (gemmCell lhs rhs inner columns innerBlock innerEnd row) columnBlock columnEnd
        (fun column => Progress a b rows columns fun i j =>
          if rowBlock ≤ i ∧ i < row ∧ columnBlock ≤ j ∧ j < columnEnd ∨
              i = row ∧ columnBlock ≤ j ∧ j < column
            then innerEnd else terms i j)
        (by
          intro column output₃ hclo hchi hout₃
          obtain ⟨output₄, hcell, hout₄⟩ := gemmCell_progress hlhs hrhs hout₃
            (i := row) (j := column) (m := innerBlock) (n := innerEnd)
            (by omega) (by omega) (by omega) (by omega)
            (by
              rw [if_neg (by omega)]
              exact hterms row column hlo hhi hclo hchi)
          refine ⟨output₄, hcell, hout₄.congr ?_⟩
          intro i _ j _
          by_cases hsame : i = row ∧ j = column
          · rw [if_pos hsame, if_pos (by omega)]
          · rw [if_neg hsame]
            exact if_congr (by omega) rfl rfl)
        (by omega)
        (hout₁.congr (by
          intro i _ j _
          exact if_congr (by omega) rfl rfl))
      refine ⟨output₂, hrun₂, hout₂.congr ?_⟩
      intro i _ j _
      exact if_congr (by omega) rfl rfl)
    (by omega)
    (hout.congr (by
      intro i _ j _
      rw [if_neg (by omega)]))
  exact ⟨output', hrun, hprogress⟩

/-- The blocks of the inner dimension add all terms to the cells of a block. -/
theorem innerBlocks_progress (hlhs : lhs.Cells rows inner a) (hrhs : rhs.Cells inner columns b)
    {tile rowBlock columnBlock : Nat} (htile : 0 < tile) (hrows : rows + tile ≤ 2 ^ 64)
    (hinner : inner + tile ≤ 2 ^ 64) (hcolumns : columns + tile ≤ 2 ^ 64)
    (hrow : rowBlock < rows) (hcolumn : columnBlock < columns)
    (hout : Progress a b rows columns terms output)
    (hterms : ∀ i j, rowBlock ≤ i → i < min (rowBlock + tile) rows → columnBlock ≤ j →
      j < min (columnBlock + tile) columns → terms i j = 0) :
    ∃ output', innerBlocks lhs rhs rows inner columns tile rowBlock columnBlock output
        = .ok output' ∧
      Progress a b rows columns (fun i j =>
        if rowBlock ≤ i ∧ i < min (rowBlock + tile) rows ∧ columnBlock ≤ j ∧
            j < min (columnBlock + tile) columns
          then inner else terms i j) output' := by
  apply counted_total (2 ^ 64) Fault.wraps _ inner tile htile (by omega)
    (fun innerBlock => Progress a b rows columns fun i j =>
      if rowBlock ≤ i ∧ i < min (rowBlock + tile) rows ∧ columnBlock ≤ j ∧
          j < min (columnBlock + tile) columns
        then innerBlock else terms i j)
  · intro innerBlock output₁ hin hout₁
    obtain ⟨output₂, hrun, hout₂⟩ := gemmBlock_progress hlhs hrhs hrows hinner hcolumns hrow
      hcolumn hin hout₁ (by grind)
    exact ⟨output₂, hrun, hout₂.congr (by grind)⟩
  · exact hout.congr (by grind)

/-- The blocks of columns fill the rows of a block, from left to right. -/
theorem columnBlocks_progress (hlhs : lhs.Cells rows inner a)
    (hrhs : rhs.Cells inner columns b) {tile rowBlock : Nat} (htile : 0 < tile)
    (hrows : rows + tile ≤ 2 ^ 64) (hinner : inner + tile ≤ 2 ^ 64)
    (hcolumns : columns + tile ≤ 2 ^ 64) (hrow : rowBlock < rows)
    (hout : Progress a b rows columns (fun i _ => if i < rowBlock then inner else 0) output) :
    ∃ output', columnBlocks lhs rhs rows inner columns tile rowBlock output = .ok output' ∧
      Progress a b rows columns
        (fun i _ => if i < min (rowBlock + tile) rows then inner else 0) output' := by
  obtain ⟨output', hrun, hout'⟩ := counted_total (2 ^ 64) Fault.wraps
    (fun columnBlock => innerBlocks lhs rhs rows inner columns tile rowBlock columnBlock)
    columns tile htile (by omega)
    (fun columnBlock => Progress a b rows columns fun i j =>
      if i < rowBlock ∨ i < min (rowBlock + tile) rows ∧ j < columnBlock then inner else 0)
    (by
      intro columnBlock output₁ hcolumn hout₁
      obtain ⟨output₂, hrun₂, hout₂⟩ := innerBlocks_progress hlhs hrhs htile hrows hinner
        hcolumns hrow hcolumn hout₁ (by grind)
      exact ⟨output₂, hrun₂, hout₂.congr (by grind)⟩)
    (hout.congr (by grind))
  exact ⟨output', hrun, hout'.congr (by grind)⟩

/-- **The product, cell by cell.**  Each cell is the sum of its terms from the
left, whatever the tile. -/
theorem gemm_cells (config : GemmConfig) (hlhs : lhs.Cells rows inner a)
    (hrhs : rhs.Cells inner columns b) (hfits : rows * columns < 2 ^ 64)
    (htile : (max 1 config.tile).toNat < 2 ^ 64)
    (hrows : rows + (max 1 config.tile).toNat ≤ 2 ^ 64)
    (hinner : inner + (max 1 config.tile).toNat ≤ 2 ^ 64)
    (hcolumns : columns + (max 1 config.tile).toNat ≤ 2 ^ 64) :
    ∃ output, gemm lhs rhs config = .ok output ∧
      output.Cells rows columns fun i j => dot a b i j inner := by
  have hpos : 0 < (max 1 config.tile).toNat := by omega
  obtain ⟨output, hnew, hzero⟩ := Tensor.new_cells (α := α) (by omega : rows < 2 ^ 64) hfits
  have hcast : castSize (max 1 config.tile) = (max 1 config.tile).toNat := by
    have hcast := castSize_natCast htile
    rwa [Int.toNat_of_nonneg (by omega)] at hcast
  rw [gemm, hlhs.shape, hrhs.shape]
  simp only [ne_eq, not_true_eq_false, if_false, hnew, ok_bind]
  rw [hcast]
  generalize (max 1 config.tile).toNat = tile at hrows hinner hcolumns hpos ⊢
  have hstart : Progress a b rows columns (fun _ _ => 0) output.zeros := hzero.zeros
  obtain ⟨result, hrun, hresult⟩ := counted_total (2 ^ 64) Fault.wraps
    (fun rowBlock => columnBlocks lhs rhs rows inner columns tile rowBlock)
    rows tile hpos (by omega)
    (fun rowBlock => Progress a b rows columns fun i _ => if i < rowBlock then inner else 0)
    (by
      intro rowBlock output₁ hrow hout₁
      exact columnBlocks_progress hlhs hrhs hpos hrows hinner hcolumns hrow hout₁)
    (hstart.congr (by grind))
  exact ⟨result, hrun, hresult.congr (by grind)⟩

/-- **The sizes of a product that returns.**  Its cells fit, and the counters of the
blocks had room, as 16 divides `2^64`. -/
theorem gemm_sizes (hlhs : lhs.shape = [rows, inner]) (hrhs : rhs.shape = [inner, columns])
    (h : gemm lhs rhs = .ok output) : rows * columns < 2 ^ 64 ∧
      (0 < rows → 0 < columns →
        rows + 16 ≤ 2 ^ 64 ∧ inner + 16 ≤ 2 ^ 64 ∧ columns + 16 ≤ 2 ^ 64) := by
  have htile : castSize (max 1 ({} : GemmConfig).tile) = 16 := by decide
  have hdvd : 16 ∣ 2 ^ 64 := by decide
  rw [gemm, hlhs, hrhs] at h
  simp only [ne_eq, not_true_eq_false, if_false, htile] at h
  obtain ⟨zero, hnew, h⟩ := bind_ok h
  refine ⟨Tensor.new_fits hnew, ?_⟩
  intro hrows hcolumns
  obtain ⟨hrun, hroom⟩ := counted_ran h
  obtain ⟨s₁, s₂, hfirst⟩ := loop_ran hrun (mem_strides (n := 0) (by decide) (by omega))
  obtain ⟨hrun', hroom'⟩ := counted_ran hfirst
  obtain ⟨s₃, s₄, hfirst'⟩ := loop_ran hrun' (mem_strides (n := 0) (by decide) (by omega))
  obtain ⟨_, hroom''⟩ := counted_ran hfirst'
  exact ⟨room_of_turns (by decide) hdvd hroom, room_of_turns (by decide) hdvd hroom'',
    room_of_turns (by decide) hdvd hroom'⟩

/-- The cells of a product as left folds. -/
theorem dot_eq_foldl (a b : Nat → Nat → α) (i j : Nat) : ∀ n, dot a b i j n =
    (List.range n).foldl (fun accumulator k => accumulator + a i k * b k j) 0 := by
  intro n
  induction n with
  | zero => rfl
  | succ n ih => rw [dot, ih, List.range_succ, List.foldl_append, List.foldl_cons, List.foldl_nil]

/-- **The counters have room for the tile.** -/
def TileFits (config : GemmConfig) (rows inner columns : Nat) : Prop :=
  rows + (max 1 config.tile).toNat < 2 ^ 64 ∧ inner + (max 1 config.tile).toNat < 2 ^ 64 ∧
    columns + (max 1 config.tile).toNat < 2 ^ 64

/-- **The product does not depend on the tile.**  Unless the output has too many
entries for a tensor, every tile with room gives the same one, and each of its cells
is the left fold of its terms.  Addition and multiplication are arbitrary. -/
theorem gemm_is_left_fold (config : GemmConfig) (hlhs : lhs.shape = [rows, inner])
    (hrhs : rhs.shape = [inner, columns]) (hfits : TileFits config rows inner columns) :
    2 ^ 64 ≤ rows * columns ∧ gemm lhs rhs config = .error (.threw .lengthError) ∨
    ∃ output, gemm lhs rhs config = .ok output ∧ output.shape = [rows, columns] ∧
      (∀ i < rows, ∀ j < columns, output.get (flatIndex i columns j) = .ok
        ((List.range inner).foldl (fun accumulator k =>
          accumulator + lhs.entry inner i k * rhs.entry columns k j) 0)) ∧
      ∀ config', TileFits config' rows inner columns → gemm lhs rhs config' = .ok output := by
  by_cases hsize : rows * columns < 2 ^ 64
  · have hcells : ∀ config', TileFits config' rows inner columns →
        ∃ output, gemm lhs rhs config' = .ok output ∧ output.Cells rows columns
          fun i j => dot (lhs.entry inner) (rhs.entry columns) i j inner := by
      intro config' hfits'
      obtain ⟨hrows, hinner, hcolumns⟩ := hfits'
      exact gemm_cells config' (Tensor.cells_entry hlhs) (Tensor.cells_entry hrhs) hsize
        (by omega) (by omega) (by omega) (by omega)
    obtain ⟨output, hrun, hout⟩ := hcells config hfits
    refine Or.inr ⟨output, hrun, hout.shape, ?_, ?_⟩
    · intro i hi j hj
      rw [hout.get hi hj, dot_eq_foldl]
    · intro config' hfits'
      obtain ⟨output', hrun', hout'⟩ := hcells config' hfits'
      rw [hrun', hout.eq hout']
  · have hover : 2 ^ 64 ≤ rows * columns := by omega
    refine Or.inl ⟨hover, ?_⟩
    rw [gemm, hlhs, hrhs]
    simp only [ne_eq, not_true_eq_false, if_false, Tensor.new_overflow hover]
    rfl

/-- A tile that does not divide the sizes, and one below zero. -/
theorem gemm_is_left_fold_example :
    ∃ output, gemm (⟨[2, 3], List.range 6, rfl⟩ : Tensor Nat) ⟨[3, 2], List.range 6, rfl⟩
        { tile := 2 } = .ok output ∧ output.get 3 = .ok 40 ∧
      gemm (⟨[2, 3], List.range 6, rfl⟩ : Tensor Nat) ⟨[3, 2], List.range 6, rfl⟩
        { tile := -5 } = .ok output := by
  have hfits : TileFits { tile := 2 } 2 3 2 := ⟨by decide, by decide, by decide⟩
  have hfits' : TileFits { tile := -5 } 2 3 2 := ⟨by decide, by decide, by decide⟩
  obtain ⟨hover, _⟩ | ⟨output, hrun, _, hcells, hany⟩ :=
    @gemm_is_left_fold Nat _ _ _ ⟨[2, 3], List.range 6, rfl⟩ ⟨[3, 2], List.range 6, rfl⟩ 2 3 2
      { tile := 2 } rfl rfl hfits
  · omega
  · have hindex : flatIndex 1 2 1 = 3 := flatIndex_of_lt (by decide)
    have hcell := hcells 1 (by decide) 1 (by decide)
    rw [hindex] at hcell
    exact ⟨output, hrun, hcell, hany { tile := -5 } hfits'⟩

end Gpuforge

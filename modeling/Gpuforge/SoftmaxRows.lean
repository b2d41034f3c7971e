import Gpuforge.AttentionCells
import Mathlib.Analysis.SpecialFunctions.Exp

/-!
# The rows of `softmax` (`kernels.cpp`)

A row of the output has the weights of the same row of the input: positive, adding up to
one, in the order of the input.  The maximum that the code subtracts is one choice of shift
among many, and since the weights do not depend on the shift, neither do they see a constant
that is added to a row.
-/

namespace Gpuforge

open ForLoop ExpWeights Finset

variable {α : Type} [Field α] [LinearOrder α] [IsStrictOrderedRing α] {exp : α → α}
  {rows columns : Nat} {input : Tensor α}

/-- The rows of the output are probability distributions, in the order of the input. -/
structure Distributes (input output : Tensor α) (rows columns : Nat) : Prop where
  shape : output.shape = [rows, columns]
  bounds : ∀ i < rows, ∀ j < columns,
    0 < output.entry columns i j ∧ output.entry columns i j ≤ 1
  sum : ∀ i < rows, ∑ j ∈ range columns, output.entry columns i j = 1
  order : ∀ i < rows, ∀ j < columns, ∀ k < columns,
    input.entry columns i j < input.entry columns i k →
      output.entry columns i j < output.entry columns i k

/-- Whatever the output is when a row has its turn, the row is divided by a positive number. -/
def DividesByPositive (exp : α → α) (input : Tensor α) (rows columns : Nat) : Prop :=
  ∀ i < rows, ∀ output : Tensor α, output.shape = [rows, columns] →
    ∃ maximum output' denominator, rowMaximum input columns i = .ok maximum ∧
      rowExponentials exp input columns i (maximum.unbotD 0) output = .ok (output', denominator) ∧
      0 < denominator

omit [IsStrictOrderedRing α] in
/-- The entries of the output, with no shift at all. -/
theorem softmax_entries (hexp : Laws exp) (hshape : input.shape = [rows, columns])
    (hcolumns : 1 ≤ columns) : ∃ output, softmax exp input = .ok output ∧
      output.shape = [rows, columns] ∧ ∀ i < rows, ∀ j < columns,
        output.entry columns i j = weight exp (input.entry columns i) 0 columns j := by
  obtain ⟨output, hrun, hcells⟩ := softmax_cells exp (Tensor.cells_entry hshape) hcolumns
  refine ⟨output, hrun, hcells.shape, ?_⟩
  intro i hi j hj
  rw [hcells.entry_eq hi hj, softmaxCell]
  exact hexp.weight_shift _ _ _ _ _

omit [IsStrictOrderedRing α] in
/-- Rows that are the same up to a constant have the same output. -/
theorem softmax_rowPlus (hexp : Laws exp) (hcolumns : 1 ≤ columns) {rows' : Nat}
    {input' output output' : Tensor α} (hshape : input.shape = [rows, columns])
    (hshape' : input'.shape = [rows', columns]) (hrun : softmax exp input = .ok output)
    (hrun' : softmax exp input' = .ok output') {i : Nat} (hi : i < rows) (hi' : i < rows') {a : α}
    (hplus : input.RowPlus input' columns i a) : output.SameRow output' columns i := by
  obtain ⟨found, hfound, _, hentries⟩ := softmax_entries hexp hshape hcolumns
  obtain ⟨found', hfound', _, hentries'⟩ := softmax_entries hexp hshape' hcolumns
  cases hrun.symm.trans hfound
  cases hrun'.symm.trans hfound'
  intro j hj
  rw [hentries i hi j hj, hentries' i hi' j hj, weight_congr hplus 0 hj]
  exact hexp.weight_add _ a 0 columns j

/-- The denominator of a row is positive. -/
theorem softmax_dividesByPositive (hexp : Laws exp) (hshape : input.shape = [rows, columns])
    (hcolumns : 1 ≤ columns) : DividesByPositive exp input rows columns := by
  intro i hi output houtput
  have hinput := Tensor.cells_entry hshape
  obtain ⟨output', hrun, _⟩ := rowExponentials_cells exp hinput (Tensor.cells_entry houtput) hi
    ((prefixMax (input.entry columns i) columns).unbotD 0)
  exact ⟨_, output', _, rowMaximum_eq hinput hi, hrun,
    total_pos (fun y => (hexp.pos y).le) hcolumns (hexp.pos _)⟩

/-- **Softmax yields a probability distribution per row, and does not see a shift.**  For any
positive, strictly increasing `exp` that takes sums to products: every row is divided by a
positive number, its entries are in `(0, 1]`, add up to one and keep the order of the input;
a row depends only on the same row of the input, and a constant added to all entries of one
row changes nothing. -/
theorem softmax_rows (hexp : Laws exp) (hmono : StrictMono exp)
    (hshape : input.shape = [rows, columns]) (hcolumns : 1 ≤ columns) :
    DividesByPositive exp input rows columns ∧
    ∃ output, softmax exp input = .ok output ∧ Distributes input output rows columns ∧
      (∀ rows' (input' output' : Tensor α), input'.shape = [rows', columns] →
        softmax exp input' = .ok output' → ∀ i < rows, i < rows' →
          input.SameRow input' columns i → output.SameRow output' columns i) ∧
      ∀ i < rows, ∀ a (input' : Tensor α), input'.shape = [rows, columns] →
        input.RowPlus input' columns i a →
        (∀ k < rows, k ≠ i → input.SameRow input' columns k) → softmax exp input' = .ok output := by
  refine ⟨softmax_dividesByPositive hexp hshape hcolumns, ?_⟩
  obtain ⟨output, hrun, houtput, hentries⟩ := softmax_entries hexp hshape hcolumns
  -- a row that is the same is the same up to the constant 0
  have hlocal : ∀ rows' (input' output' : Tensor α), input'.shape = [rows', columns] →
      softmax exp input' = .ok output' → ∀ i < rows, i < rows' →
        input.SameRow input' columns i → output.SameRow output' columns i := by
    intro rows' input' output' hshape' hrun' i hi hi' hsame
    apply softmax_rowPlus hexp hcolumns hshape hshape' hrun hrun' hi hi' (a := 0)
    intro j hj
    rw [hsame j hj, add_zero]
  refine ⟨output, hrun, ⟨houtput, ?_, ?_, ?_⟩, hlocal, ?_⟩
  · intro i hi j hj
    rw [hentries i hi j hj]
    exact hexp.weight_bounds hj
  · intro i hi
    have htotal : 0 < total exp (input.entry columns i) 0 columns :=
      total_pos (fun y => (hexp.pos y).le) hcolumns (hexp.pos _)
    rw [← sum_weight htotal.ne']
    exact sum_congr rfl fun j hj => hentries i hi j (mem_range.mp hj)
  · intro i hi j hj k hk hlt
    rw [hentries i hi j hj, hentries i hi k hk]
    exact hexp.weight_lt hmono hj hlt
  · intro i hi a input' hshape' hplus hothers
    obtain ⟨output', hrun', houtput', _⟩ := softmax_entries hexp hshape' hcolumns
    have hrows : ∀ k < rows, output.SameRow output' columns k := by
      intro k hk
      by_cases hki : k = i
      · subst hki
        exact softmax_rowPlus hexp hcolumns hshape hshape' hrun hrun' hk hk hplus
      · exact hlocal rows input' output' hshape' hrun' k hk hk (hothers k hk hki)
    rw [hrun', Tensor.eq_of_sameRow houtput houtput' hrows]

/-- The real exponential on a row of two entries. -/
theorem softmax_rows_example :
    ∃ output, softmax Real.exp ⟨[1, 2], [0, 1], rfl⟩ = .ok output ∧
      Distributes ⟨[1, 2], [0, 1], rfl⟩ output 1 2 := by
  have hexp : Laws Real.exp := ⟨Real.exp_pos, Real.exp_add⟩
  let input : Tensor ℝ := ⟨[1, 2], [0, 1], rfl⟩
  have hshape : input.shape = [1, 2] := rfl
  obtain ⟨_, output, hrun, hrows, _⟩ :=
    softmax_rows hexp Real.exp_strictMono hshape (show 1 ≤ 2 by omega)
  exact ⟨output, hrun, hrows⟩

end Gpuforge

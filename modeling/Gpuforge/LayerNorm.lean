import Gpuforge.CpuAttention
import Gpuforge.Moments
import Mathlib.Analysis.Real.Sqrt

/-!
# Layer normalisation on the CPU (`kernels.cpp`)

`layer_norm` replaces each row of a matrix by its standard scores, with `epsilon` added to
the variance, and applies a scale and an offset for every column.  Mean and variance are
sums over the row, each in a loop of its own.

Arithmetic is exact: over an ordered field, in which every number is finite, with `sqrt` as
a parameter.  The only facts about it are that the root of a positive number is positive and
squares to that number.
-/

namespace Gpuforge

open ForLoop Moments Finset

section code

variable {α : Type} [Field α] [LinearOrder α]

/-- The loop for the mean of a row. -/
def rowMean (input : Tensor α) (columns row : Nat) : Except Fault α := do
  let mean ← loop (fun column mean => do
      let x ← input.get (flatIndex row columns column)
      .ok (mean + x))
    (upTo 0 columns) 0
  .ok (mean / columns)

/-- The loop for the variance of a row. -/
def rowVariance (input : Tensor α) (columns row : Nat) (mean : α) : Except Fault α := do
  let variance ← loop (fun column variance => do
      let x ← input.get (flatIndex row columns column)
      let delta := x - mean
      .ok (variance + delta * delta))
    (upTo 0 columns) 0
  .ok (variance / columns)

/-- The loop that writes a row. -/
def normalizeRow (sqrt : α → α) (input gamma beta : Tensor α) (epsilon : α) (columns row : Nat)
    (mean variance : α) (output : Tensor α) : Except Fault (Tensor α) :=
  loop (fun column output => do
      let x ← input.get (flatIndex row columns column)
      let normalized := (x - mean) / sqrt (variance + epsilon)
      let scale ← gamma.get column
      let offset ← beta.get column
      output.put (flatIndex row columns column) (normalized * scale + offset))
    (upTo 0 columns) output

/-- The loop body of `layer_norm`. -/
def layerNormRow (sqrt : α → α) (input gamma beta : Tensor α) (epsilon : α) (columns row : Nat)
    (output : Tensor α) : Except Fault (Tensor α) := do
  let mean ← rowMean input columns row
  let variance ← rowVariance input columns row mean
  normalizeRow sqrt input gamma beta epsilon columns row mean variance output

def layerNorm (sqrt : α → α) (input gamma beta : Tensor α) (epsilon : α) :
    Except Fault (Tensor α) :=
  match input.shape with
  | [rows, columns] =>
      if gamma.numel ≠ columns ∨ beta.numel ≠ gamma.numel then .error (.threw .invalidArgument)
      else if ¬ 0 < epsilon then .error (.threw .invalidArgument)
      else do
        let output ← Tensor.new [rows, columns]
        loop (layerNormRow sqrt input gamma beta epsilon columns) (upTo 0 rows) output
  | _ => .error (.threw .invalidArgument)

end code

variable {α : Type} [Field α] {rows columns : Nat}

/-- A running sum over a row. -/
theorem rowSum_total {input : Tensor α} {x : Nat → Nat → α} (hinput : input.Cells rows columns x)
    {i : Nat} (hi : i < rows) (term : α → α) :
    loop (fun column sum => do
        let x ← input.get (flatIndex i columns column)
        .ok (sum + term x))
      (upTo 0 columns) (0 : α) = .ok (∑ k ∈ range columns, term (x i k)) := by
  obtain ⟨sum, hrun, hsum⟩ := upTo_total
    (fun column (sum : α) => do
      let x ← input.get (flatIndex i columns column)
      .ok (sum + term x))
    0 columns (fun n sum => sum = ∑ k ∈ range n, term (x i k))
    (by
      intro n sum _ hn hinv
      refine ⟨_, by rw [hinput.get hi hn, ok_bind], ?_⟩
      rw [sum_range_succ, hinv])
    (Nat.zero_le _) (s := 0) rfl
  rw [hrun, hsum]

/-- `rowMean` finds the mean of a row. -/
theorem rowMean_eq {input : Tensor α} {x : Nat → Nat → α} (hinput : input.Cells rows columns x)
    {i : Nat} (hi : i < rows) : rowMean input columns i = .ok (mean (x i) columns) := by
  rw [rowMean, rowSum_total hinput hi fun y => y]
  rfl

/-- `rowVariance` finds the variance of a row. -/
theorem rowVariance_eq {input : Tensor α} {x : Nat → Nat → α}
    (hinput : input.Cells rows columns x) {i : Nat} (hi : i < rows) :
    rowVariance input columns i (mean (x i) columns) = .ok (variance (x i) columns) := by
  rw [rowVariance, rowSum_total hinput hi fun y =>
    (y - mean (x i) columns) * (y - mean (x i) columns)]
  rfl

/-- `normalizeRow` writes a row. -/
theorem normalizeRow_cells (sqrt : α → α) {input gamma beta output : Tensor α}
    {x c : Nat → Nat → α} (hinput : input.Cells rows columns x)
    (hgamma : gamma.storage.length = columns) (hbeta : beta.storage.length = columns)
    (houtput : output.Cells rows columns c) (epsilon : α) {i : Nat} (hi : i < rows)
    (mean variance : α) :
    ∃ output', normalizeRow sqrt input gamma beta epsilon columns i mean variance output
        = .ok output' ∧
      output'.Cells rows columns fun i' j =>
        if i' = i then (x i j - mean) / sqrt (variance + epsilon) * gamma.storage.getD j 0 +
          beta.storage.getD j 0 else c i' j := by
  obtain ⟨output', hrun, hcells⟩ := upTo_total
    (fun column (output : Tensor α) => do
      let x ← input.get (flatIndex i columns column)
      let normalized := (x - mean) / sqrt (variance + epsilon)
      let scale ← gamma.get column
      let offset ← beta.get column
      output.put (flatIndex i columns column) (normalized * scale + offset))
    0 columns
    (fun n output => output.Cells rows columns fun i' j =>
      if i' = i ∧ j < n then (x i j - mean) / sqrt (variance + epsilon) * gamma.storage.getD j 0 +
        beta.storage.getD j 0 else c i' j)
    (by
      intro n output _ hn hcells
      have hscale : gamma.get n = .ok (gamma.storage.getD n 0) :=
        Tensor.get_eq (by simp [List.getD_eq_getElem?_getD, hgamma, hn])
      have hoffset : beta.get n = .ok (beta.storage.getD n 0) :=
        Tensor.get_eq (by simp [List.getD_eq_getElem?_getD, hbeta, hn])
      obtain ⟨output', hput, hcells'⟩ := hcells.put hi hn
        ((x i n - mean) / sqrt (variance + epsilon) * gamma.storage.getD n 0 +
          beta.storage.getD n 0)
      refine ⟨output', ?_, hcells'.congr ?_⟩
      · simp only [hinput.get hi hn, ok_bind, hscale, hoffset, hput]
      · intro i' _ j _
        grind)
    (Nat.zero_le _)
    (houtput.congr (by grind))
  exact ⟨output', hrun, hcells.congr (by grind)⟩

/-- The standard scores of a row, as `layer_norm` computes them. -/
def normalized (sqrt : α → α) (epsilon : α) (x : Nat → α) (columns j : Nat) : α :=
  score x columns (sqrt (variance x columns + epsilon)) j

variable [LinearOrder α]

/-- **`layer_norm`, cell by cell.** -/
theorem layerNorm_cells (sqrt : α → α) {input gamma beta : Tensor α} {x : Nat → Nat → α}
    (hinput : input.Cells rows columns x) (hcolumns : 1 ≤ columns)
    (hgamma : gamma.numel = columns) (hbeta : beta.numel = columns) {epsilon : α}
    (hepsilon : 0 < epsilon) :
    ∃ output, layerNorm sqrt input gamma beta epsilon = .ok output ∧
      output.Cells rows columns fun i j =>
        normalized sqrt epsilon (x i) columns j * gamma.storage.getD j 0 +
          beta.storage.getD j 0 := by
  obtain ⟨output, hnew, hzero⟩ := hinput.new_alike hcolumns
  obtain ⟨output', hrun, hcells⟩ := upTo_total
    (layerNormRow sqrt input gamma beta epsilon columns) 0 rows
    (fun row output => output.Cells rows columns fun i j =>
      if i < row then normalized sqrt epsilon (x i) columns j * gamma.storage.getD j 0 +
        beta.storage.getD j 0 else 0)
    (by
      intro row output _ hrow hcells
      obtain ⟨output₁, hwrite, hcells₁⟩ := normalizeRow_cells sqrt hinput hgamma hbeta hcells
        epsilon hrow (mean (x row) columns) (variance (x row) columns)
      refine ⟨output₁, ?_, hcells₁.congr ?_⟩
      · rw [layerNormRow, rowMean_eq hinput hrow, ok_bind, rowVariance_eq hinput hrow, ok_bind,
          hwrite]
      · intro i _ j _
        by_cases hsame : i = row
        · subst hsame
          simp only [if_true, if_pos (Nat.lt_succ_self i), normalized, score]
        · grind)
    (Nat.zero_le _)
    (hzero.congr (by grind))
  refine ⟨output', ?_, hcells.congr ?_⟩
  · rw [layerNorm, hinput.shape]
    simp only [hnew, ok_bind]
    rw [if_neg (by omega), if_neg (not_not_intro hepsilon), hrun]
  · intro i hi j _
    rw [if_pos hi]

/-! ## The laws of the rows -/

/-- What is known about the root. -/
structure RootLaws (sqrt : α → α) : Prop where
  pos : ∀ x, 0 < x → 0 < sqrt x
  mul_self : ∀ x, 0 < x → sqrt x * sqrt x = x

/-- The rows of the output are standard scores, scaled and offset: the scores add up to zero
and their squares to the count times the quotient of the variances, less than the count. -/
structure Normalizes (sqrt : α → α) (input gamma beta : Tensor α) (epsilon : α)
    (output : Tensor α) (rows columns : Nat) : Prop where
  shape : output.shape = [rows, columns]
  entries : ∀ i < rows, ∀ j < columns, output.entry columns i j =
    gamma.storage.getD j 0 * normalized sqrt epsilon (input.entry columns i) columns j +
      beta.storage.getD j 0
  centred : ∀ i < rows,
    ∑ j ∈ range columns, normalized sqrt epsilon (input.entry columns i) columns j = 0
  scaled : ∀ i < rows,
    ∑ j ∈ range columns, normalized sqrt epsilon (input.entry columns i) columns j ^ 2 =
      columns * variance (input.entry columns i) columns /
        (variance (input.entry columns i) columns + epsilon)
  below : ∀ i < rows,
    ∑ j ∈ range columns, normalized sqrt epsilon (input.entry columns i) columns j ^ 2 < columns

/-- The loops of a row divide by the positive number of columns, take the root of a positive
number, and divide by that root, which is positive. -/
def RootsPositive (sqrt : α → α) (input : Tensor α) (epsilon : α) (rows columns : Nat) : Prop :=
  ∀ i < rows, ∃ mean variance, rowMean input columns i = .ok mean ∧
    rowVariance input columns i mean = .ok variance ∧ (0 : α) < columns ∧
    0 < variance + epsilon ∧ 0 < sqrt (variance + epsilon)

variable {sqrt : α → α} {input gamma beta : Tensor α} {epsilon : α}

/-- The entries of the output. -/
theorem layerNorm_entries (sqrt : α → α) (hshape : input.shape = [rows, columns])
    (hcolumns : 1 ≤ columns) (hgamma : gamma.numel = columns) (hbeta : beta.numel = columns)
    (hepsilon : 0 < epsilon) : ∃ output, layerNorm sqrt input gamma beta epsilon = .ok output ∧
      output.shape = [rows, columns] ∧ ∀ i < rows, ∀ j < columns, output.entry columns i j =
        gamma.storage.getD j 0 * normalized sqrt epsilon (input.entry columns i) columns j +
          beta.storage.getD j 0 := by
  obtain ⟨output, hrun, hcells⟩ := layerNorm_cells sqrt (Tensor.cells_entry hshape) hcolumns
    hgamma hbeta hepsilon
  refine ⟨output, hrun, hcells.shape, ?_⟩
  intro i hi j hj
  rw [hcells.entry_eq hi hj, mul_comm]

variable [IsStrictOrderedRing α]

/-- A constant added to a row does not show in its scores. -/
theorem normalized_rowPlus (sqrt : α → α) (epsilon : α) (hcolumns : 1 ≤ columns)
    {input' : Tensor α} {i : Nat} {a : α} (hplus : input.RowPlus input' columns i a) {j : Nat}
    (hj : j < columns) : normalized sqrt epsilon (input'.entry columns i) columns j =
      normalized sqrt epsilon (input.entry columns i) columns j := by
  have hn : (columns : α) ≠ 0 := Nat.cast_ne_zero.mpr (by omega)
  rw [normalized, normalized, variance_congr hplus, variance_add hn, score_congr hplus _ hj,
    score_add hn]

/-- Rows that are the same up to a constant have the same output. -/
theorem layerNorm_rowPlus (hcolumns : 1 ≤ columns) (hgamma : gamma.numel = columns)
    (hbeta : beta.numel = columns) (hepsilon : 0 < epsilon) {rows' : Nat}
    {input' output output' : Tensor α} (hshape : input.shape = [rows, columns])
    (hshape' : input'.shape = [rows', columns])
    (hrun : layerNorm sqrt input gamma beta epsilon = .ok output)
    (hrun' : layerNorm sqrt input' gamma beta epsilon = .ok output') {i : Nat} (hi : i < rows)
    (hi' : i < rows') {a : α} (hplus : input.RowPlus input' columns i a) :
    output.SameRow output' columns i := by
  obtain ⟨found, hfound, _, hentries⟩ :=
    layerNorm_entries sqrt hshape hcolumns hgamma hbeta hepsilon
  obtain ⟨found', hfound', _, hentries'⟩ :=
    layerNorm_entries sqrt hshape' hcolumns hgamma hbeta hepsilon
  cases hrun.symm.trans hfound
  cases hrun'.symm.trans hfound'
  intro j hj
  rw [hentries i hi j hj, hentries' i hi' j hj, normalized_rowPlus sqrt epsilon hcolumns hplus hj]

/-- Nothing is divided by zero. -/
theorem layerNorm_rootsPositive (hsqrt : RootLaws sqrt) (hshape : input.shape = [rows, columns])
    (hcolumns : 1 ≤ columns) (hepsilon : 0 < epsilon) :
    RootsPositive sqrt input epsilon rows columns := by
  intro i hi
  have hinput := Tensor.cells_entry hshape
  have hsum := add_pos_of_nonneg_of_pos (variance_nonneg (input.entry columns i) columns) hepsilon
  exact ⟨_, _, rowMean_eq hinput hi, rowVariance_eq hinput hi, Nat.cast_pos.mpr hcolumns, hsum,
    hsqrt.pos _ hsum⟩

/-- **Layer normalisation centres and scales each row.**  For every accepted input with a
column: nothing is divided by zero and no root is taken of a number that is not positive;
the output is `gamma * z + beta` by columns, where the `z` of a row are its standard scores;
a row depends only on the same row of the input, and a constant added to a row leaves that
row of the output as it is. -/
theorem layer_norm_rows (hsqrt : RootLaws sqrt) (hshape : input.shape = [rows, columns])
    (hcolumns : 1 ≤ columns) (hgamma : gamma.numel = columns) (hbeta : beta.numel = columns)
    (hepsilon : 0 < epsilon) :
    RootsPositive sqrt input epsilon rows columns ∧
    ∃ output, layerNorm sqrt input gamma beta epsilon = .ok output ∧
      Normalizes sqrt input gamma beta epsilon output rows columns ∧
      ∀ rows' (input' output' : Tensor α), input'.shape = [rows', columns] →
        layerNorm sqrt input' gamma beta epsilon = .ok output' → ∀ i < rows, i < rows' →
          (input.SameRow input' columns i → output.SameRow output' columns i) ∧
          ∀ a, input.RowPlus input' columns i a → output.SameRow output' columns i := by
  refine ⟨layerNorm_rootsPositive hsqrt hshape hcolumns hepsilon, ?_⟩
  obtain ⟨output, hrun, houtput, hentries⟩ :=
    layerNorm_entries sqrt hshape hcolumns hgamma hbeta hepsilon
  have hn : (columns : α) ≠ 0 := Nat.cast_ne_zero.mpr (by omega)
  have hsquares : ∀ i < rows,
      ∑ j ∈ range columns, normalized sqrt epsilon (input.entry columns i) columns j ^ 2 =
        columns * variance (input.entry columns i) columns /
          (variance (input.entry columns i) columns + epsilon) := by
    intro i _
    simp only [pow_two, normalized]
    exact sum_sq_score hn (hsqrt.mul_self _
      (add_pos_of_nonneg_of_pos (variance_nonneg (input.entry columns i) columns) hepsilon))
  refine ⟨output, hrun, ⟨houtput, hentries, fun i _ => sum_score hn _, hsquares, ?_⟩, ?_⟩
  · intro i hi
    rw [hsquares i hi]
    exact sum_sq_score_lt hcolumns hepsilon
  · intro rows' input' output' hshape' hrun' i hi hi'
    have hplus : ∀ a, input.RowPlus input' columns i a → output.SameRow output' columns i :=
      fun a => layerNorm_rowPlus hcolumns hgamma hbeta hepsilon hshape hshape' hrun hrun' hi hi'
    refine ⟨fun hsame => hplus 0 ?_, hplus⟩
    intro j hj
    rw [hsame j hj, add_zero]

/-- The row 1, 3 with unit scale and no offset. -/
theorem layer_norm_rows_example :
    ∃ output, layerNorm Real.sqrt ⟨[1, 2], [1, 3], rfl⟩ ⟨[2], [1, 1], rfl⟩ ⟨[2], [0, 0], rfl⟩ 1 =
        .ok output ∧
      Normalizes Real.sqrt ⟨[1, 2], [1, 3], rfl⟩ ⟨[2], [1, 1], rfl⟩ ⟨[2], [0, 0], rfl⟩ 1 output
        1 2 := by
  have hsqrt : RootLaws Real.sqrt :=
    ⟨fun _ hx => Real.sqrt_pos.mpr hx, fun _ hx => Real.mul_self_sqrt hx.le⟩
  let input : Tensor ℝ := ⟨[1, 2], [1, 3], rfl⟩
  have hshape : input.shape = [1, 2] := rfl
  obtain ⟨_, output, hrun, hrows, _⟩ := layer_norm_rows hsqrt hshape (show 1 ≤ 2 by omega)
    (rfl : (⟨[2], [1, 1], rfl⟩ : Tensor ℝ).numel = 2)
    (rfl : (⟨[2], [0, 0], rfl⟩ : Tensor ℝ).numel = 2) one_pos
  exact ⟨output, hrun, hrows⟩

end Gpuforge

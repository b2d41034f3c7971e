import Gpuforge.CpuAttention

/-!
# Attention, cell by cell

Each loop of `attention` has a lemma that says what the cells of its result are.
Together: a query has a score for each key, scaled (`scaledScores`) and masked
(`maskedScores`), and its row of the output is the sum of the value rows with the
weights of the scores (`attention_cells`).
-/

namespace Gpuforge

open ForLoop ExpWeights

variable {α : Type} [Field α] {rows columns : Nat}

/-- `rowExponentials` fills a row and sums it. -/
theorem rowExponentials_cells (exp : α → α) {input output : Tensor α} {x c : Nat → Nat → α}
    (hinput : input.Cells rows columns x) (houtput : output.Cells rows columns c) {i : Nat}
    (hi : i < rows) (maximum : α) :
    ∃ output', rowExponentials exp input columns i maximum output
        = .ok (output', total exp (x i) maximum columns) ∧
      output'.Cells rows columns
        fun i' j => if i' = i then exp (x i j - maximum) else c i' j := by
  obtain ⟨⟨output', denominator⟩, hrun, hcells, hdenominator⟩ := upTo_total
    (fun column (s : Tensor α × α) => do
      let x ← input.get (flatIndex i columns column)
      let value := exp (x - maximum)
      let output ← s.1.put (flatIndex i columns column) value
      .ok (output, s.2 + value))
    0 columns
    (fun n s => s.1.Cells rows columns
        (fun i' j => if i' = i ∧ j < n then exp (x i j - maximum) else c i' j) ∧
      s.2 = total exp (x i) maximum n)
    (by
      intro n s _ hn hinv
      obtain ⟨hcells, hdenominator⟩ := hinv
      obtain ⟨output', hput, hcells'⟩ := hcells.put hi hn (exp (x i n - maximum))
      refine ⟨(output', s.2 + exp (x i n - maximum)), ?_, hcells'.congr ?_, ?_⟩
      · simp only [hinput.get hi hn, ok_bind, hput]
      · intro i' _ j _
        grind
      · rw [total_succ, hdenominator])
    (Nat.zero_le _)
    (s := (output, 0))
    ⟨houtput.congr (by grind), by simp [total]⟩
  simp only at hdenominator
  subst hdenominator
  exact ⟨output', hrun, hcells.congr (by grind)⟩

/-- `rowDivide` divides a row. -/
theorem rowDivide_cells {output : Tensor α} {c : Nat → Nat → α}
    (houtput : output.Cells rows columns c) {i : Nat} (hi : i < rows) (denominator : α) :
    ∃ output', rowDivide columns i denominator output = .ok output' ∧
      output'.Cells rows columns
        fun i' j => if i' = i then c i' j / denominator else c i' j := by
  obtain ⟨output', hrun, hcells⟩ := upTo_total
    (fun column (output : Tensor α) => do
      let value ← output.get (flatIndex i columns column)
      output.put (flatIndex i columns column) (value / denominator))
    0 columns
    (fun n output => output.Cells rows columns
      fun i' j => if i' = i ∧ j < n then c i' j / denominator else c i' j)
    (by
      intro n output _ hn hcells
      have hread := hcells.get hi hn
      rw [if_neg (by omega)] at hread
      obtain ⟨output', hput, hcells'⟩ := hcells.put hi hn (c i n / denominator)
      refine ⟨output', ?_, hcells'.congr ?_⟩
      · simp only [hread, ok_bind, hput]
      · intro i' _ j _
        grind)
    (Nat.zero_le _)
    (houtput.congr (by grind))
  exact ⟨output', hrun, hcells.congr (by grind)⟩

/-- The keys, transposed. -/
theorem transposeKey_cells {key : Tensor α} {keys depth : Nat} {k : Nat → Nat → α}
    (hkey : key.Cells keys depth k) (hkeys : 1 ≤ keys) :
    ∃ transposed, transposeKey key keys depth = .ok transposed ∧
      transposed.Cells depth keys fun i j => k j i := by
  obtain ⟨_, hfits⟩ := Tensor.length_of_matrix hkey.shape
  have hle := Nat.le_mul_of_pos_left depth hkeys
  obtain ⟨transposed, hnew, hzero⟩ := Tensor.new_cells (α := α) (by omega : depth < 2 ^ 64)
    (by rwa [Nat.mul_comm] : depth * keys < 2 ^ 64)
  obtain ⟨transposed', hrun, hcells⟩ := upTo_total
    (fun row =>
      loop (fun column (transposed : Tensor α) => do
          let x ← key.get (flatIndex row depth column)
          transposed.put (flatIndex column keys row) x)
        (upTo 0 depth))
    0 keys
    (fun row transposed => transposed.Cells depth keys fun i j => if j < row then k j i else 0)
    (by
      intro row transposed₁ _ hrow hcells₁
      obtain ⟨transposed₂, hrun₂, hcells₂⟩ := upTo_total
        (fun column (transposed : Tensor α) => do
          let x ← key.get (flatIndex row depth column)
          transposed.put (flatIndex column keys row) x)
        0 depth
        (fun column transposed => transposed.Cells depth keys
          fun i j => if j < row ∨ j = row ∧ i < column then k j i else 0)
        (by
          intro column transposed₃ _ hcolumn hcells₃
          obtain ⟨transposed₄, hput, hcells₄⟩ := hcells₃.put hcolumn hrow (k row column)
          refine ⟨transposed₄, ?_, hcells₄.congr (by grind)⟩
          simp only [hkey.get hrow hcolumn, ok_bind, hput])
        (Nat.zero_le _)
        (hcells₁.congr (by grind))
      exact ⟨transposed₂, hrun₂, hcells₂.congr (by grind)⟩)
    (Nat.zero_le _)
    (hzero.congr (by grind))
  refine ⟨transposed', ?_, hcells.congr (by grind)⟩
  simp only [transposeKey, hnew, ok_bind]
  exact hrun

/-- All scores, scaled. -/
theorem scaleScores_cells {scores : Tensor α} {x : Nat → Nat → α} (scale : α)
    (hscores : scores.Cells rows columns x) :
    ∃ scores', scaleScores scale scores = .ok scores' ∧
      scores'.Cells rows columns fun i j => x i j * scale := by
  have hnumel : scores.numel = rows * columns := (Tensor.length_of_matrix hscores.shape).1
  obtain ⟨scores', hrun, hcells⟩ := upTo_total
    (fun i (scores : Tensor α) => do
      let x ← scores.get i
      scores.put i (x * scale))
    0 (rows * columns)
    (fun n scores => scores.Cells rows columns
      fun i j => if i * columns + j < n then x i j * scale else x i j)
    (by
      intro n scores₁ _ hn hcells₁
      obtain ⟨i, j, hi, hj, rfl⟩ := RowMajor.exists_cell hn
      have hread := hcells₁.get hi hj
      rw [if_neg (Nat.lt_irrefl _), hcells₁.index hi hj] at hread
      obtain ⟨scores₂, hput, hcells₂⟩ := hcells₁.put hi hj (x i j * scale)
      rw [hcells₁.index hi hj] at hput
      refine ⟨scores₂, ?_, hcells₂.congr ?_⟩
      · simp only [hread, ok_bind, hput]
      · intro i' _ j' hj'
        have hsame : i' * columns + j' = i * columns + j ↔ i' = i ∧ j' = j :=
          RowMajor.cell_inj hj' hj
        by_cases heq : i' * columns + j' = i * columns + j
        · obtain ⟨rfl, rfl⟩ := hsame.mp heq
          simp
        · have hne : ¬ (i' = i ∧ j' = j) := fun hand => heq (hsame.mpr hand)
          rw [if_neg hne]
          exact if_congr (by omega) rfl rfl)
    (Nat.zero_le _)
    (hscores.congr (by grind))
  refine ⟨scores', by rw [scaleScores, hnumel, hrun], hcells.congr ?_⟩
  intro i hi j hj
  rw [if_pos (RowMajor.cell_lt hi hj)]

/-- The later keys of each query, masked. -/
theorem maskScores_cells {scores : Tensor α} {x : Nat → Nat → α} (hrows : rows < 2 ^ 64)
    (hscores : scores.Cells rows columns x) :
    ∃ scores', maskScores rows columns scores = .ok scores' ∧
      scores'.Cells rows columns fun i j => if i < j then maskedScore else x i j := by
  obtain ⟨scores', hrun, hcells⟩ := upTo_total
    (fun row =>
      loop (fun column (scores : Tensor α) =>
          scores.put (flatIndex row columns column) maskedScore)
        (upTo (addSize row 1) columns))
    0 rows
    (fun row scores => scores.Cells rows columns
      fun i j => if i < row ∧ i < j then maskedScore else x i j)
    (by
      intro row scores₁ _ hrow hcells₁
      rw [addSize_of_lt (by omega)]
      by_cases hnone : columns ≤ row + 1
      · rw [upTo_of_le hnone]
        exact ⟨scores₁, rfl, hcells₁.congr (by grind)⟩
      · obtain ⟨scores₂, hrun₂, hcells₂⟩ := upTo_total
          (fun column (scores : Tensor α) =>
            scores.put (flatIndex row columns column) maskedScore)
          (row + 1) columns
          (fun column scores => scores.Cells rows columns
            fun i j => if i < row ∧ i < j ∨ i = row ∧ i < j ∧ j < column
              then maskedScore else x i j)
          (by
            intro column scores₃ hlo hcolumn hcells₃
            obtain ⟨scores₄, hput, hcells₄⟩ := hcells₃.put hrow hcolumn maskedScore
            exact ⟨scores₄, hput, hcells₄.congr (by grind)⟩)
          (by omega)
          (hcells₁.congr (by grind))
        exact ⟨scores₂, hrun₂, hcells₂.congr (by grind)⟩)
    (Nat.zero_le _)
    (hscores.congr (by grind))
  exact ⟨scores', hrun, hcells.congr (by grind)⟩

/-- **The scores of a query**: masked for the later keys. -/
def maskedScores (causal : Bool) (x : Nat → Nat → α) (i j : Nat) : α :=
  if causal ∧ i < j then maskedScore else x i j

/-- The mask, for causal attention only. -/
theorem applyMask_cells {scores : Tensor α} {x : Nat → Nat → α} (causal : Bool)
    (hrows : rows < 2 ^ 64) (hscores : scores.Cells rows columns x) :
    ∃ scores', applyMask causal rows columns scores = .ok scores' ∧
      scores'.Cells rows columns (maskedScores causal x) := by
  cases causal with
  | false => exact ⟨scores, rfl, hscores.congr (by simp [maskedScores])⟩
  | true =>
      obtain ⟨scores', hmask, hmasked⟩ := maskScores_cells hrows hscores
      exact ⟨scores', hmask, hmasked.congr (by simp [maskedScores])⟩

/-- The products of queries and keys, scaled. -/
def scaledScores (q k : Nat → Nat → α) (depth : Nat) (scale : α) (i j : Nat) : α :=
  dot q (fun d j => k j d) i j depth * scale

section ordered

variable [LinearOrder α]

/-- The maximum of the first entries of a row. -/
def prefixMax (x : Nat → α) : Nat → WithBot α
  | 0 => ⊥
  | n + 1 => max (prefixMax x n) (x n)

omit [Field α] in
/-- `rowMaximum` finds the maximum of a row. -/
theorem rowMaximum_eq {input : Tensor α} {x : Nat → Nat → α}
    (hinput : input.Cells rows columns x) {i : Nat} (hi : i < rows) :
    rowMaximum input columns i = .ok (prefixMax (x i) columns) := by
  obtain ⟨maximum, hrun, hmaximum⟩ := upTo_total
    (fun column maximum => do
      let x ← input.get (flatIndex i columns column)
      .ok (max maximum (x : WithBot α)))
    0 columns (fun n maximum => maximum = prefixMax (x i) n)
    (by
      intro n maximum _ hn hinv
      refine ⟨_, ?_, rfl⟩
      rw [hinput.get hi hn, ok_bind, hinv, prefixMax])
    (Nat.zero_le _) (s := ⊥) rfl
  rw [rowMaximum, hrun, hmaximum]

/-- The weights of a row of scores, as `softmax` computes them. -/
def softmaxCell (exp : α → α) (x : Nat → α) (columns j : Nat) : α :=
  weight exp x ((prefixMax x columns).unbotD 0) columns j

/-- **`softmax`, cell by cell.** -/
theorem softmax_cells (exp : α → α) {input : Tensor α} {x : Nat → Nat → α}
    (hinput : input.Cells rows columns x) (hcolumns : 1 ≤ columns) :
    ∃ output, softmax exp input = .ok output ∧
      output.Cells rows columns fun i j => softmaxCell exp (x i) columns j := by
  obtain ⟨output, hnew, hzero⟩ := hinput.new_alike hcolumns
  obtain ⟨output', hrun, hcells⟩ := upTo_total (softmaxRow exp input columns) 0 rows
    (fun row output => output.Cells rows columns
      fun i j => if i < row then softmaxCell exp (x i) columns j else 0)
    (by
      intro row output _ hrow hcells
      obtain ⟨output₁, hexponentials, hcells₁⟩ := rowExponentials_cells exp hinput
        hcells hrow ((prefixMax (x row) columns).unbotD 0)
      obtain ⟨output₂, hdivide, hcells₂⟩ := rowDivide_cells hcells₁ hrow
        (total exp (x row) ((prefixMax (x row) columns).unbotD 0) columns)
      refine ⟨output₂, ?_, hcells₂.congr ?_⟩
      · rw [softmaxRow, rowMaximum_eq hinput hrow, ok_bind, hexponentials, ok_bind, hdivide]
      · intro i _ j _
        by_cases hsame : i = row
        · subst hsame
          simp only [if_true, if_pos (Nat.lt_succ_self i), softmaxCell, weight]
        · grind)
    (Nat.zero_le _)
    (hzero.congr (by grind))
  refine ⟨output', ?_, hcells.congr ?_⟩
  · rw [softmax, hinput.shape]
    simp only [hnew, ok_bind]
    rw [if_neg (by omega), hrun]
  · intro i hi j _
    rw [if_pos hi]

/-- The weights of the keys for a query. -/
def attentionWeights (math : FloatMath α) (config : AttentionConfig α) (q k : Nat → Nat → α)
    (depth keys i j : Nat) : α :=
  softmaxCell math.exp
    (maskedScores config.causal (scaledScores q k depth (scaleOf math config depth)) i) keys j

/-- **Attention is the product of the weights and the values.** -/
theorem attention_weighted (math : FloatMath α) (config : AttentionConfig α)
    {query key value : Tensor α} {queries keys depth values : Nat} {q k v : Nat → Nat → α}
    (hquery : query.Cells queries depth q) (hkey : key.Cells keys depth k)
    (hvalue : value.Cells keys values v) (hkeys : 1 ≤ keys)
    (hqueries : queries + 16 ≤ 2 ^ 64) (hkeysRoom : keys + 16 ≤ 2 ^ 64)
    (hdepthRoom : depth + 16 ≤ 2 ^ 64) (hscores : queries * keys < 2 ^ 64) :
    ∃ weights : Tensor α,
      weights.Cells queries keys (attentionWeights math config q k depth keys) ∧
        attention math query key value config = gemm weights value := by
  have htile : (max 1 ({} : GemmConfig).tile).toNat = 16 := by decide
  obtain ⟨transposed, htranspose, htransposed⟩ := transposeKey_cells hkey hkeys
  obtain ⟨scores, hgemm, hcells⟩ := gemm_cells {} hquery htransposed hscores
    (by omega) (by omega) (by omega) (by omega)
  obtain ⟨scaled, hscale, hscaled⟩ := scaleScores_cells (scaleOf math config depth) hcells
  obtain ⟨masked, hmask, hmasked⟩ := applyMask_cells config.causal (by omega) hscaled
  obtain ⟨weights, hsoftmax, hweights⟩ := softmax_cells math.exp hmasked hkeys
  refine ⟨weights, hweights, ?_⟩
  rw [attention, hquery.shape, hkey.shape, hvalue.shape]
  simp only [ne_eq, not_true_eq_false, or_self, if_false, htranspose, hgemm, hscale, ok_bind]
  rw [hmask, ok_bind, hsoftmax, ok_bind]

/-- **Attention, cell by cell.** -/
theorem attention_cells (math : FloatMath α) (config : AttentionConfig α)
    {query key value : Tensor α} {queries keys depth values : Nat} {q k v : Nat → Nat → α}
    (hquery : query.Cells queries depth q) (hkey : key.Cells keys depth k)
    (hvalue : value.Cells keys values v) (hkeys : 1 ≤ keys)
    (hqueries : queries + 16 ≤ 2 ^ 64) (hkeysRoom : keys + 16 ≤ 2 ^ 64)
    (hdepthRoom : depth + 16 ≤ 2 ^ 64) (hvaluesRoom : values + 16 ≤ 2 ^ 64)
    (hscores : queries * keys < 2 ^ 64) (houtput : queries * values < 2 ^ 64) :
    ∃ output, attention math query key value config = .ok output ∧
      output.Cells queries values
        fun i c => dot (attentionWeights math config q k depth keys) v i c keys := by
  have htile : (max 1 ({} : GemmConfig).tile).toNat = 16 := by decide
  obtain ⟨weights, hweights, hproduct⟩ := attention_weighted math config hquery hkey hvalue hkeys
    hqueries hkeysRoom hdepthRoom hscores
  rw [hproduct]
  exact gemm_cells {} hweights hvalue houtput (by omega) (by omega) (by omega) (by omega)

/-- **Sizes that attention accepts.**  The counters of the blocks have room, and the
scores and the output fit. -/
structure AttentionFits (queries keys depth values : Nat) : Prop where
  queriesRoom : queries + 16 ≤ 2 ^ 64
  keysRoom : keys + 16 ≤ 2 ^ 64
  depthRoom : depth + 16 ≤ 2 ^ 64
  valuesRoom : values + 16 ≤ 2 ^ 64
  scores : queries * keys < 2 ^ 64
  output : queries * values < 2 ^ 64

/-- Attention that returns has made tensors of these sizes. -/
theorem attention_fits (math : FloatMath α) (config : AttentionConfig α)
    {query key value output : Tensor α} {queries keys depth values : Nat} {q k v : Nat → Nat → α}
    (hquery : query.Cells queries depth q) (hkey : key.Cells keys depth k)
    (hvalue : value.Cells keys values v) (hkeys : 1 ≤ keys) (hqueries : 0 < queries)
    (hvalues : 0 < values) (h : attention math query key value config = .ok output) :
    AttentionFits queries keys depth values := by
  obtain ⟨transposed, htranspose, htransposed⟩ := transposeKey_cells hkey hkeys
  have hfirst : ∃ scores, gemm query transposed = .ok scores := by
    cases hgemm : gemm query transposed with
    | ok scores => exact ⟨scores, rfl⟩
    | error e =>
        rw [attention, hquery.shape, hkey.shape, hvalue.shape] at h
        simp only [ne_eq, not_true_eq_false, or_self, if_false, htranspose, hgemm, ok_bind] at h
        cases h
  obtain ⟨scores, hgemm⟩ := hfirst
  obtain ⟨hscores, hroom⟩ := gemm_sizes hquery.shape htransposed.shape hgemm
  obtain ⟨hqueriesRoom, hdepthRoom, hkeysRoom⟩ := hroom hqueries hkeys
  obtain ⟨weights, hweights, hproduct⟩ := attention_weighted math config hquery hkey hvalue hkeys
    hqueriesRoom hkeysRoom hdepthRoom hscores
  obtain ⟨houtput, hroom'⟩ := gemm_sizes hweights.shape hvalue.shape (hproduct ▸ h)
  obtain ⟨_, _, hvaluesRoom⟩ := hroom' hqueries hvalues
  exact ⟨hqueriesRoom, hkeysRoom, hdepthRoom, hvaluesRoom, hscores, houtput⟩

/-- Attention on accepted sizes. -/
theorem AttentionFits.returns {queries keys depth values : Nat}
    (h : AttentionFits queries keys depth values) (math : FloatMath α)
    (config : AttentionConfig α) {query key value : Tensor α} {q k v : Nat → Nat → α}
    (hquery : query.Cells queries depth q) (hkey : key.Cells keys depth k)
    (hvalue : value.Cells keys values v) (hkeys : 1 ≤ keys) :
    ∃ output, attention math query key value config = .ok output ∧
      output.Cells queries values
        fun i c => dot (attentionWeights math config q k depth keys) v i c keys :=
  attention_cells math config hquery hkey hvalue hkeys h.queriesRoom h.keysRoom h.depthRoom
    h.valuesRoom h.scores h.output

/-- **Attention that returns, cell by cell.** -/
theorem attention_returned (math : FloatMath α) (config : AttentionConfig α)
    {query key value output : Tensor α} {queries keys depth values : Nat} {q k v : Nat → Nat → α}
    (hquery : query.Cells queries depth q) (hkey : key.Cells keys depth k)
    (hvalue : value.Cells keys values v) (hkeys : 1 ≤ keys) (hqueries : 0 < queries)
    (hvalues : 0 < values) (h : attention math query key value config = .ok output) :
    output.Cells queries values
      fun i c => dot (attentionWeights math config q k depth keys) v i c keys := by
  have hfits := attention_fits math config hquery hkey hvalue hkeys hqueries hvalues h
  obtain ⟨output', hrun, hcells⟩ := hfits.returns math config hquery hkey hvalue hkeys
  rw [h] at hrun
  cases hrun
  exact hcells

end ordered

end Gpuforge

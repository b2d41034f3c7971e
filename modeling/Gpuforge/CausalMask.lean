import Gpuforge.AttentionAverages

/-!
# What the causal mask hides

Causal attention gives the later keys of a query the score `-1e9` before the softmax.
Their weights vanish if some earlier key has a score so far above that `exp` of the
distance is zero.  Scores far below `-1e9` are legal, though: then the masked keys have
the greatest score of the row, and the row of the output is made of values that it must
not see (`causal_row_iff`, `causal_row_sees`).
-/

namespace Gpuforge

open ExpWeights Finset

variable {α : Type} [Field α] [LinearOrder α] {queries keys depth values i : Nat}

/-- **What is known about `std::exp` here.**  It is one at zero, not negative, and zero
far below. -/
structure Underflows (exp : α → α) : Prop where
  nonneg : ∀ y, 0 ≤ exp y
  zero : exp 0 = 1
  low : ∀ y, y ≤ -((200 : ℕ) : α) → exp y = 0

/-- Two matrices agree on the rows up to one. -/
def AgreeUpTo (t t' : Tensor α) (i columns : Nat) : Prop :=
  ∀ k ≤ i, ∀ c < columns, t'.entry columns k c = t.entry columns k c

/-- **A row of causal attention that does not see later keys and values.**  Others of the
same shapes that agree on the rows up to this one give the same row of the output. -/
def RowBlind (math : FloatMath α) (scale : α) (query key value : Tensor α)
    (depth values i : Nat) : Prop :=
  ∀ key' value' output output' : Tensor α, key'.shape = key.shape →
    value'.shape = value.shape → AgreeUpTo key key' i depth → AgreeUpTo value value' i values →
    attention math query key value ⟨scale, true⟩ = .ok output →
    attention math query key' value' ⟨scale, true⟩ = .ok output' →
    ∀ c < values, output'.entry values i c = output.entry values i c

/-- The scores of a row depend on the keys up to the row. -/
theorem attentionScores_agree (math : FloatMath α) (scale : α) {q k k' : Nat → Nat → α}
    (hagree : ∀ j ≤ i, ∀ d < depth, k' j d = k j d) :
    attentionScores math ⟨scale, true⟩ q k' depth i
      = attentionScores math ⟨scale, true⟩ q k depth i := by
  have hdot : ∀ j ≤ i, ∀ n ≤ depth,
      dot q (fun d j => k' j d) i j n = dot q (fun d j => k j d) i j n := by
    intro j hj n
    induction n with
    | zero =>
        intro _
        rfl
    | succ n ih =>
        intro hn
        rw [dot, dot, ih (by omega), hagree j hj n (by omega)]
  funext j
  rw [attentionScores, attentionScores, maskedScores, maskedScores]
  by_cases hj : i < j
  · rw [if_pos ⟨rfl, hj⟩, if_pos ⟨rfl, hj⟩]
  · rw [if_neg fun h => hj h.2, if_neg fun h => hj h.2, scaledScores, scaledScores,
      hdot j (by omega) depth (Nat.le_refl _)]

/-- The score of a key that a query may not see. -/
theorem attentionScores_later (math : FloatMath α) (scale : α) (q k : Nat → Nat → α)
    (depth : Nat) {j : Nat} (hj : i < j) :
    attentionScores math ⟨scale, true⟩ q k depth i j = maskedScore :=
  if_pos ⟨rfl, hj⟩

/-- The score of a key that a query may see. -/
theorem attentionScores_seen (math : FloatMath α) (scale : α) (q k : Nat → Nat → α)
    (depth : Nat) {j : Nat} (hj : j ≤ i) :
    attentionScores math ⟨scale, true⟩ q k depth i j
      = scaledScores q k depth (scaleOf math ⟨scale, true⟩ depth) i j :=
  if_neg fun h => Nat.not_lt.mpr hj h.2

/-- The row of an output that attention returned. -/
theorem attention_row (math : FloatMath α) (config : AttentionConfig α)
    {query key value output : Tensor α} (hquery : query.shape = [queries, depth])
    (hkey : key.shape = [keys, depth]) (hvalue : value.shape = [keys, values])
    (hkeys : 1 ≤ keys) (hi : i < queries)
    (h : attention math query key value config = .ok output) {c : Nat} (hc : c < values) :
    output.entry values i c = ∑ k ∈ range keys,
      attentionWeights math config (query.entry depth) (key.entry depth) depth keys i k *
        value.entry values k c := by
  have hcells := attention_returned math config (Tensor.cells_entry hquery)
    (Tensor.cells_entry hkey) (Tensor.cells_entry hvalue) hkeys (by omega) (by omega) h
  rw [hcells.entry_eq hi hc, dot_eq_sum]

omit [LinearOrder α] in
/-- A tensor with one entry of a row more. -/
theorem exists_raised {t : Tensor α} (hshape : t.shape = [keys, values]) {j : Nat}
    (hj : j < keys) (hvalues : 0 < values) :
    ∃ t' : Tensor α, t'.shape = [keys, values] ∧ ∀ k < keys, ∀ c < values,
      t'.entry values k c = t.entry values k c + if k = j ∧ c = 0 then 1 else 0 := by
  obtain ⟨t', _, hcells⟩ := (Tensor.cells_entry hshape).put hj hvalues (t.entry values j 0 + 1)
  refine ⟨t', hcells.shape, ?_⟩
  intro k hk c hc
  rw [hcells.entry_eq hk hc]
  by_cases hsame : k = j ∧ c = 0
  · rw [if_pos hsame, if_pos hsame, hsame.1, hsame.2]
  · rw [if_neg hsame, if_neg hsame, add_zero]

/-- **A row is blind if and only if the later keys have no weight.** -/
theorem rowBlind_iff_weights (math : FloatMath α) (scale : α) {query key value output : Tensor α}
    (hquery : query.shape = [queries, depth]) (hkey : key.shape = [keys, depth])
    (hvalue : value.shape = [keys, values]) (hkeys : 1 ≤ keys) (hi : i < queries)
    (hvalues : 0 < values) {math₀ : FloatMath α} {config₀ : AttentionConfig α}
    (h : attention math₀ query key value config₀ = .ok output) :
    RowBlind math scale query key value depth values i ↔
      ∀ j < keys, i < j → attentionWeights math ⟨scale, true⟩ (query.entry depth)
        (key.entry depth) depth keys i j = 0 := by
  have hfits := attention_fits math₀ config₀ (Tensor.cells_entry hquery)
    (Tensor.cells_entry hkey) (Tensor.cells_entry hvalue) hkeys (by omega) hvalues h
  constructor
  · intro hblind j hj hij
    obtain ⟨value', hvalue', hraised⟩ := exists_raised hvalue hj hvalues
    obtain ⟨output₁, hrun, _⟩ := hfits.returns math ⟨scale, true⟩ (Tensor.cells_entry hquery)
      (Tensor.cells_entry hkey) (Tensor.cells_entry hvalue) hkeys
    obtain ⟨output₂, hrun', _⟩ := hfits.returns math ⟨scale, true⟩ (Tensor.cells_entry hquery)
      (Tensor.cells_entry hkey) (Tensor.cells_entry hvalue') hkeys
    have hagree : AgreeUpTo value value' i values := by
      intro k hk c hc
      rw [hraised k (by omega) c hc, if_neg (by omega), add_zero]
    have hsame := hblind key value' output₁ output₂ rfl (by rw [hvalue', hvalue])
      (fun _ _ _ _ => rfl) hagree hrun hrun' 0 hvalues
    -- The raised entry adds the weight of its key to the row.
    have hsum : ∑ k ∈ range keys, attentionWeights math ⟨scale, true⟩ (query.entry depth)
        (key.entry depth) depth keys i k * (if k = j then 1 else 0) = 0 := by
      rw [attention_row math ⟨scale, true⟩ hquery hkey hvalue' hkeys hi hrun' hvalues,
        attention_row math ⟨scale, true⟩ hquery hkey hvalue hkeys hi hrun hvalues] at hsame
      rw [← sub_eq_zero, ← sum_sub_distrib] at hsame
      refine Eq.trans ?_ hsame
      apply sum_congr rfl
      intro k hk
      rw [hraised k (mem_range.mp hk) 0 hvalues, ← mul_sub, add_sub_cancel_left]
      simp only [and_true]
    simpa [hj] using hsum
  · intro hzero key' value' output₁ output₂ hkey' hvalue' hagree hagree' hrun hrun' c hc
    rw [attention_row math ⟨scale, true⟩ hquery (hkey'.trans hkey) (hvalue'.trans hvalue) hkeys hi
      hrun' hc, attention_row math ⟨scale, true⟩ hquery hkey hvalue hkeys hi hrun hc]
    have hscores := attentionScores_agree math scale (q := query.entry depth) hagree
    have hweights : ∀ k, attentionWeights math ⟨scale, true⟩ (query.entry depth)
        (key'.entry depth) depth keys i k = attentionWeights math ⟨scale, true⟩
          (query.entry depth) (key.entry depth) depth keys i k := by
      intro k
      exact congrArg (fun x => softmaxCell math.exp x keys k) hscores
    apply sum_congr rfl
    intro k hk
    rw [hweights k]
    by_cases hik : i < k
    · rw [hzero k (mem_range.mp hk) hik, zero_mul, zero_mul]
    · rw [hagree' k (by omega) c hc]

variable [IsStrictOrderedRing α]

/-- The weight of a key that a query may not see is zero if and only if `exp` is, at the
distance of the mask from the greatest score. -/
theorem later_weight_iff (math : FloatMath α) (hexp : Underflows math.exp) (scale : α)
    (q k : Nat → Nat → α) (depth : Nat) (hkeys : 1 ≤ keys) (i : Nat) :
    ∃ m, Greatest (attentionScores math ⟨scale, true⟩ q k depth i) keys m ∧ ∀ j, i < j →
      (attentionWeights math ⟨scale, true⟩ q k depth keys i j = 0 ↔
        math.exp (maskedScore - m) = 0) := by
  obtain ⟨m, hgreatest, hweights⟩ := attentionWeights_eq math ⟨scale, true⟩ q k depth hkeys i
  refine ⟨m, hgreatest, ?_⟩
  intro j hj
  obtain ⟨first, hfirst, hattained⟩ := hgreatest.attained
  have htotal : 0 < total math.exp (attentionScores math ⟨scale, true⟩ q k depth i) m keys := by
    apply total_pos hexp.nonneg hfirst
    rw [hattained, sub_self, hexp.zero]
    exact one_pos
  rw [hweights, weight, attentionScores_later math scale q k depth hj, div_eq_zero_iff]
  simp [htotal.ne']

/-- An `exp` that is one as long as it may be. -/
def latestUnderflow (y : α) : α := if y ≤ -((200 : ℕ) : α) then 0 else 1

theorem latestUnderflow_underflows : Underflows (latestUnderflow : α → α) := by
  have hneg : -((200 : ℕ) : α) < 0 := neg_neg_of_pos (Nat.cast_pos.mpr (by decide))
  refine ⟨?_, ?_, ?_⟩
  · intro y
    unfold latestUnderflow
    split
    · exact le_refl 0
    · exact zero_le_one
  · exact if_neg (not_le.mpr hneg)
  · intro y hy
    exact if_pos hy

/-- **When a row of causal attention is blind.**  For every `exp` that is one at zero, not
negative, and zero from `-200` down: the row does not see later keys and values if and
only if there are none, or the values have no columns, or some key that the query may see
has a score of at least `-1e9 + 200`. -/
theorem causal_row_iff (math : FloatMath α) (scale : α) {query key value output : Tensor α}
    (hquery : query.shape = [queries, depth]) (hkey : key.shape = [keys, depth])
    (hvalue : value.shape = [keys, values]) (hkeys : 1 ≤ keys) (hi : i < queries)
    (h : attention math query key value ⟨scale, true⟩ = .ok output) :
    (∀ exp, Underflows exp → RowBlind ⟨exp, math.sqrt⟩ scale query key value depth values i) ↔
      keys ≤ i + 1 ∨ values = 0 ∨ ∃ j ≤ i, maskedScore + ((200 : ℕ) : α) ≤
        scaledScores (query.entry depth) (key.entry depth) depth
          (scaleOf math ⟨scale, true⟩ depth) i j := by
  rcases Nat.eq_zero_or_pos values with hvalues | hvalues
  · constructor
    · intro _
      exact Or.inr (Or.inl hvalues)
    · intro _ exp _ key' value' output₁ output₂ _ _ _ _ _ _ c hc
      omega
  · constructor
    · intro hblind
      by_contra hnot
      simp only [not_or, not_exists, not_and, not_le] at hnot
      obtain ⟨hlater, _, hlow⟩ := hnot
      have hzero := (rowBlind_iff_weights ⟨latestUnderflow, math.sqrt⟩ scale hquery hkey hvalue
        hkeys hi hvalues h).mp (hblind latestUnderflow latestUnderflow_underflows) (i + 1)
        (by omega) (Nat.lt_succ_self i)
      obtain ⟨m, hgreatest, hiff⟩ := later_weight_iff ⟨latestUnderflow, math.sqrt⟩
        latestUnderflow_underflows scale (query.entry depth) (key.entry depth) depth hkeys i
      have hexp := (hiff (i + 1) (Nat.lt_succ_self i)).mp hzero
      -- The greatest score is less than 200 above the mask, so the exponential is one.
      have hclose : m < maskedScore + ((200 : ℕ) : α) := by
        obtain ⟨j, _, hattained⟩ := hgreatest.attained
        rw [← hattained]
        by_cases hj : i < j
        · rw [attentionScores_later _ scale _ _ depth hj]
          exact lt_add_of_pos_right _ (Nat.cast_pos.mpr (by decide))
        · rw [attentionScores_seen _ scale _ _ depth (Nat.le_of_not_lt hj)]
          exact hlow j (by omega)
      have hone : latestUnderflow (maskedScore - m) = 1 := if_neg (by linarith)
      exact one_ne_zero (hone.symm.trans hexp)
    · intro hcond exp hexp
      apply (rowBlind_iff_weights ⟨exp, math.sqrt⟩ scale hquery hkey hvalue hkeys hi hvalues
        h).mpr
      intro j hj hij
      obtain ⟨m, hgreatest, hiff⟩ := later_weight_iff ⟨exp, math.sqrt⟩ hexp scale
        (query.entry depth) (key.entry depth) depth hkeys i
      apply (hiff j hij).mpr
      obtain hlast | hnone | ⟨seen, hseen, hhigh⟩ := hcond
      · omega
      · omega
      · have hbound := hgreatest.bound seen (by omega)
        rw [attentionScores_seen _ scale _ _ depth hseen] at hbound
        apply hexp.low
        have hscore : maskedScore + ((200 : ℕ) : α) ≤ m := le_trans hhigh hbound
        linarith

/-- A query that may see one key of ordinary size. -/
theorem causal_row_iff_example : RowBlind ⟨latestUnderflow, Real.sqrt⟩ 0
    ⟨[1, 1], [2], rfl⟩ ⟨[2, 1], [5, 7], rfl⟩ ⟨[2, 1], [3, 4], rfl⟩ 1 1 0 := by
  have hfits : AttentionFits 1 2 1 1 :=
    ⟨by decide, by decide, by decide, by decide, by decide, by decide⟩
  obtain ⟨output, hrun, _⟩ := hfits.returns ⟨Real.exp, Real.sqrt⟩ ⟨0, true⟩
    (Tensor.cells_entry (t := ⟨[1, 1], [2], rfl⟩) rfl)
    (Tensor.cells_entry (t := ⟨[2, 1], [5, 7], rfl⟩) rfl)
    (Tensor.cells_entry (t := ⟨[2, 1], [3, 4], rfl⟩) rfl) (by decide)
  refine (causal_row_iff ⟨Real.exp, Real.sqrt⟩ 0 rfl rfl rfl (by decide) (by decide) hrun).mpr
    (Or.inr (Or.inr ⟨0, Nat.le_refl 0, ?_⟩)) latestUnderflow latestUnderflow_underflows
  norm_num [scaledScores, dot, Tensor.entry, scaleOf, maskedScore]

/-- **A row that sees a later value.**  The only score that the query may see is
`-2e9`, so all the weight goes to the masked key: another value there is another output. -/
theorem causal_row_sees : ∃ (exp : ℚ → ℚ) (output output' : Tensor ℚ), Underflows exp ∧
    attention ⟨exp, id⟩ ⟨[1, 1], [1], rfl⟩ ⟨[2, 1], [-2000000000, 0], rfl⟩
      ⟨[2, 1], [0, 0], rfl⟩ ⟨1, true⟩ = .ok output ∧
    attention ⟨exp, id⟩ ⟨[1, 1], [1], rfl⟩ ⟨[2, 1], [-2000000000, 0], rfl⟩
      ⟨[2, 1], [0, 1], rfl⟩ ⟨1, true⟩ = .ok output' ∧
    AgreeUpTo (⟨[2, 1], [0, 0], rfl⟩ : Tensor ℚ) ⟨[2, 1], [0, 1], rfl⟩ 0 1 ∧
    output.get 0 = .ok 0 ∧ output'.get 0 = .ok 1 := by
  refine ⟨latestUnderflow, ⟨[1, 1], [0], rfl⟩, ⟨[1, 1], [1], rfl⟩, latestUnderflow_underflows,
    by decide +kernel, by decide +kernel, ?_, rfl, rfl⟩
  intro k hk c hc
  obtain rfl : k = 0 := by omega
  obtain rfl : c = 0 := by omega
  rfl

end Gpuforge

import Mathlib.Analysis.Complex.Exponential
import Mathlib.Analysis.Real.Sqrt
import Gpuforge.AttentionCells

/-!
# Attention is an average of the value rows

The weights of a query are positive and add up to one, as long as `exp` is positive.
They come from the queries, the keys and the configuration alone; each entry of the
output is the sum of a column of values with them.  So it lies between the least and
the greatest entry of the column, causal or not.
-/

namespace Gpuforge

open ExpWeights Finset

variable {α : Type} [Field α] {queries keys depth : Nat}

/-- The cells of a product as sums. -/
theorem dot_eq_sum (a b : Nat → Nat → α) (i j : Nat) : ∀ n,
    dot a b i j n = ∑ k ∈ range n, a i k * b k j := by
  intro n
  induction n with
  | zero => rfl
  | succ n ih => rw [dot, ih, sum_range_succ]

variable [LinearOrder α]

/-- **A number that is the greatest of a row.** -/
structure Greatest (x : Nat → α) (n : Nat) (m : α) : Prop where
  bound : ∀ j < n, x j ≤ m
  attained : ∃ j < n, x j = m

omit [Field α] in
/-- The maximum of a row that is not empty. -/
theorem prefixMax_greatest (x : Nat → α) : ∀ n, 1 ≤ n →
    ∃ m : α, prefixMax x n = m ∧ Greatest x n m := by
  intro n hn
  induction n, hn using Nat.le_induction with
  | base =>
      refine ⟨x 0, ?_, ?_, 0, Nat.one_pos, rfl⟩
      · rw [prefixMax, prefixMax, bot_sup_eq]
      · intro j hj
        rw [Nat.lt_one_iff.mp hj]
  | succ n hn ih =>
      obtain ⟨m, hm, hbound, j, hj, hattained⟩ := ih
      refine ⟨max m (x n), ?_, ?_, ?_⟩
      · rw [prefixMax, hm, WithBot.coe_max]
      · intro k hk
        rcases Nat.lt_succ_iff_lt_or_eq.mp hk with hlt | rfl
        · exact le_max_of_le_left (hbound k hlt)
        · exact le_max_right m (x k)
      · rcases le_total m (x n) with hle | hle
        · exact ⟨n, Nat.lt_succ_self n, (max_eq_right hle).symm⟩
        · exact ⟨j, Nat.lt_succ_of_lt hj, by rw [hattained, max_eq_left hle]⟩

/-- The scores of the keys for a query, masked. -/
def attentionScores (math : FloatMath α) (config : AttentionConfig α) (q k : Nat → Nat → α)
    (depth i : Nat) : Nat → α :=
  maskedScores config.causal (scaledScores q k depth (scaleOf math config depth)) i

/-- The weights of a row, with its maximum. -/
theorem attentionWeights_eq (math : FloatMath α) (config : AttentionConfig α)
    (q k : Nat → Nat → α) (depth : Nat) (hkeys : 1 ≤ keys) (i : Nat) :
    ∃ m, Greatest (attentionScores math config q k depth i) keys m ∧ ∀ j,
      attentionWeights math config q k depth keys i j =
        weight math.exp (attentionScores math config q k depth i) m keys j := by
  obtain ⟨m, hm, hgreatest⟩ := prefixMax_greatest (attentionScores math config q k depth i) keys
    hkeys
  refine ⟨m, hgreatest, ?_⟩
  intro j
  rw [attentionWeights, softmaxCell]
  simp only [attentionScores] at hm ⊢
  rw [hm, WithBot.unbotD_coe]

variable [IsStrictOrderedRing α]

/-- **The weights of a query.**  They are positive, add up to one, and are proportional
to the exponentials of the scores less the greatest score. -/
structure Weighting (exp : α → α) (scores : Nat → α) (keys : Nat) (w : Nat → α) : Prop where
  pos : ∀ k < keys, 0 < w k
  sum : ∑ k ∈ range keys, w k = 1
  proportional : ∃ m z, Greatest scores keys m ∧ 0 < z ∧
    ∀ k < keys, w k * z = exp (scores k - m)

/-- **An entry of the output.**  It is the average of a column of values, within the
bounds of the column. -/
structure Averages (keys : Nat) (w v : Nat → α) (x : α) : Prop where
  sum : x = ∑ k ∈ range keys, w k * v k
  above : ∀ lo, (∀ k < keys, lo ≤ v k) → lo ≤ x
  below : ∀ hi, (∀ k < keys, v k ≤ hi) → x ≤ hi
  constant : ∀ y, (∀ k < keys, v k = y) → x = y

/-- The weights are weights. -/
theorem attentionWeights_weighting (math : FloatMath α) (hexp : ∀ y, 0 < math.exp y)
    (config : AttentionConfig α) (q k : Nat → Nat → α) (depth : Nat) (hkeys : 1 ≤ keys)
    (i : Nat) : Weighting math.exp (attentionScores math config q k depth i) keys
      (attentionWeights math config q k depth keys i) := by
  obtain ⟨m, hgreatest, hweights⟩ := attentionWeights_eq math config q k depth hkeys i
  have htotal : 0 < total math.exp (attentionScores math config q k depth i) m keys :=
    total_pos (fun y => (hexp y).le) hkeys (hexp _)
  refine ⟨?_, ?_, m, _, hgreatest, htotal, ?_⟩
  · intro j _
    rw [hweights]
    exact div_pos (hexp _) htotal
  · simp only [hweights]
    exact sum_weight htotal.ne'
  · intro j _
    rw [hweights]
    exact weight_mul_total htotal.ne' j

/-- A sum with weights is an average. -/
theorem Weighting.averages {exp : α → α} {scores w v : Nat → α}
    (h : Weighting exp scores keys w) : Averages keys w v (∑ k ∈ range keys, w k * v k) := by
  have hw : ∀ k < keys, 0 ≤ w k := fun k hk => (h.pos k hk).le
  refine ⟨rfl, fun lo => le_average hw h.sum, fun hi => average_le hw h.sum, ?_⟩
  intro y hy
  apply le_antisymm
  · exact average_le hw h.sum fun k hk => (hy k hk).le
  · exact le_average hw h.sum fun k hk => (hy k hk).ge

/-- **Attention takes averages.**  With any positive `exp`, any scale, and causal or not,
the queries and keys have weights such that every output that attention returns, for any
values, has the averages of the value columns as its entries. -/
theorem attention_averages (math : FloatMath α) (hexp : ∀ y, 0 < math.exp y)
    (config : AttentionConfig α) {query key : Tensor α} (hquery : query.shape = [queries, depth])
    (hkey : key.shape = [keys, depth]) (hkeys : 1 ≤ keys) :
    ∃ w : Nat → Nat → α,
      (∀ i < queries, Weighting math.exp
        (attentionScores math config (query.entry depth) (key.entry depth) depth i) keys (w i)) ∧
      ∀ (values : Nat) (value output : Tensor α), value.shape = [keys, values] →
        attention math query key value config = .ok output →
        ∀ i < queries, ∀ c < values, ∃ x, output.get (flatIndex i values c) = .ok x ∧
          Averages keys (w i) (fun k => value.entry values k c) x := by
  have hweighting := attentionWeights_weighting math hexp config (query.entry depth)
    (key.entry depth) depth hkeys
  refine ⟨attentionWeights math config (query.entry depth) (key.entry depth) depth keys,
    fun i _ => hweighting i, ?_⟩
  intro values value output hvalue hrun i hi c hc
  have hcells := attention_returned math config (Tensor.cells_entry hquery)
    (Tensor.cells_entry hkey) (Tensor.cells_entry hvalue) hkeys (by omega) (by omega) hrun
  refine ⟨_, hcells.get hi hc, ?_⟩
  rw [dot_eq_sum]
  exact (hweighting i).averages

/-- One query that sees two keys, with the exponential of the reals. -/
theorem attention_averages_example :
    ∃ (output : Tensor ℝ) (x : ℝ),
      attention ⟨Real.exp, Real.sqrt⟩ ⟨[1, 1], [2], rfl⟩ ⟨[2, 1], [1, 7], rfl⟩
        ⟨[2, 1], [3, 5], rfl⟩ ⟨0, false⟩ = .ok output ∧
      output.get 0 = .ok x ∧ 3 ≤ x ∧ x ≤ 5 := by
  obtain ⟨w, _, haverages⟩ := @attention_averages ℝ _ 1 2 1 _ _ ⟨Real.exp, Real.sqrt⟩
    Real.exp_pos ⟨0, false⟩ ⟨[1, 1], [2], rfl⟩ ⟨[2, 1], [1, 7], rfl⟩ rfl rfl (by decide)
  obtain ⟨output, hrun, _⟩ := attention_cells ⟨Real.exp, Real.sqrt⟩ ⟨0, false⟩
    (Tensor.cells_entry (t := ⟨[1, 1], [2], rfl⟩) rfl)
    (Tensor.cells_entry (t := ⟨[2, 1], [1, 7], rfl⟩) rfl)
    (Tensor.cells_entry (t := ⟨[2, 1], [3, 5], rfl⟩) rfl) (by decide) (by decide) (by decide)
    (by decide) (by decide) (by decide) (by decide)
  obtain ⟨x, hx, haverage⟩ := haverages 1 ⟨[2, 1], [3, 5], rfl⟩ output rfl hrun 0 (by decide) 0
    (by decide)
  have hindex : flatIndex 0 1 0 = 0 := flatIndex_of_lt (by decide)
  rw [hindex] at hx
  refine ⟨output, x, hrun, hx, haverage.above 3 ?_, haverage.below 5 ?_⟩
  · intro j hj
    obtain rfl | rfl : j = 0 ∨ j = 1 := by omega
    · simp [Tensor.entry]
    · norm_num [Tensor.entry]
  · intro j hj
    obtain rfl | rfl : j = 0 ∨ j = 1 := by omega
    · norm_num [Tensor.entry]
    · simp [Tensor.entry]

end Gpuforge

import Mathlib.Algebra.BigOperators.Field
import Mathlib.Algebra.BigOperators.Ring.Finset
import Mathlib.Algebra.Order.BigOperators.Group.Finset
import Mathlib.Algebra.Order.Field.Basic

/-!
# Weights from exponentials

Numbers `x 0, ..., x (n - 1)` have weights proportional to their exponentials.
Programs subtract a number from all of them first, so that the exponentials stay
small.  Which number that is makes no difference (`weight_shift`): the only facts
about the exponential are that it is positive and takes sums to products.

Weights add up to one, so a sum with them is an average and stays between the
bounds of what it sums (`le_average`, `average_le`).
-/

namespace ExpWeights

open Finset

universe u

variable {α : Type u} [Field α]

/-- What is known about an exponential. -/
structure Laws [LinearOrder α] (exp : α → α) : Prop where
  pos : ∀ x, 0 < exp x
  add : ∀ x y, exp (x + y) = exp x * exp y

/-- The sum of the exponentials. -/
def total (exp : α → α) (x : Nat → α) (shift : α) (n : Nat) : α :=
  ∑ k ∈ range n, exp (x k - shift)

def weight (exp : α → α) (x : Nat → α) (shift : α) (n j : Nat) : α :=
  exp (x j - shift) / total exp x shift n

variable {exp : α → α} {x : Nat → α}

/-- The sum grows by one exponential. -/
theorem total_succ (exp : α → α) (x : Nat → α) (shift : α) (n : Nat) :
    total exp x shift (n + 1) = total exp x shift n + exp (x n - shift) :=
  sum_range_succ _ n

/-- Another shift multiplies an exponential by a constant. -/
theorem Laws.exp_shift [LinearOrder α] (h : Laws exp) (y shift shift' : α) :
    exp (y - shift) = exp (y - shift') * exp (shift' - shift) := by
  rw [← h.add, sub_add_sub_cancel]

/-- **Weights do not depend on the shift.** -/
theorem Laws.weight_shift [LinearOrder α] (h : Laws exp) (x : Nat → α) (shift shift' : α)
    (n j : Nat) : weight exp x shift n j = weight exp x shift' n j := by
  have hne : exp (shift' - shift) ≠ 0 := ne_of_gt (h.pos _)
  have htotal : total exp x shift n = total exp x shift' n * exp (shift' - shift) := by
    rw [total, total, sum_mul]
    apply sum_congr rfl
    intro k _
    exact h.exp_shift (x k) shift shift'
  rw [weight, weight, htotal, h.exp_shift (x j) shift shift', mul_div_mul_right _ _ hne]

/-- **A constant added to all numbers does not show in the weights.** -/
theorem Laws.weight_add [LinearOrder α] (h : Laws exp) (x : Nat → α) (a shift : α) (n j : Nat) :
    weight exp (fun k => x k + a) shift n j = weight exp x shift n j := by
  have hshift : weight exp (fun k => x k + a) shift n j = weight exp x (shift - a) n j := by
    simp only [weight, total, sub_sub_eq_add_sub]
  rw [hshift, h.weight_shift x (shift - a) shift]

/-- Weights depend on the numbers that are weighted only. -/
theorem weight_congr {y : Nat → α} {n j : Nat} (hxy : ∀ k < n, y k = x k) (shift : α) (hj : j < n) :
    weight exp y shift n j = weight exp x shift n j := by
  have htotal : total exp y shift n = total exp x shift n := by
    apply sum_congr rfl
    intro k hk
    rw [hxy k (mem_range.mp hk)]
  rw [weight, weight, htotal, hxy j hj]

/-! ## Averages -/

section ordered

variable [LinearOrder α] [IsStrictOrderedRing α] {shift : α} {n : Nat} {w v : Nat → α}

/-- A sum with a positive exponential in it. -/
theorem total_pos (hnonneg : ∀ y, 0 ≤ exp y) {j : Nat} (hj : j < n)
    (hpos : 0 < exp (x j - shift)) : 0 < total exp x shift n :=
  sum_pos' (fun k _ => hnonneg (x k - shift)) ⟨j, mem_range.mpr hj, hpos⟩

omit [LinearOrder α] [IsStrictOrderedRing α] in
/-- Weights times the sum are the exponentials. -/
theorem weight_mul_total (htotal : total exp x shift n ≠ 0) (j : Nat) :
    weight exp x shift n j * total exp x shift n = exp (x j - shift) :=
  div_mul_cancel₀ _ htotal

omit [LinearOrder α] [IsStrictOrderedRing α] in
/-- **Weights add up to one.** -/
theorem sum_weight (htotal : total exp x shift n ≠ 0) :
    ∑ j ∈ range n, weight exp x shift n j = 1 := by
  simp only [weight, ← sum_div]
  exact div_self htotal

/-- A weight is positive and at most one. -/
theorem Laws.weight_bounds (h : Laws exp) {j : Nat} (hj : j < n) :
    0 < weight exp x shift n j ∧ weight exp x shift n j ≤ 1 := by
  have htotal : 0 < total exp x shift n := total_pos (fun y => (h.pos y).le) hj (h.pos _)
  refine ⟨div_pos (h.pos _) htotal, (div_le_one htotal).mpr ?_⟩
  exact single_le_sum (f := fun k => exp (x k - shift)) (fun k _ => (h.pos _).le)
    (mem_range.mpr hj)

/-- A larger number has a larger weight. -/
theorem Laws.weight_lt (h : Laws exp) (hmono : StrictMono exp) {j k : Nat} (hj : j < n)
    (hlt : x j < x k) : weight exp x shift n j < weight exp x shift n k := by
  have htotal : 0 < total exp x shift n := total_pos (fun y => (h.pos y).le) hj (h.pos _)
  exact div_lt_div_of_pos_right (hmono (sub_lt_sub_right hlt shift)) htotal

/-- **An average is not below a lower bound.** -/
theorem le_average (hw : ∀ k < n, 0 ≤ w k) (hsum : ∑ k ∈ range n, w k = 1) {lo : α}
    (hlo : ∀ k < n, lo ≤ v k) : lo ≤ ∑ k ∈ range n, w k * v k := by
  calc lo = ∑ k ∈ range n, w k * lo := by rw [← sum_mul, hsum, one_mul]
    _ ≤ ∑ k ∈ range n, w k * v k := by
        apply sum_le_sum
        intro k hk
        have hlt := mem_range.mp hk
        exact mul_le_mul_of_nonneg_left (hlo k hlt) (hw k hlt)

/-- **An average is not above an upper bound.** -/
theorem average_le (hw : ∀ k < n, 0 ≤ w k) (hsum : ∑ k ∈ range n, w k = 1) {hi : α}
    (hhi : ∀ k < n, v k ≤ hi) : ∑ k ∈ range n, w k * v k ≤ hi := by
  calc ∑ k ∈ range n, w k * v k ≤ ∑ k ∈ range n, w k * hi := by
        apply sum_le_sum
        intro k hk
        have hlt := mem_range.mp hk
        exact mul_le_mul_of_nonneg_left (hhi k hlt) (hw k hlt)
    _ = hi := by rw [← sum_mul, hsum, one_mul]

end ordered

end ExpWeights

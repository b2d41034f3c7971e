import Mathlib.Algebra.BigOperators.Field
import Mathlib.Algebra.BigOperators.Ring.Finset
import Mathlib.Algebra.Order.BigOperators.Group.Finset
import Mathlib.Algebra.Order.Field.Basic

/-!
# Mean, variance and standard scores

Numbers `x 0, ..., x (n - 1)` have a mean and a population variance.  Less the mean and
divided by a root of the variance plus some `ε`, they add up to zero, and their squares to
`n` times the quotient of the variance and the variance plus `ε`, which is less than `n`
for a positive `ε`.  A constant added to all numbers moves the mean and nothing else.
-/

namespace Moments

open Finset

universe u

variable {α : Type u} [Field α]

def mean (x : Nat → α) (n : Nat) : α := (∑ k ∈ range n, x k) / n

/-- The population variance. -/
def variance (x : Nat → α) (n : Nat) : α :=
  (∑ k ∈ range n, (x k - mean x n) * (x k - mean x n)) / n

/-- A number less the mean, in units of `s`. -/
def score (x : Nat → α) (n : Nat) (s : α) (j : Nat) : α := (x j - mean x n) / s

variable {x y : Nat → α} {n : Nat} {s ε : α}

/-- Deviations from the mean add up to zero. -/
theorem sum_sub_mean (hn : (n : α) ≠ 0) : ∑ k ∈ range n, (x k - mean x n) = 0 := by
  rw [sum_sub_distrib, sum_const, card_range, nsmul_eq_mul, mean, mul_div_cancel₀ _ hn, sub_self]

/-- The squares of the deviations. -/
theorem sum_sq_sub_mean (hn : (n : α) ≠ 0) :
    ∑ k ∈ range n, (x k - mean x n) * (x k - mean x n) = n * variance x n := by
  rw [variance, mul_div_cancel₀ _ hn]

/-- **Scores add up to zero.** -/
theorem sum_score (hn : (n : α) ≠ 0) (s : α) : ∑ j ∈ range n, score x n s j = 0 := by
  simp only [score]
  rw [← sum_div, sum_sub_mean hn, zero_div]

/-- **The squares of the scores**, in units of a root. -/
theorem sum_sq_score (hn : (n : α) ≠ 0) (hs : s * s = variance x n + ε) :
    ∑ j ∈ range n, score x n s j * score x n s j = n * variance x n / (variance x n + ε) := by
  simp only [score, div_mul_div_comm]
  rw [← sum_div, sum_sq_sub_mean hn, hs]

/-! ## Constants and other numbers -/

/-- A constant moves the mean. -/
theorem mean_add (hn : (n : α) ≠ 0) (x : Nat → α) (a : α) :
    mean (fun k => x k + a) n = mean x n + a := by
  rw [mean, sum_add_distrib, sum_const, card_range, nsmul_eq_mul, add_div,
    mul_div_cancel_left₀ a hn, mean]

/-- A constant does not change the variance. -/
theorem variance_add (hn : (n : α) ≠ 0) (x : Nat → α) (a : α) :
    variance (fun k => x k + a) n = variance x n := by
  simp only [variance, mean_add hn, add_sub_add_right_eq_sub]

/-- A constant does not change the scores. -/
theorem score_add (hn : (n : α) ≠ 0) (x : Nat → α) (a s : α) (j : Nat) :
    score (fun k => x k + a) n s j = score x n s j := by
  simp only [score, mean_add hn, add_sub_add_right_eq_sub]

/-- The mean depends on the numbers only. -/
theorem mean_congr (hxy : ∀ k < n, y k = x k) : mean y n = mean x n := by
  rw [mean, mean, sum_congr rfl fun k hk => hxy k (mem_range.mp hk)]

/-- So does the variance. -/
theorem variance_congr (hxy : ∀ k < n, y k = x k) : variance y n = variance x n := by
  rw [variance, variance, mean_congr hxy]
  congr 1
  exact sum_congr rfl fun k hk => by rw [hxy k (mem_range.mp hk)]

/-- And so do the scores. -/
theorem score_congr (hxy : ∀ k < n, y k = x k) (s : α) {j : Nat} (hj : j < n) :
    score y n s j = score x n s j := by
  rw [score, score, mean_congr hxy, hxy j hj]

/-! ## Bounds -/

section ordered

variable [LinearOrder α] [IsStrictOrderedRing α]

/-- A variance is not negative. -/
theorem variance_nonneg (x : Nat → α) (n : Nat) : 0 ≤ variance x n :=
  div_nonneg (sum_nonneg fun _ _ => mul_self_nonneg _) (Nat.cast_nonneg n)

/-- **The squares of the scores add up to less than the count.** -/
theorem sum_sq_score_lt (hn : 1 ≤ n) (hε : 0 < ε) :
    n * variance x n / (variance x n + ε) < n := by
  have hcount : (0 : α) < n := Nat.cast_pos.mpr hn
  have hsum : 0 < variance x n + ε := add_pos_of_nonneg_of_pos (variance_nonneg x n) hε
  rw [div_lt_iff₀ hsum]
  exact mul_lt_mul_of_pos_left (lt_add_of_pos_right _ hε) hcount

end ordered

end Moments

import Mathlib.Analysis.SpecialFunctions.Gaussian.GaussianIntegral

/-!
# The error function

`erf x` is the share of the Gaussian integral up to `x`, and `tail x` the share after
it.  The tail is positive, at least as large as the bell one further
(`tail_ge`), and falls faster than `1 / x` (`mul_tail_le`).
-/

namespace ErrorFunction

open MeasureTheory Set Real

/-- The Gaussian bell. -/
noncomputable def bell (t : ℝ) : ℝ := exp (-t ^ 2)

/-- The Gaussian integral from 0 on. -/
noncomputable def total : ℝ := ∫ t in Ioi 0, bell t

noncomputable def erf (x : ℝ) : ℝ := (∫ t in 0..x, bell t) / total

noncomputable def tail (x : ℝ) : ℝ := (∫ t in Ioi x, bell t) / total

theorem bell_pos (t : ℝ) : 0 < bell t := exp_pos _

theorem bell_eq (t : ℝ) : bell t = exp (-1 * t ^ 2) := by
  rw [bell, neg_one_mul]

theorem integrable_bell : Integrable bell := by
  simpa only [funext bell_eq] using integrable_exp_neg_mul_sq one_pos

theorem continuous_bell : Continuous bell := by
  unfold bell
  fun_prop

theorem total_eq : total = √π / 2 := by
  rw [total, funext bell_eq, integral_gaussian_Ioi, div_one]

theorem total_pos : 0 < total := by
  rw [total_eq]
  exact div_pos (sqrt_pos.mpr pi_pos) two_pos

/-- The usual form. -/
theorem erf_eq (x : ℝ) : erf x = 2 / √π * ∫ t in 0..x, bell t := by
  rw [erf, total_eq]
  field_simp

/-- **What is not before is after.** -/
theorem erf_add_tail (x : ℝ) : erf x + tail x = 1 := by
  rw [erf, tail, ← add_div, intervalIntegral.integral_interval_add_Ioi integrable_bell.integrableOn
    integrable_bell.integrableOn]
  exact div_self total_pos.ne'

/-- From 0 on there is a share before. -/
theorem erf_pos {x : ℝ} (hx : 0 < x) : 0 < erf x :=
  div_pos (intervalIntegral.intervalIntegral_pos_of_pos (continuous_bell.intervalIntegrable _ _)
    bell_pos hx) total_pos

/-- **The tail is at least the bell one further.** -/
theorem tail_ge {x : ℝ} (hx : 0 ≤ x) : bell (x + 1) / total ≤ tail x := by
  have hbell : ∀ t ∈ Ioc x (x + 1), bell (x + 1) ≤ bell t := by
    intro t ht
    refine exp_le_exp.mpr (neg_le_neg ?_)
    exact pow_le_pow_left₀ (hx.trans ht.1.le) ht.2 2
  have hconst := setIntegral_ge_of_const_le_real measurableSet_Ioc (by simp) hbell
    integrable_bell.integrableOn
  have hpart : ∫ t in Ioc x (x + 1), bell t ≤ ∫ t in Ioi x, bell t :=
    setIntegral_mono_set integrable_bell.integrableOn (ae_of_all _ fun t => (bell_pos t).le)
      Ioc_subset_Ioi_self.eventuallyLE
  refine div_le_div_of_nonneg_right ?_ total_pos.le
  simpa using hconst.trans hpart

/-- **The tail falls faster than `1 / x`.** -/
theorem mul_tail_le {x : ℝ} (hx : 0 < x) : x * tail x ≤ bell x / total := by
  have hbell : ∀ t ∈ Ioi x, bell t ≤ exp (-x * t) := by
    intro t ht
    have hxt : x < t := ht
    refine exp_le_exp.mpr ?_
    nlinarith
  have hle : ∫ t in Ioi x, bell t ≤ bell x / x := by
    calc ∫ t in Ioi x, bell t ≤ ∫ t in Ioi x, exp (-x * t) :=
          setIntegral_mono_on integrable_bell.integrableOn
            (integrableOn_exp_mul_Ioi (neg_lt_zero.mpr hx) x) measurableSet_Ioi hbell
      _ = bell x / x := by
          rw [integral_exp_mul_Ioi (neg_lt_zero.mpr hx), neg_div_neg_eq, bell]
          ring_nf
  rw [tail, ← mul_div_assoc, mul_comm]
  exact div_le_div_of_nonneg_right ((le_div_iff₀ hx).mp hle) total_pos.le

/-- The tail is positive. -/
theorem tail_pos {x : ℝ} : 0 < tail x := by
  rcases le_total 0 x with hx | hx
  · exact lt_of_lt_of_le (div_pos (bell_pos _) total_pos) (tail_ge hx)
  · have hzero := lt_of_lt_of_le (div_pos (bell_pos _) total_pos) (tail_ge (le_refl 0))
    refine lt_of_lt_of_le hzero (div_le_div_of_nonneg_right ?_ total_pos.le)
    exact setIntegral_mono_set integrable_bell.integrableOn
      (ae_of_all _ fun t => (bell_pos t).le) (Ioi_subset_Ioi hx).eventuallyLE

theorem erf_lt_one (x : ℝ) : erf x < 1 := by
  have hsum := erf_add_tail x
  have hpos := tail_pos (x := x)
  linarith

/-- `erf` comes close to 1 faster than `1 / x`. -/
theorem erf_limit {ε : ℝ} (hε : 0 < ε) : ∃ bound, ∀ x, bound ≤ x → x * (1 - erf x) ≤ ε := by
  refine ⟨max 1 (2 / ε), ?_⟩
  intro x hx
  have hone : 1 ≤ x := (le_max_left _ _).trans hx
  have hlarge : 2 / ε ≤ x := (le_max_right _ _).trans hx
  have hpos : 0 < x := by linarith
  have htotal : 1 / 2 ≤ total := by
    rw [total_eq]
    exact div_le_div_of_nonneg_right (one_le_sqrt.mpr (by linarith [two_le_pi])) two_pos.le
  have hbell : bell x ≤ 1 / x := by
    have hexp : x ≤ exp (x ^ 2) := by nlinarith [add_one_le_exp (x ^ 2)]
    rw [bell, exp_neg, ← one_div]
    exact one_div_le_one_div_of_le hpos hexp
  calc x * (1 - erf x) = x * tail x := by rw [← erf_add_tail x, add_sub_cancel_left]
    _ ≤ bell x / total := mul_tail_le hpos
    _ ≤ 1 / x / (1 / 2) := div_le_div₀ (by positivity) hbell (by positivity) htotal
    _ = 2 / x := by ring
    _ ≤ ε := (div_le_comm₀ hpos hε).mpr hlarge

/-- `tanh` comes close to 1 like an exponential. -/
theorem one_sub_tanh_le (y : ℝ) : 1 - tanh y ≤ 2 * exp (-2 * y) := by
  have hcosh := cosh_pos y
  have hlarge : exp y / 2 ≤ cosh y := by
    rw [cosh_eq]
    linarith [exp_pos (-y)]
  calc 1 - tanh y = exp (-y) / cosh y := by
        rw [tanh_eq_sinh_div_cosh, ← cosh_sub_sinh]
        field_simp
    _ ≤ exp (-y) / (exp y / 2) := div_le_div_of_nonneg_left (exp_pos _).le (by positivity) hlarge
    _ = 2 * exp (-2 * y) := by
        rw [show -2 * y = -y - y by ring, exp_sub]
        field_simp

/-- **`tanh` overtakes `erf`** where its argument grows faster than the square. -/
theorem erf_lt_tanh {x y : ℝ} (hx : 0 ≤ x) (hy : (x + 1) ^ 2 + 1 ≤ 2 * y) : erf x < tanh y := by
  have htotal : total ≤ 1 := by
    have hsqrt : √π ≤ 2 := (sqrt_le_left two_pos.le).mpr (by linarith [pi_le_four])
    rw [total_eq]
    linarith
  have htwo : 2 * exp (-1) < 1 := by
    have hexp := add_one_lt_exp (x := 1) one_ne_zero
    rw [exp_neg, ← div_eq_mul_inv, div_lt_one (exp_pos 1)]
    linarith
  have hless : 1 - tanh y < tail x := by
    calc 1 - tanh y ≤ 2 * exp (-2 * y) := one_sub_tanh_le y
      _ ≤ 2 * exp (-(x + 1) ^ 2 + -1) := by
          refine mul_le_mul_of_nonneg_left (exp_le_exp.mpr ?_) two_pos.le
          linarith
      _ = 2 * exp (-1) * bell (x + 1) := by
          rw [exp_add, bell]
          ring
      _ < 1 * bell (x + 1) := mul_lt_mul_of_pos_right htwo (bell_pos _)
      _ = bell (x + 1) := one_mul _
      _ ≤ bell (x + 1) / total := le_div_self (bell_pos _).le total_pos htotal
      _ ≤ tail x := tail_ge hx
  have hsum := erf_add_tail x
  linarith

end ErrorFunction

import Mathlib.Data.Int.Log
import Mathlib.Data.Rat.Floor
import Mathlib.Tactic.Linarith

/-!
# Rounding to significant digits

A number is rounded to `p` significant digits in a base by scaling it so that its
integer part has `p` digits, rounding that to the nearest integer, ties to even, and
scaling back.  A format with a smallest exponent keeps fewer digits of numbers near 0.
Decimal texts with six digits and binary doubles are two such formats.

Rounding is monotone (`roundTo_mono`), also where the exponent changes, because a power
of the base stands between two numbers with different exponents and rounds to itself.
-/

namespace SignificantDigits

/-- The nearest integer; the even one of two. -/
def roundHalfEven (x : ℚ) : ℤ :=
  if Int.fract x < 1 - Int.fract x then ⌊x⌋
  else if 1 - Int.fract x < Int.fract x then ⌊x⌋ + 1
  else if ⌊x⌋ % 2 = 0 then ⌊x⌋
  else ⌊x⌋ + 1

/-- The rounded number is one of the two integers around. -/
theorem roundHalfEven_bounds (x : ℚ) : ⌊x⌋ ≤ roundHalfEven x ∧ roundHalfEven x ≤ ⌊x⌋ + 1 := by
  unfold roundHalfEven
  split
  · omega
  · split
    · omega
    · split <;> omega

/-- Integers stay. -/
theorem roundHalfEven_intCast (n : ℤ) : roundHalfEven n = n := by
  rw [roundHalfEven, Int.fract_intCast, if_pos (by norm_num), Int.floor_intCast]

/-- Rounding to an integer is monotone. -/
theorem roundHalfEven_mono {x y : ℚ} (hxy : x ≤ y) : roundHalfEven x ≤ roundHalfEven y := by
  have hfloor := Int.floor_mono hxy
  rcases hfloor.lt_or_eq with hlt | heq
  · have hx := (roundHalfEven_bounds x).2
    have hy := (roundHalfEven_bounds y).1
    omega
  · have hfract : Int.fract x ≤ Int.fract y := by
      rw [Int.fract, Int.fract, heq]
      linarith
    unfold roundHalfEven
    rw [heq]
    split_ifs <;> first | omega | (exfalso; linarith)

/-- The exponent of the last of `p` significant digits. -/
def exponent (β p : ℕ) (lowest : Option ℤ) (x : ℚ) : ℤ :=
  let e := Int.log β x - p + 1
  match lowest with
  | none => e
  | some l => max e l

/-- `x` with `p` significant digits, or fewer if the exponent would be below the lowest. -/
def roundTo (β p : ℕ) (lowest : Option ℤ) (x : ℚ) : ℚ :=
  roundHalfEven (x / (β : ℚ) ^ exponent β p lowest x) * (β : ℚ) ^ exponent β p lowest x

variable {β p : ℕ} {lowest : Option ℤ} {x y : ℚ}

/-- Zero stays. -/
theorem roundTo_zero : roundTo β p lowest 0 = 0 := by
  have hzero : roundHalfEven 0 = 0 := by exact_mod_cast roundHalfEven_intCast 0
  rw [roundTo, zero_div, hzero, Int.cast_zero, zero_mul]

/-- A multiple of a unit that is not above `x` is not above the rounded `x`, and
likewise on the other side. -/
theorem scaled_round {u : ℚ} (hu : 0 < u) (n : ℤ) :
    (n * u ≤ x → n * u ≤ roundHalfEven (x / u) * u) ∧
      (x ≤ n * u → roundHalfEven (x / u) * u ≤ n * u) := by
  constructor
  · intro hle
    have hn : n ≤ roundHalfEven (x / u) := by
      have hmono := roundHalfEven_mono ((le_div_iff₀ hu).mpr hle)
      rwa [roundHalfEven_intCast] at hmono
    exact mul_le_mul_of_nonneg_right (by exact_mod_cast hn) hu.le
  · intro hle
    have hn : roundHalfEven (x / u) ≤ n := by
      have hmono := roundHalfEven_mono ((div_le_iff₀ hu).mpr hle)
      rwa [roundHalfEven_intCast] at hmono
    exact mul_le_mul_of_nonneg_right (by exact_mod_cast hn) hu.le

/-- Rounded numbers are not negative. -/
theorem roundTo_nonneg (hβ : 1 < β) (hx : 0 ≤ x) : 0 ≤ roundTo β p lowest x := by
  have hu : (0 : ℚ) < (β : ℚ) ^ exponent β p lowest x := zpow_pos (by positivity) _
  have hround := (scaled_round (x := x) hu 0).1
  simp only [Int.cast_zero, zero_mul] at hround
  exact hround hx

/-- A power of the base that is a multiple of the unit stays on its side of the
rounded number. -/
theorem power_round (hβ : 1 < β) {e : ℤ} (he : exponent β p lowest x ≤ e) :
    ((β : ℚ) ^ e ≤ x → (β : ℚ) ^ e ≤ roundTo β p lowest x) ∧
      (x ≤ (β : ℚ) ^ e → roundTo β p lowest x ≤ (β : ℚ) ^ e) := by
  have hpos : (0 : ℚ) < β := by positivity
  have hu : (0 : ℚ) < (β : ℚ) ^ exponent β p lowest x := zpow_pos hpos _
  obtain ⟨k, hk⟩ := Int.eq_ofNat_of_zero_le (Int.sub_nonneg.mpr he)
  have hpower : (β : ℚ) ^ e = ((β ^ k : ℕ) : ℤ) * (β : ℚ) ^ exponent β p lowest x := by
    rw [show e = k + exponent β p lowest x by omega, zpow_add₀ hpos.ne', zpow_natCast]
    push_cast
    ring
  rw [hpower]
  exact scaled_round hu _

/-- The exponent grows with the number. -/
theorem exponent_mono (hx : 0 < x) (hxy : x ≤ y) :
    exponent β p lowest x ≤ exponent β p lowest y := by
  have hlog := Int.log_mono_right (b := β) hx hxy
  unfold exponent
  cases lowest with
  | none => dsimp only; omega
  | some l => dsimp only; omega

/-- **Rounding to significant digits is monotone.** -/
theorem roundTo_mono (hβ : 1 < β) (hp : 1 ≤ p) (hx : 0 ≤ x) (hxy : x ≤ y) :
    roundTo β p lowest x ≤ roundTo β p lowest y := by
  rcases hx.eq_or_lt with rfl | hx
  · rw [roundTo_zero]
    exact roundTo_nonneg hβ hxy
  have hpos : (0 : ℚ) < β := by positivity
  rcases (@exponent_mono β p lowest x y hx hxy).lt_or_eq with hlt | heq
  · -- `β ^ log β y` is between the two numbers
    have htop : exponent β p lowest y = Int.log β y - p + 1 := by
      unfold exponent at hlt ⊢
      cases lowest with
      | none => rfl
      | some l => dsimp only at hlt ⊢; omega
    have hlog : Int.log β x < Int.log β y := by
      unfold exponent at hlt
      cases lowest with
      | none => dsimp only at hlt; omega
      | some l => dsimp only at hlt; omega
    have hbelow : x ≤ (β : ℚ) ^ Int.log β y :=
      (Int.lt_zpow_succ_log_self hβ x).le.trans
        (zpow_le_zpow_right₀ (by exact_mod_cast hβ.le) (by omega))
    have habove : (β : ℚ) ^ Int.log β y ≤ y := Int.zpow_log_le_self hβ (hx.trans_le hxy)
    exact ((power_round hβ (by omega)).2 hbelow).trans ((power_round hβ (by omega)).1 habove)
  · have hu : (0 : ℚ) < (β : ℚ) ^ exponent β p lowest y := zpow_pos hpos _
    rw [roundTo, roundTo, heq]
    refine mul_le_mul_of_nonneg_right ?_ hu.le
    exact_mod_cast roundHalfEven_mono (div_le_div_of_nonneg_right hxy hu.le)

/-- Multiples of a unit at or above their own stay. -/
theorem roundTo_multiple (hβ : 1 < β) {e : ℤ} (n : ℤ)
    (he : exponent β p lowest (n * (β : ℚ) ^ e) ≤ e) :
    roundTo β p lowest (n * (β : ℚ) ^ e) = n * (β : ℚ) ^ e := by
  have hpos : (0 : ℚ) < β := by positivity
  obtain ⟨k, hk⟩ := Int.eq_ofNat_of_zero_le (Int.sub_nonneg.mpr he)
  have hu := (zpow_pos hpos (exponent β p lowest (n * (β : ℚ) ^ e))).ne'
  have hscaled : n * (β : ℚ) ^ e / (β : ℚ) ^ exponent β p lowest (n * (β : ℚ) ^ e) =
      ((n * (β ^ k : ℕ) : ℤ) : ℚ) := by
    rw [div_eq_iff hu]
    conv_lhs => rw [show e = k + exponent β p lowest (n * (β : ℚ) ^ e) by omega,
      zpow_add₀ hpos.ne', zpow_natCast]
    push_cast
    ring
  rw [roundTo, hscaled, roundHalfEven_intCast, ← hscaled, div_mul_cancel₀ _ hu]

/-- **A rounded number stays.** -/
theorem roundTo_roundTo (hβ : 1 < β) (hp : 1 ≤ p) (hx : 0 ≤ x) :
    roundTo β p lowest (roundTo β p lowest x) = roundTo β p lowest x := by
  rcases hx.eq_or_lt with rfl | hx
  · rw [roundTo_zero, roundTo_zero]
  rcases (@roundTo_nonneg β p lowest x hβ hx.le).eq_or_lt with hzero | hy
  · rw [← hzero, roundTo_zero]
  have hmultiple : roundTo β p lowest x =
      roundHalfEven (x / (β : ℚ) ^ exponent β p lowest x) * (β : ℚ) ^ exponent β p lowest x := rfl
  have hlogx := Int.lt_zpow_succ_log_self hβ x
  by_cases hcarry : roundTo β p lowest x = (β : ℚ) ^ (Int.log β x + 1) ∧
      exponent β p lowest x ≤ Int.log β x + 1
  · -- rounding made the next power of the base
    obtain ⟨hpower, he⟩ := hcarry
    have hone : roundTo β p lowest x = (1 : ℤ) * (β : ℚ) ^ (Int.log β x + 1) := by
      rw [hpower, Int.cast_one, one_mul]
    rw [hone]
    refine roundTo_multiple hβ 1 ?_
    rw [← hone, hpower]
    unfold exponent at he ⊢
    rw [Int.log_zpow hβ]
    cases lowest with
    | none => dsimp only; omega
    | some l => dsimp only at he ⊢; omega
  · rw [hmultiple]
    refine roundTo_multiple hβ _ ?_
    rw [← hmultiple]
    rcases le_or_gt (exponent β p lowest x) (Int.log β x + 1) with he | he
    · have hle := (power_round hβ he).2 hlogx.le
      have hlt := lt_of_le_of_ne hle fun heq => hcarry ⟨heq, he⟩
      have hlog := (Int.lt_zpow_iff_log_lt hβ hy).mp hlt
      unfold exponent
      cases lowest with
      | none => dsimp only; omega
      | some l => dsimp only; omega
    · have hbelow : x ≤ (β : ℚ) ^ exponent β p lowest x :=
        hlogx.le.trans (zpow_le_zpow_right₀ (by exact_mod_cast hβ.le) he.le)
      have hle := (power_round hβ (le_refl _)).2 hbelow
      have hlog := Int.log_mono_right (b := β) hy hle
      rw [Int.log_zpow hβ] at hlog
      unfold exponent at he hlog ⊢
      cases lowest with
      | none => dsimp only at he; omega
      | some l => dsimp only at he hlog ⊢; omega

end SignificantDigits

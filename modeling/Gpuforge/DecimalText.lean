import Mathlib.Data.List.DropRight
import Mathlib.Tactic.Ring
import Gpuforge.SignificantDigits

/-!
# Decimal numerals

A numeral is a text of digits with an optional fraction and an optional exponent.
`general` chooses the numeral of a number with `p` significant digits that C's `%g`
conversion prints: with an exponent if the number is very small or has more than `p`
digits before the point, and without trailing zeros in the fraction.  Its value is the
number rounded to `p` digits (`value_general`).

`readNumeral` takes the longest numeral from the front of a text, and reads back what was
written (`readNumeral_text`).
-/

namespace DecimalText

open SignificantDigits

/-- The digits before and after the point, and the exponent. -/
structure Numeral where
  whole : List Char
  fraction : List Char := []
  exponent : Option Int := none
  deriving DecidableEq, Repr

/-- A point and the digits after it, if there are any. -/
def fractionText (digits : List Char) : List Char :=
  if digits = [] then [] else '.' :: digits

/-- An exponent has a sign and at least two digits. -/
def exponentText : Option Int → List Char
  | none => []
  | some e =>
      'e' :: (if e < 0 then '-' else '+') ::
        ((if e.natAbs < 10 then ['0'] else []) ++ Nat.toDigits 10 e.natAbs)

namespace Numeral

def text (n : Numeral) : List Char :=
  n.whole ++ fractionText n.fraction ++ exponentText n.exponent

/-- The number that the numeral stands for. -/
def value (n : Numeral) : ℚ :=
  Nat.ofDigitChars 10 (n.whole ++ n.fraction) 0 *
    ((10 : ℕ) : ℚ) ^ (n.exponent.getD 0 - n.fraction.length)

/-- Digits everywhere, some before the point, and no zero in front of others. -/
structure WellFormed (n : Numeral) : Prop where
  whole : ∀ c ∈ n.whole, c.isDigit = true
  fraction : ∀ c ∈ n.fraction, c.isDigit = true
  leading : n.whole = ['0'] ∨ ∃ c rest, n.whole = c :: rest ∧ c ≠ '0'

end Numeral

/-- A fraction without its trailing zeros. -/
def strip (digits : List Char) : List Char := digits.rdropWhile fun c => c = '0'

/-- The number as an integer of `p` digits; rounding may carry to one digit more. -/
def scaled (p : ℕ) (x : ℚ) : ℤ :=
  roundHalfEven (x / ((10 : ℕ) : ℚ) ^ exponent 10 p none x)

/-- The `p` significant digits of a number and the exponent of the first one. -/
def scientific (p : ℕ) (x : ℚ) : ℕ × ℤ :=
  let digits := (scaled p x).toNat
  if digits = 10 ^ p then (10 ^ (p - 1), Int.log 10 x + 1) else (digits, Int.log 10 x)

/-- The numeral of a number that is not negative, as `%g` chooses it. -/
def general (p : ℕ) (x : ℚ) : Numeral :=
  if x = 0 then { whole := ['0'] }
  else
    let digits := Nat.toDigits 10 (scientific p x).1
    let e := (scientific p x).2
    if e < -4 ∨ p ≤ e then
      { whole := digits.take 1, fraction := strip (digits.drop 1), exponent := some e }
    else if 0 ≤ e then
      { whole := digits.take (e.toNat + 1), fraction := strip (digits.drop (e.toNat + 1)) }
    else
      { whole := ['0']
        fraction := strip (List.replicate (-e - 1).toNat '0' ++ digits) }

/-! ## Digits -/

/-- Stripped zeros are zeros. -/
theorem strip_append (digits : List Char) :
    ∃ k, digits = strip digits ++ List.replicate k '0' := by
  induction digits using List.reverseRecOn with
  | nil => exact ⟨0, rfl⟩
  | append_singleton digits c ih =>
      by_cases hzero : c = '0'
      · obtain ⟨k, hk⟩ := ih
        refine ⟨k + 1, ?_⟩
        have hstrip : strip (digits ++ [c]) = strip digits :=
          List.rdropWhile_concat_pos _ _ _ (decide_eq_true hzero)
        rw [hstrip, List.replicate_succ', ← List.append_assoc, ← hk, hzero]
      · refine ⟨0, ?_⟩
        have hstrip : strip (digits ++ [c]) = digits ++ [c] :=
          List.rdropWhile_concat_neg _ _ _ (by simpa using hzero)
        rw [hstrip, List.replicate_zero, List.append_nil]

/-- Stripped digits are among the digits. -/
theorem mem_of_mem_strip {digits : List Char} {c : Char} (h : c ∈ strip digits) : c ∈ digits := by
  obtain ⟨k, hk⟩ := strip_append digits
  rw [hk]
  exact List.mem_append_left _ h

/-- Stripping the fraction keeps the value. -/
theorem value_strip (whole fraction : List Char) (e : Option Int) :
    (⟨whole, strip fraction, e⟩ : Numeral).value = (⟨whole, fraction, e⟩ : Numeral).value := by
  obtain ⟨k, hk⟩ := strip_append fraction
  have hten : ((10 : ℕ) : ℚ) ≠ 0 := by norm_num
  have hdigits : Nat.ofDigitChars 10 (whole ++ fraction) 0 =
      10 ^ k * Nat.ofDigitChars 10 (whole ++ strip fraction) 0 := by
    conv_lhs => rw [hk]
    rw [← List.append_assoc, Nat.ofDigitChars_append, Nat.ofDigitChars_replicate_zero]
  have hlength : (fraction.length : Int) = (strip fraction).length + k := by
    conv_lhs => rw [hk]
    rw [List.length_append, List.length_replicate, Int.natCast_add]
  simp only [Numeral.value]
  rw [hdigits, hlength, show e.getD 0 - ((strip fraction).length : Int) =
    k + (e.getD 0 - ((strip fraction).length + k)) by omega, zpow_add₀ hten, zpow_natCast]
  push_cast
  ring

/-! ## The digits of a rounded number -/

variable {p : ℕ} {x : ℚ}

/-- The scaled number has `p` digits, or is the next power of ten. -/
theorem scaled_bounds (hp : 1 ≤ p) (hx : 0 < x) :
    ((10 ^ (p - 1) : ℕ) : ℤ) ≤ scaled p x ∧ scaled p x ≤ ((10 ^ p : ℕ) : ℤ) := by
  have hten : (0 : ℚ) < ((10 : ℕ) : ℚ) := by norm_num
  have hu : (0 : ℚ) < ((10 : ℕ) : ℚ) ^ exponent 10 p none x := zpow_pos hten _
  have he : exponent 10 p none x = Int.log 10 x - p + 1 := rfl
  have hpower : ∀ k : ℕ, ((10 : ℕ) : ℚ) ^ (k + (Int.log 10 x - p + 1)) =
      (((10 ^ k : ℕ) : ℤ) : ℚ) * ((10 : ℕ) : ℚ) ^ exponent 10 p none x := by
    intro k
    rw [he, zpow_add₀ hten.ne', zpow_natCast]
    push_cast
    rfl
  constructor
  · have hbelow := Int.zpow_log_le_self (b := 10) (by norm_num) hx
    rw [show Int.log 10 x = ((p - 1 : ℕ) : ℤ) + (Int.log 10 x - p + 1) by omega,
      hpower] at hbelow
    exact_mod_cast le_of_mul_le_mul_right ((scaled_round hu _).1 hbelow) hu
  · have habove := (Int.lt_zpow_succ_log_self (b := 10) (by norm_num) x).le
    rw [show Int.log 10 x + 1 = (p : ℤ) + (Int.log 10 x - p + 1) by omega, hpower] at habove
    exact_mod_cast le_of_mul_le_mul_right ((scaled_round hu _).2 habove) hu

/-- The digits are `p` many. -/
theorem scientific_bounds (hp : 1 ≤ p) (hx : 0 < x) :
    10 ^ (p - 1) ≤ (scientific p x).1 ∧ (scientific p x).1 < 10 ^ p := by
  obtain ⟨hlow, hhigh⟩ := scaled_bounds hp hx
  have hpow : (10 : ℕ) ^ (p - 1) < 10 ^ p := Nat.pow_lt_pow_right (by omega) (by omega)
  have hnonneg : 0 ≤ scaled p x := (Int.natCast_nonneg _).trans hlow
  simp only [scientific]
  split
  · exact ⟨le_refl _, hpow⟩
  · next hcarry =>
      exact ⟨(Int.le_toNat hnonneg).mpr hlow, lt_of_le_of_ne (Int.toNat_le.mpr hhigh) hcarry⟩

/-- Digits and exponent are those of the rounded number. -/
theorem scientific_value (hp : 1 ≤ p) (hx : 0 < x) :
    ((scientific p x).1 : ℚ) * ((10 : ℕ) : ℚ) ^ ((scientific p x).2 - p + 1) =
      roundTo 10 p none x := by
  have hten : ((10 : ℕ) : ℚ) ≠ 0 := by norm_num
  obtain ⟨hlow, _⟩ := scaled_bounds hp hx
  have hscaled : (((scaled p x).toNat : ℕ) : ℚ) = (scaled p x : ℚ) := by
    exact_mod_cast Int.toNat_of_nonneg ((Int.natCast_nonneg _).trans hlow)
  rw [roundTo, ← scaled, ← hscaled]
  simp only [scientific]
  split
  · next hcarry =>
      rw [hcarry, show exponent 10 p none x = Int.log 10 x - p + 1 from rfl,
        show Int.log 10 x + 1 - (p : ℤ) + 1 = 1 + (Int.log 10 x - p + 1) by omega,
        zpow_add₀ hten, zpow_one, ← mul_assoc]
      congr 1
      rw [show p = p - 1 + 1 by omega, pow_succ]
      push_cast
      rfl
  · rfl

/-- The digits of a number with `p` of them. -/
theorem length_digits {d : ℕ} (hp : 1 ≤ p) (hlow : 10 ^ (p - 1) ≤ d) (hhigh : d < 10 ^ p) :
    (Nat.toDigits 10 d).length = p := by
  have hle := (Nat.length_toDigits_le_iff (b := 10) (by omega) (by omega)).mpr hhigh
  refine Nat.le_antisymm hle ?_
  by_contra hshort
  rcases Nat.eq_or_lt_of_le hp with rfl | hp'
  · exact hshort Nat.length_toDigits_pos
  · have hlt := (Nat.length_toDigits_le_iff (b := 10) (n := d) (k := p - 1) (by omega)
      (by omega)).mp (by omega)
    omega

/-- The first digit of a positive number is not 0. -/
theorem head_digits (d : ℕ) (hd : 0 < d) :
    ∃ c rest, Nat.toDigits 10 d = c :: rest ∧ c ≠ '0' := by
  induction d using Nat.strongRecOn with
  | ind d ih =>
      by_cases hsmall : d < 10
      · refine ⟨_, [], Nat.toDigits_of_lt_base hsmall, ?_⟩
        rw [ne_eq, Nat.digitChar_eq_zero]
        omega
      · obtain ⟨c, rest, hdigits, hc⟩ := ih (d / 10) (by omega) (by omega)
        refine ⟨c, rest ++ [Nat.digitChar (d % 10)], ?_, hc⟩
        rw [Nat.toDigits_of_base_le (by omega) (by omega), hdigits, List.cons_append]

/-- The three shapes of the numeral of a positive number: with an exponent, with a point
among the digits, and with zeros after the point. -/
theorem general_cases (hp : 1 ≤ p) (hx : 0 < x) :
    ∃ (digits : List Char) (e : ℤ), digits.length = p ∧ (∀ c ∈ digits, c.isDigit = true) ∧
      (∃ c rest, digits = c :: rest ∧ c ≠ '0') ∧
      (Nat.ofDigitChars 10 digits 0 : ℚ) * ((10 : ℕ) : ℚ) ^ (e - p + 1) = roundTo 10 p none x ∧
      (general p x = ⟨digits.take 1, strip (digits.drop 1), some e⟩ ∨
        (0 ≤ e ∧ e < p ∧ general p x =
          ⟨digits.take (e.toNat + 1), strip (digits.drop (e.toNat + 1)), none⟩) ∨
        (e < 0 ∧ general p x =
          ⟨['0'], strip (List.replicate (-e - 1).toNat '0' ++ digits), none⟩)) := by
  obtain ⟨hlow, hhigh⟩ := scientific_bounds hp hx
  have hpos : 0 < (scientific p x).1 := Nat.lt_of_lt_of_le (Nat.pow_pos (by omega)) hlow
  refine ⟨Nat.toDigits 10 (scientific p x).1, (scientific p x).2,
    length_digits hp hlow hhigh, fun c hc => Nat.isDigit_of_mem_toDigits (by omega) (by omega) hc,
    head_digits _ hpos, ?_, ?_⟩
  · rw [Nat.ofDigitChars_ten_toDigits]
    exact scientific_value hp hx
  · simp only [general, if_neg hx.ne']
    split
    · exact Or.inl rfl
    · split
      · exact Or.inr (Or.inl ⟨‹_›, by omega, rfl⟩)
      · exact Or.inr (Or.inr ⟨by omega, rfl⟩)

/-- **The numeral stands for the rounded number.** -/
theorem value_general (hp : 1 ≤ p) (hx : 0 ≤ x) :
    (general p x).value = roundTo 10 p none x := by
  rcases hx.eq_or_lt with rfl | hx
  · rw [roundTo_zero]
    simp [general, Numeral.value, Nat.ofDigitChars]
  obtain ⟨digits, e, hlength, _, _, hvalue, hcases⟩ := general_cases hp hx
  rw [← hvalue]
  rcases hcases with hsci | ⟨hlow, hhigh, hfixed⟩ | ⟨hneg, hsmall⟩
  · rw [hsci, value_strip]
    simp only [Numeral.value, List.take_append_drop, List.length_drop, hlength, Option.getD_some]
    congr 2
    omega
  · rw [hfixed, value_strip]
    simp only [Numeral.value, List.take_append_drop, List.length_drop, hlength, Option.getD_none]
    congr 2
    omega
  · rw [hsmall, value_strip]
    have hzeros : Nat.ofDigitChars 10
        (['0'] ++ (List.replicate (-e - 1).toNat '0' ++ digits)) 0 =
          Nat.ofDigitChars 10 digits 0 := by
      rw [← List.append_assoc, Nat.ofDigitChars_append, ← List.replicate_one,
        List.replicate_append_replicate, Nat.ofDigitChars_replicate_zero, Nat.mul_zero]
    simp only [Numeral.value, hzeros, List.length_append, List.length_replicate, hlength,
      Option.getD_none]
    congr 2
    omega

/-- The numerals that `general` chooses are well formed. -/
theorem wellFormed_general (hp : 1 ≤ p) (hx : 0 ≤ x) : (general p x).WellFormed := by
  rcases hx.eq_or_lt with rfl | hx
  · rw [general, if_pos rfl]
    exact ⟨by simp, by simp, Or.inl rfl⟩
  obtain ⟨digits, e, hlength, hdigits, ⟨c, rest, hhead, hc⟩, _, hcases⟩ := general_cases hp hx
  have hstrip : ∀ k, ∀ c ∈ strip (digits.drop k), c.isDigit = true := fun k c hmem =>
    hdigits c (List.mem_of_mem_drop (mem_of_mem_strip hmem))
  have htake : ∀ k, ∃ c rest, digits.take (k + 1) = c :: rest ∧ c ≠ '0' := by
    intro k
    exact ⟨c, rest.take k, by rw [hhead, List.take_succ_cons], hc⟩
  rcases hcases with hsci | ⟨_, _, hfixed⟩ | ⟨_, hsmall⟩
  · rw [hsci]
    exact ⟨fun c hmem => hdigits c (List.mem_of_mem_take hmem), hstrip 1, Or.inr (htake 0)⟩
  · rw [hfixed]
    exact ⟨fun c hmem => hdigits c (List.mem_of_mem_take hmem), hstrip _, Or.inr (htake _)⟩
  · rw [hsmall]
    refine ⟨by simp, ?_, Or.inl rfl⟩
    intro c hmem
    rcases List.mem_append.mp (mem_of_mem_strip hmem) with hzero | hmem
    · rw [List.eq_of_mem_replicate hzero]
      decide
    · exact hdigits c hmem

/-- The characters of numerals and their signs. -/
def IsNumeric (c : Char) : Prop := c.isDigit = true ∨ c = '.' ∨ c = 'e' ∨ c = '+' ∨ c = '-'

instance (c : Char) : Decidable (IsNumeric c) := by
  unfold IsNumeric; infer_instance

/-- The digits of an exponent. -/
theorem isDigit_exponent (e : Int) :
    ∀ c ∈ (if e.natAbs < 10 then ['0'] else []) ++ Nat.toDigits 10 e.natAbs,
      c.isDigit = true := by
  intro c hc
  rcases List.mem_append.mp hc with hpad | hdigit
  · split at hpad
    · rw [List.mem_singleton.mp hpad]
      decide
    · cases hpad
  · exact Nat.isDigit_of_mem_toDigits (by omega) (by omega) hdigit

/-- A numeral is written with these characters. -/
theorem isNumeric_text {n : Numeral} (h : n.WellFormed) : ∀ c ∈ n.text, IsNumeric c := by
  intro c hc
  rw [Numeral.text, List.mem_append, List.mem_append] at hc
  rcases hc with (hwhole | hfraction) | hexponent
  · exact Or.inl (h.whole c hwhole)
  · unfold fractionText at hfraction
    split at hfraction
    · cases hfraction
    · rcases List.mem_cons.mp hfraction with rfl | hdigit
      · decide
      · exact Or.inl (h.fraction c hdigit)
  · cases hexp : n.exponent with
    | none => simp [hexp, exponentText] at hexponent
    | some e =>
        rw [hexp, exponentText, List.mem_cons, List.mem_cons] at hexponent
        rcases hexponent with rfl | rfl | hdigit
        · decide
        · split <;> decide
        · exact Or.inl (isDigit_exponent e c hdigit)

/-! ## Reading -/

/-- A sign, if there is one; `true` is a minus. -/
def readSign : List Char → Bool × List Char
  | '-' :: rest => (true, rest)
  | '+' :: rest => (false, rest)
  | rest => (false, rest)

/-- The digits at the front; `none` if there are none. -/
def readDigits (text : List Char) : Option (List Char × List Char) :=
  if text.takeWhile Char.isDigit = [] then none
  else some (text.takeWhile Char.isDigit, text.dropWhile Char.isDigit)

/-- A point with the digits after it, if there is a point. -/
def readFraction : List Char → List Char × List Char
  | '.' :: rest => (rest.takeWhile Char.isDigit, rest.dropWhile Char.isDigit)
  | rest => ([], rest)

/-- An exponent, if an `e` follows; `none` is an `e` without digits. -/
def readExponent : List Char → Option (Option Int × List Char)
  | [] => some (none, [])
  | c :: rest =>
      if c = 'e' ∨ c = 'E' then
        (readDigits (readSign rest).2).map fun digits =>
          let e := Nat.ofDigitChars 10 digits.1 0
          (some (if (readSign rest).1 then -(e : Int) else e), digits.2)
      else some (none, c :: rest)

/-- The longest numeral at the front of a text; digits must stand before the point or
after it. -/
def readNumeral (text : List Char) : Option (Numeral × List Char) :=
  let whole := text.takeWhile Char.isDigit
  let fraction := readFraction (text.dropWhile Char.isDigit)
  if whole = [] ∧ fraction.1 = [] then none
  else (readExponent fraction.2).map fun e => (⟨whole, fraction.1, e.1⟩, e.2)

/-- What may follow digits: nothing, or a character that is none. -/
def EndsDigits (rest : List Char) : Prop := ∀ c ∈ rest.head?, c.isDigit = false

/-- What may follow a numeral: nothing that could go on with it. -/
def EndsNumeral (rest : List Char) : Prop :=
  ∀ c ∈ rest.head?, c.isDigit = false ∧ c ≠ '.' ∧ c ≠ 'e' ∧ c ≠ 'E'

/-- Digits are read up to their end. -/
theorem span_digits {digits rest : List Char} (hdigits : ∀ c ∈ digits, c.isDigit = true)
    (hrest : EndsDigits rest) :
    (digits ++ rest).takeWhile Char.isDigit = digits ∧
      (digits ++ rest).dropWhile Char.isDigit = rest := by
  have hnil : rest.takeWhile Char.isDigit = [] ∧ rest.dropWhile Char.isDigit = rest := by
    cases rest with
    | nil => exact ⟨rfl, rfl⟩
    | cons c rest =>
        have hc : c.isDigit = false := hrest c rfl
        simp [hc]
  rw [List.takeWhile_append_of_pos hdigits, List.dropWhile_append_of_pos hdigits, hnil.1, hnil.2,
    List.append_nil]
  exact ⟨rfl, rfl⟩

/-- Digits read back. -/
theorem readDigits_append {digits rest : List Char} (hne : digits ≠ [])
    (hdigits : ∀ c ∈ digits, c.isDigit = true) (hrest : EndsDigits rest) :
    readDigits (digits ++ rest) = some (digits, rest) := by
  obtain ⟨htake, hdrop⟩ := span_digits hdigits hrest
  rw [readDigits, htake, hdrop, if_neg hne]

/-- An exponent reads back, also one that is not there. -/
theorem readExponent_text (e : Option Int) {rest : List Char} (hrest : EndsNumeral rest) :
    readExponent (exponentText e ++ rest) = some (e, rest) := by
  cases e with
  | none =>
      cases rest with
      | nil => rfl
      | cons c rest =>
          obtain ⟨_, _, he, hE⟩ := hrest c rfl
          rw [exponentText, List.nil_append, readExponent, if_neg (by simp [he, hE])]
  | some e =>
      have hvalue : Nat.ofDigitChars 10
          ((if e.natAbs < 10 then ['0'] else []) ++ Nat.toDigits 10 e.natAbs) 0 = e.natAbs := by
        rw [Nat.ofDigitChars_append]
        split
        · exact Nat.ofDigitChars_ten_toDigits
        · exact Nat.ofDigitChars_ten_toDigits
      have hread := readDigits_append (by simp) (isDigit_exponent e) fun c hc => (hrest c hc).1
      rw [exponentText, List.cons_append, List.cons_append, readExponent, if_pos (Or.inl rfl)]
      by_cases hneg : e < 0
      · simp only [if_pos hneg, readSign, hread, Option.map_some, hvalue]
        rw [if_pos trivial, show -(e.natAbs : Int) = e by omega]
      · simp only [if_neg hneg, readSign, hread, Option.map_some, hvalue]
        rw [if_neg Bool.false_ne_true, show (e.natAbs : Int) = e by omega]

/-- An exponent does not go on with digits or a point. -/
theorem head_exponentText (e : Option Int) {rest : List Char} (hrest : EndsNumeral rest) :
    ∀ c ∈ (exponentText e ++ rest).head?, c.isDigit = false ∧ c ≠ '.' := by
  intro c hc
  cases e with
  | none => exact ⟨(hrest c hc).1, (hrest c hc).2.1⟩
  | some e =>
      cases hc
      decide

/-- A fraction reads back, also one that is not there. -/
theorem readFraction_text {fraction rest : List Char}
    (hdigits : ∀ c ∈ fraction, c.isDigit = true)
    (hrest : ∀ c ∈ rest.head?, c.isDigit = false ∧ c ≠ '.') :
    readFraction (fractionText fraction ++ rest) = (fraction, rest) := by
  by_cases hnil : fraction = []
  · rw [fractionText, if_pos hnil, hnil, List.nil_append]
    unfold readFraction
    split
    · exact absurd rfl (hrest '.' rfl).2
    · rfl
  · obtain ⟨htake, hdrop⟩ := span_digits hdigits fun c hc => (hrest c hc).1
    rw [fractionText, if_neg hnil, List.cons_append, readFraction, htake, hdrop]

/-- **A numeral reads back.** -/
theorem readNumeral_text {n : Numeral} (h : n.WellFormed) {rest : List Char}
    (hrest : EndsNumeral rest) : readNumeral (n.text ++ rest) = some (n, rest) := by
  have hlast := head_exponentText n.exponent hrest
  have hends : EndsDigits (fractionText n.fraction ++ (exponentText n.exponent ++ rest)) := by
    intro c hc
    unfold fractionText at hc
    split at hc
    · exact (hlast c hc).1
    · cases hc
      rfl
  obtain ⟨htake, hdrop⟩ := span_digits h.whole hends
  have hne : n.whole ≠ [] := by
    rcases h.leading with hzero | ⟨c, tail, hcons, _⟩
    · simp [hzero]
    · simp [hcons]
  rw [Numeral.text, List.append_assoc, List.append_assoc, readNumeral]
  simp only [htake, hdrop, readFraction_text h.fraction hlast, readExponent_text _ hrest]
  rw [if_neg fun hnone => hne hnone.1]
  rfl

end DecimalText

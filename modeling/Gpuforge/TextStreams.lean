import Gpuforge.DecimalText

/-!
# Formatted text streams

What C++ streams write and read by default: integers in decimal, doubles with six
significant digits, and extraction that skips white space, takes the longest text of the
right form and fails without one, or on a value outside of the type.  An extractor maps
the characters left to its value and the characters left then; a failed stream extracts
nothing more.

A finite double is a sign and a magnitude.  What is read back of a double is the double
nearest to its six digits (`double_text`).
-/

namespace TextStreams

open SignificantDigits DecimalText

/-- The nearest number with 53 binary digits and no smaller exponent than doubles have. -/
def nearest (x : ℚ) : ℚ := roundTo 2 53 (some (-1074)) x

/-- Doubles are below `2^1024`. -/
def limit : ℚ := ((2 : ℕ) : ℚ) ^ (1024 : ℕ)

/-- A finite double is a sign and a magnitude that rounding to a double keeps; zeros have
signs. -/
@[ext]
structure Double where
  negative : Bool := false
  magnitude : ℚ
  nonneg : 0 ≤ magnitude
  exact : nearest magnitude = magnitude
  bounded : magnitude < limit
  deriving DecidableEq

namespace Double

/-- The double next to a magnitude, with a sign; `none` is a magnitude too large. -/
def round (negative : Bool) (x : ℚ) (hx : 0 ≤ x) : Option Double :=
  if h : nearest x < limit then
    some
      { negative := negative
        magnitude := nearest x
        nonneg := roundTo_nonneg (by omega) hx
        exact := roundTo_roundTo (by omega) (by omega) hx
        bounded := h }
  else none

instance : Zero Double :=
  ⟨{ magnitude := 0
     nonneg := le_refl 0
     exact := roundTo_zero
     bounded := pow_pos (by norm_num) _ }⟩

/-- Numbers of at most 53 binary digits stay. -/
theorem nearest_natural {n : ℕ} (hn : n < 2 ^ 53) : nearest n = n := by
  have hlog : Int.log 2 (n : ℚ) ≤ 52 := by
    rw [Int.log_natCast]
    have hle : Nat.log 2 n < 53 := Nat.log_lt_of_lt_pow' (by omega) hn
    omega
  have hstay := @roundTo_multiple 2 53 (some (-1074)) (by omega) 0 n
  simp only [zpow_zero, mul_one, Int.cast_natCast] at hstay
  refine hstay ?_
  dsimp only [exponent]
  omega

/-- A natural number of at most 53 binary digits. -/
def natural (n : ℕ) (hn : n < 2 ^ 53) : Double :=
  { magnitude := n
    nonneg := Nat.cast_nonneg n
    exact := nearest_natural hn
    bounded := by
      have hcast : (n : ℚ) < ((2 : ℕ) : ℚ) ^ 53 := by exact_mod_cast hn
      exact hcast.trans (pow_lt_pow_right₀ (by norm_num) (by omega)) }

/-- The number that a double stands for; both zeros stand for 0. -/
def value (x : Double) : ℚ := if x.negative then -x.magnitude else x.magnitude

/-- `output << x`. -/
def text (x : Double) : List Char :=
  (if x.negative then ['-'] else []) ++ (general 6 x.magnitude).text

/-- What six significant digits leave of a magnitude. -/
def sixDigits (x : ℚ) : ℚ := roundTo 10 6 none x

/-- The digits of a magnitude are no negative number. -/
theorem sixDigits_nonneg {x : ℚ} (hx : 0 ≤ x) : 0 ≤ sixDigits x := roundTo_nonneg (by omega) hx

/-- The double that is read back for a double. -/
def reread (x : Double) : Option Double :=
  round x.negative (sixDigits x.magnitude) (sixDigits_nonneg x.nonneg)

end Double

/-- `output << i` for an `int`. -/
def intText (i : Int) : List Char :=
  (if i < 0 then ['-'] else []) ++ Nat.toDigits 10 i.natAbs

/-- `std::isspace`. -/
def isSpace (c : Char) : Bool := c = ' ' || (9 ≤ c.toNat && c.toNat ≤ 13)

/-- An extractor; `none` sets `failbit`. -/
abbrev Extract (α : Type) := StateT (List Char) Option α

def skipSpace (text : List Char) : List Char := text.dropWhile isSpace

/-- `input >> c` for a `char`. -/
def extractChar : Extract Char := fun text =>
  match skipSpace text with
  | [] => none
  | c :: rest => some (c, rest)

/-- `input >> n` for a `size_t`; a minus is the negation in `size_t`. -/
def extractSize : Extract Nat := fun text =>
  let signed := readSign (skipSpace text)
  (readDigits signed.2).bind fun digits =>
    let n := Nat.ofDigitChars 10 digits.1 0
    if n < 2 ^ 64 then some (if signed.1 then (2 ^ 64 - n) % 2 ^ 64 else n, digits.2) else none

/-- `input >> i` for an `int`. -/
def extractInt : Extract Int := fun text =>
  let signed := readSign (skipSpace text)
  (readDigits signed.2).bind fun digits =>
    let n : Int := Nat.ofDigitChars 10 digits.1 0
    let i := if signed.1 then -n else n
    if -2 ^ 31 ≤ i ∧ i < 2 ^ 31 then some (i, digits.2) else none

/-- The value of a numeral is no negative number. -/
theorem value_nonneg (n : Numeral) : 0 ≤ n.value :=
  mul_nonneg (Nat.cast_nonneg _) (zpow_nonneg (Nat.cast_nonneg _) _)

/-- `input >> x` for a `double`. -/
def extractDouble : Extract Double := fun text =>
  let signed := readSign (skipSpace text)
  (readNumeral signed.2).bind fun numeral =>
    (Double.round signed.1 numeral.1.value (value_nonneg numeral.1)).map fun x => (x, numeral.2)

/-! ## What is written reads back -/

/-- A digit is neither white space nor a sign. -/
theorem isSpace_digit {c : Char} (hc : c.isDigit = true) : isSpace c = false := by
  have hrange : 48 ≤ c.toNat ∧ c.toNat ≤ 57 := by
    simpa [Char.isDigit, UInt32.le_iff_toNat_le] using hc
  have hspace : c ≠ ' ' := by
    rintro rfl
    exact absurd hrange.1 (by decide)
  simp only [isSpace, hspace, decide_false, Bool.false_or, Bool.and_eq_false_iff,
    decide_eq_false_iff_not]
  omega

/-- No white space is skipped in front of something else. -/
theorem skipSpace_cons {c : Char} (hc : isSpace c = false) (rest : List Char) :
    skipSpace (c :: rest) = c :: rest := by
  rw [skipSpace, List.dropWhile_cons, if_neg (by simp [hc])]

/-- Digits have no sign. -/
theorem readSign_digit {c : Char} (hc : c.isDigit = true) (rest : List Char) :
    readSign (c :: rest) = (false, c :: rest) := by
  unfold readSign
  split
  · next heq =>
      cases heq
      exact absurd hc (by decide)
  · next heq =>
      cases heq
      exact absurd hc (by decide)
  · rfl

/-- The sign in front of a text of digits reads back. -/
theorem readSign_signed (negative : Bool) {digits : List Char}
    (hdigits : ∃ c rest, digits = c :: rest ∧ c.isDigit = true) :
    readSign (skipSpace ((if negative then ['-'] else []) ++ digits)) = (negative, digits) := by
  obtain ⟨c, rest, rfl, hc⟩ := hdigits
  cases negative with
  | true =>
      rw [if_pos rfl, List.singleton_append, skipSpace_cons (by decide), readSign]
  | false =>
      rw [if_neg Bool.false_ne_true, List.nil_append, skipSpace_cons (isSpace_digit hc),
        readSign_digit hc]

/-- The digits of a number start with one. -/
theorem toDigits_head (n : Nat) (rest : List Char) :
    ∃ c tail, Nat.toDigits 10 n ++ rest = c :: tail ∧ c.isDigit = true := by
  cases hdigits : Nat.toDigits 10 n with
  | nil => exact absurd hdigits Nat.toDigits_ne_nil
  | cons c tail =>
      refine ⟨c, tail ++ rest, by rw [List.cons_append], ?_⟩
      exact Nat.isDigit_of_mem_toDigits (b := 10) (n := n) (by omega) (by omega)
        (by simp [hdigits])

/-- The digits of a number read back. -/
theorem readDigits_toDigits (n : Nat) {rest : List Char} (hrest : EndsDigits rest) :
    readDigits (Nat.toDigits 10 n ++ rest) = some (Nat.toDigits 10 n, rest) :=
  readDigits_append Nat.toDigits_ne_nil
    (fun _ hc => Nat.isDigit_of_mem_toDigits (by omega) (by omega) hc) hrest

/-- A character other than white space reads back. -/
theorem char_text {c : Char} (hc : isSpace c = false) (rest : List Char) :
    extractChar (c :: rest) = some (c, rest) := by
  rw [extractChar, skipSpace_cons hc]

/-- A `size_t` reads back. -/
theorem size_text {n : Nat} (hn : n < 2 ^ 64) {rest : List Char} (hrest : EndsDigits rest) :
    extractSize (Nat.toDigits 10 n ++ rest) = some (n, rest) := by
  have hsign := readSign_signed false (toDigits_head n rest)
  rw [if_neg Bool.false_ne_true, List.nil_append] at hsign
  simp only [extractSize, hsign, readDigits_toDigits n hrest, Option.bind_some,
    Nat.ofDigitChars_ten_toDigits]
  rw [if_pos hn, if_neg Bool.false_ne_true]

/-- An `int` reads back. -/
theorem int_text {i : Int} (hlow : -2 ^ 31 ≤ i) (hhigh : i < 2 ^ 31) {rest : List Char}
    (hrest : EndsDigits rest) : extractInt (intText i ++ rest) = some (i, rest) := by
  have hsign := readSign_signed (decide (i < 0)) (toDigits_head i.natAbs rest)
  have hvalue : (if decide (i < 0) then -(i.natAbs : Int) else i.natAbs) = i := by
    by_cases hneg : i < 0
    · rw [if_pos (decide_eq_true hneg)]
      omega
    · rw [if_neg (by simpa using hneg)]
      omega
  rw [intText, List.append_assoc]
  simp only [decide_eq_true_eq] at hsign
  simp only [extractInt, hsign, readDigits_toDigits _ hrest, Option.bind_some,
    Nat.ofDigitChars_ten_toDigits, hvalue]
  rw [if_pos ⟨hlow, hhigh⟩]

/-- A numeral starts with a digit. -/
theorem numeral_head {n : Numeral} (h : n.WellFormed) (rest : List Char) :
    ∃ c tail, n.text ++ rest = c :: tail ∧ c.isDigit = true := by
  cases hwhole : n.whole with
  | nil =>
      rcases h.leading with hzero | ⟨c, tail, hcons, _⟩
      · simp [hwhole] at hzero
      · simp [hwhole] at hcons
  | cons c tail =>
      refine ⟨c, tail ++ fractionText n.fraction ++ exponentText n.exponent ++ rest, ?_,
        h.whole c (by simp [hwhole])⟩
      rw [Numeral.text, hwhole, List.cons_append, List.cons_append, List.cons_append]

/-- Equal magnitudes are rounded to the same double. -/
theorem round_congr (negative : Bool) {x y : ℚ} (hxy : x = y) (hx : 0 ≤ x) (hy : 0 ≤ y) :
    Double.round negative x hx = Double.round negative y hy := by
  subst hxy
  rfl

/-- A number is written with digits. -/
theorem isNumeric_size (n : Nat) : ∀ c ∈ Nat.toDigits 10 n, IsNumeric c :=
  fun _ hc => Or.inl (Nat.isDigit_of_mem_toDigits (by omega) (by omega) hc)

/-- A sign is none or a minus. -/
theorem isNumeric_sign (negative : Prop) [Decidable negative] :
    ∀ c ∈ (if negative then ['-'] else []), IsNumeric c := by
  intro c hc
  split at hc
  · rw [List.mem_singleton.mp hc]
    decide
  · cases hc

/-- An `int` is written with digits and a sign. -/
theorem isNumeric_int (i : Int) : ∀ c ∈ intText i, IsNumeric c := by
  intro c hc
  rcases List.mem_append.mp hc with hsign | hdigit
  · exact isNumeric_sign _ c hsign
  · exact isNumeric_size _ c hdigit

/-- A double is written as a numeral with a sign. -/
theorem isNumeric_double (x : Double) : ∀ c ∈ x.text, IsNumeric c := by
  intro c hc
  rcases List.mem_append.mp hc with hsign | hnumeral
  · exact isNumeric_sign _ c hsign
  · exact isNumeric_text (wellFormed_general (by omega) x.nonneg) c hnumeral

/-- **A double reads back as its six digits.** -/
theorem double_text (x : Double) {rest : List Char} (hrest : EndsNumeral rest) :
    extractDouble (x.text ++ rest) = x.reread.map fun y => (y, rest) := by
  have hformed := wellFormed_general (p := 6) (by omega) x.nonneg
  have hsign := readSign_signed x.negative (numeral_head hformed rest)
  have hread := readNumeral_text hformed hrest
  have hvalue : (general 6 x.magnitude).value = Double.sixDigits x.magnitude :=
    value_general (by omega) x.nonneg
  rw [Double.text, List.append_assoc]
  simp only [extractDouble, hsign, hread, Option.bind_some]
  rw [Double.reread,
    round_congr x.negative hvalue (value_nonneg _) (Double.sixDigits_nonneg x.nonneg)]

end TextStreams

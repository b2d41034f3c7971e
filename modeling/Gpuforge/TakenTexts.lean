import Gpuforge.TextStreams

/-!
# What an extraction takes

An extraction of a number takes a text from the front of what is left.  It takes the same
in front of anything else that a number does not go on with (`TakesFront`), so a text and
what follows it can be looked at apart.

Digits, numerals and the extractions of the streams are readers of this kind.
-/

namespace TakenTexts

open DecimalText TextStreams

variable {α : Type} {text taken rest : List Char}

/-- What is taken from the front of a text is taken in front of any other end. -/
def TakesFront (ends : List Char → Prop) (read : List Char → Option (α × List Char)) : Prop :=
  ∀ {text a rest}, read text = some (a, rest) →
    ∃ taken, text = taken ++ rest ∧ ∀ rest', ends rest' → read (taken ++ rest') = some (a, rest')

section reader

variable {ends : List Char → Prop} {read : List Char → Option (α × List Char)} {a : α}

/-- A reader that takes a text whole takes it in front of an end. -/
theorem TakesFront.append (hread : TakesFront ends read) (h : read taken = some (a, []))
    (hrest : ends rest) : read (taken ++ rest) = some (a, rest) := by
  obtain ⟨taken', htext, hgoes⟩ := hread h
  rw [htext, List.append_nil]
  exact hgoes rest hrest

/-- What is left of a text is left of it in front of any other end, also if more than
needed is asked of the end. -/
theorem TakesFront.left (hread : TakesFront ends read) {ends' : List Char → Prop}
    (hends : ∀ {rest}, ends' rest → ends rest) (h : (read text).map Prod.snd = some rest) :
    ∃ taken, text = taken ++ rest ∧
      ∀ rest', ends' rest' → (read (taken ++ rest')).map Prod.snd = some rest' := by
  obtain ⟨⟨a, left⟩, ha, hleft⟩ := Option.map_eq_some_iff.mp h
  cases hleft
  obtain ⟨taken, htext, hgoes⟩ := hread ha
  refine ⟨taken, htext, ?_⟩
  intro rest' hrest'
  rw [hgoes rest' (hends hrest'), Option.map_some]

/-- A text that is taken whole has a value. -/
theorem takenWhole_iff : (read text).map Prod.snd = some [] ↔ ∃ a, read text = some (a, []) := by
  constructor
  · intro h
    obtain ⟨⟨a, left⟩, ha, hleft⟩ := Option.map_eq_some_iff.mp h
    cases hleft
    exact ⟨a, ha⟩
  · intro h
    obtain ⟨a, ha⟩ := h
    rw [ha, Option.map_some]

end reader

/-! ## Digits and signs -/

/-- Digits that were read: they end where no digit follows. -/
theorem readDigits_eq {digits : List Char} (h : readDigits text = some (digits, rest)) :
    text = digits ++ rest ∧ digits ≠ [] ∧ (∀ c ∈ digits, c.isDigit = true) ∧ EndsDigits rest := by
  unfold readDigits at h
  split at h
  · cases h
  · next hne =>
      cases h
      refine ⟨List.takeWhile_append_dropWhile.symm, hne, fun c hc => List.mem_takeWhile_imp hc, ?_⟩
      intro c hc
      have hhead := List.head?_dropWhile_not Char.isDigit text
      rw [Option.mem_def.mp hc] at hhead
      simpa using hhead

/-- The digits at the front of a text, in front of anything but a digit. -/
theorem span_takeWhile (text : List Char) (hrest : EndsDigits rest) :
    (text.takeWhile Char.isDigit ++ rest).takeWhile Char.isDigit = text.takeWhile Char.isDigit ∧
      (text.takeWhile Char.isDigit ++ rest).dropWhile Char.isDigit = rest :=
  span_digits (fun _ hc => List.mem_takeWhile_imp hc) hrest

/-- Nothing ends digits. -/
theorem endsDigits_nil : EndsDigits [] := fun c hc => by cases hc

/-- Digits are taken in front of anything but a digit. -/
theorem takesFront_readDigits : TakesFront EndsDigits readDigits := by
  intro text digits rest h
  obtain ⟨htext, hne, hdigits, _⟩ := readDigits_eq h
  exact ⟨digits, htext, fun rest' hrest' => readDigits_append hne hdigits hrest'⟩

/-- A sign is taken off the front, whatever comes after it. -/
theorem readSign_front (text : List Char) : ∃ sign, text = sign ++ (readSign text).2 ∧
    ∀ body, body.head? = (readSign text).2.head? →
      readSign (sign ++ body) = ((readSign text).1, body) := by
  unfold readSign
  split
  · exact ⟨['-'], rfl, fun body _ => rfl⟩
  · exact ⟨['+'], rfl, fun body _ => rfl⟩
  · next hminus hplus =>
      refine ⟨[], rfl, ?_⟩
      intro body hbody
      rw [List.nil_append]
      split
      · next tail =>
          obtain ⟨tail', htail⟩ := List.head?_eq_some_iff.mp hbody.symm
          exact absurd htail (hminus tail')
      · next tail =>
          obtain ⟨tail', htail⟩ := List.head?_eq_some_iff.mp hbody.symm
          exact absurd htail (hplus tail')
      · rfl

/-- White space goes on to something else. -/
theorem skipSpace_front (text : List Char) : ∃ space, text = space ++ skipSpace text ∧
    (∀ c ∈ space, isSpace c = true) ∧ ∀ c ∈ (skipSpace text).head?, isSpace c = false := by
  refine ⟨text.takeWhile isSpace, List.takeWhile_append_dropWhile.symm,
    fun c hc => List.mem_takeWhile_imp hc, ?_⟩
  intro c hc
  have hhead := List.head?_dropWhile_not isSpace text
  rw [← skipSpace, Option.mem_def.mp hc] at hhead
  simpa using hhead

/-- White space is skipped up to something else. -/
theorem skipSpace_append {space : List Char} (hspace : ∀ c ∈ space, isSpace c = true)
    (hrest : ∀ c ∈ rest.head?, isSpace c = false) : skipSpace (space ++ rest) = rest := by
  rw [skipSpace, List.dropWhile_append_of_pos hspace]
  cases rest with
  | nil => rfl
  | cons c rest => exact skipSpace_cons (hrest c rfl) rest

/-- White space and a sign are taken off the front, whatever comes after them. -/
theorem front (text : List Char) : ∃ front, text = front ++ (readSign (skipSpace text)).2 ∧
    ∀ body, body.head? = (readSign (skipSpace text)).2.head? →
      readSign (skipSpace (front ++ body)) = ((readSign (skipSpace text)).1, body) := by
  obtain ⟨space, htext, hspace, hhead⟩ := skipSpace_front text
  obtain ⟨sign, hsign, hbody⟩ := readSign_front (skipSpace text)
  refine ⟨space ++ sign, by rw [List.append_assoc, ← hsign, ← htext], ?_⟩
  intro body hsame
  have hfirst : (sign ++ body).head? = (skipSpace text).head? := by
    conv_rhs => rw [hsign]
    rw [List.head?_append, List.head?_append, hsame]
  rw [List.append_assoc, skipSpace_append hspace (by rw [hfirst]; exact hhead), hbody body hsame]

/-! ## Numerals -/

/-- Nothing ends a numeral. -/
theorem endsNumeral_nil : EndsNumeral [] := fun c hc => by cases hc

/-- A fraction starts with a point and goes up to something that is no digit. -/
theorem readFraction_front (text : List Char) : ∃ taken, text = taken ++ (readFraction text).2 ∧
    (∀ c ∈ taken.head?, c = '.') ∧ ∀ rest, (∀ c ∈ rest.head?, c.isDigit = false ∧ c ≠ '.') →
      readFraction (taken ++ rest) = ((readFraction text).1, rest) := by
  unfold readFraction
  split
  · next digits =>
      refine ⟨'.' :: digits.takeWhile Char.isDigit, ?_, ?_, ?_⟩
      · rw [List.cons_append, List.takeWhile_append_dropWhile]
      · intro c hc
        cases hc
        rfl
      · intro rest hrest
        obtain ⟨htake, hdrop⟩ := span_takeWhile digits fun c hc => (hrest c hc).1
        simp only [List.cons_append, htake, hdrop]
  · refine ⟨[], rfl, by simp, ?_⟩
    intro rest hrest
    rw [List.nil_append]
    split
    · exact absurd rfl (hrest '.' rfl).2
    · rfl

/-- An exponent starts with its letter and is read in front of anything but its digits. -/
theorem readExponent_front {e : Option Int} (h : readExponent text = some (e, rest)) :
    ∃ taken, text = taken ++ rest ∧ (∀ c ∈ taken.head?, c = 'e' ∨ c = 'E') ∧
      ∀ rest', EndsNumeral rest' → readExponent (taken ++ rest') = some (e, rest') := by
  cases text with
  | nil =>
      cases h
      exact ⟨[], rfl, by simp, fun rest' hrest' =>
        readExponent_text none hrest'⟩
  | cons c tail =>
      rw [readExponent] at h
      split at h
      · next hletter =>
          obtain ⟨⟨digits, left⟩, hdigits, heq⟩ := Option.map_eq_some_iff.mp h
          cases heq
          obtain ⟨sign, htail, hsign⟩ := readSign_front tail
          obtain ⟨hbody, hne, hall, _⟩ := readDigits_eq hdigits
          refine ⟨c :: (sign ++ digits), ?_, ?_, ?_⟩
          · rw [List.cons_append, List.append_assoc, ← hbody, ← htail]
          · intro c' hc'
            cases hc'
            exact hletter
          · intro rest' hrest'
            have hhead : (digits ++ rest').head? = (readSign tail).2.head? := by
              rw [hbody, List.head?_append_of_ne_nil _ hne, List.head?_append_of_ne_nil _ hne]
            have hread := readDigits_append hne hall fun c hc => (hrest' c hc).1
            rw [List.cons_append, readExponent, if_pos hletter, List.append_assoc,
              hsign _ hhead, hread]
            rfl
      · cases h
        exact ⟨[], rfl, by simp, fun rest' hrest' =>
          readExponent_text none hrest'⟩

/-- A numeral is taken in front of anything that it does not go on with. -/
theorem takesFront_readNumeral : TakesFront EndsNumeral readNumeral := by
  intro text n rest h
  unfold readNumeral at h
  dsimp only at h
  split at h
  · cases h
  · next hdigits =>
      obtain ⟨⟨e, left⟩, hexponent, heq⟩ := Option.map_eq_some_iff.mp h
      cases heq
      obtain ⟨fraction, hfraction, hpoint, hgoes⟩ :=
        readFraction_front (text.dropWhile Char.isDigit)
      obtain ⟨exponent, htail, hletter, hgoes'⟩ := readExponent_front hexponent
      refine ⟨text.takeWhile Char.isDigit ++ (fraction ++ exponent), ?_, ?_⟩
      · rw [List.append_assoc, List.append_assoc, ← htail, ← hfraction,
          List.takeWhile_append_dropWhile]
      · intro rest' hrest'
        have hlast : ∀ c ∈ (exponent ++ rest').head?, c.isDigit = false ∧ c ≠ '.' := by
          intro c hc
          rw [List.head?_append] at hc
          cases hexp : exponent.head? with
          | none =>
              rw [hexp] at hc
              exact ⟨(hrest' c hc).1, (hrest' c hc).2.1⟩
          | some c' =>
              rw [hexp] at hc
              cases hc
              rcases hletter c hexp with hsmall | hlarge
              · rw [hsmall]
                exact ⟨rfl, by decide⟩
              · rw [hlarge]
                exact ⟨rfl, by decide⟩
        have hends : EndsDigits (fraction ++ (exponent ++ rest')) := by
          intro c hc
          rw [List.head?_append] at hc
          cases hfirst : fraction.head? with
          | none =>
              rw [hfirst] at hc
              exact (hlast c hc).1
          | some c' =>
              rw [hfirst] at hc
              cases hc
              rw [hpoint c hfirst]
              rfl
        obtain ⟨htake, hdrop⟩ := span_takeWhile text hends
        rw [List.append_assoc, List.append_assoc, readNumeral]
        simp only [htake, hdrop, hgoes _ hlast, hgoes' _ hrest', if_neg hdigits, Option.map_some]

/-! ## Extractions -/

/-- An extraction of a number: after white space and a sign comes what a reader takes, and
the number must have a value. -/
def signed {β : Type} (read : List Char → Option (β × List Char)) (value : Bool → β → Option α) :
    Extract α := fun text =>
  (read (readSign (skipSpace text)).2).bind fun taken =>
    (value (readSign (skipSpace text)).1 taken.1).map fun a => (a, taken.2)

/-- Such an extraction takes its text in front of whatever ends what it reads. -/
theorem takesFront_signed {β : Type} {ends : List Char → Prop}
    {read : List Char → Option (β × List Char)} (hread : TakesFront ends read)
    (hends : ends []) (hnil : read [] = none) (value : Bool → β → Option α) :
    TakesFront ends (signed read value) := by
  intro text a rest h
  obtain ⟨⟨b, left⟩, hb, hvalue⟩ := Option.bind_eq_some_iff.mp h
  obtain ⟨a', ha, heq⟩ := Option.map_eq_some_iff.mp hvalue
  cases heq
  obtain ⟨front, htext, hfront⟩ := front text
  obtain ⟨taken, hbody, hgoes⟩ := hread hb
  have hne : taken ≠ [] := by
    intro htaken
    have hnothing := hgoes [] hends
    rw [htaken, List.nil_append, hnil] at hnothing
    cases hnothing
  refine ⟨front ++ taken, by rw [List.append_assoc, ← hbody, ← htext], ?_⟩
  intro rest' hrest'
  have hhead : (taken ++ rest').head? = (readSign (skipSpace text)).2.head? := by
    rw [hbody, List.head?_append_of_ne_nil _ hne, List.head?_append_of_ne_nil _ hne]
  rw [List.append_assoc, signed]
  simp only [hfront _ hhead, hgoes rest' hrest', ha, Option.bind_some, Option.map_some]

/-- A number starts with neither white space nor a plus. -/
def PlainFront (text : List Char) : Prop := ∀ c ∈ text.head?, isSpace c = false ∧ c ≠ '+'

/-- What a reader takes starts with neither white space nor a sign. -/
def Unsigned {β : Type} (read : List Char → Option (β × List Char)) : Prop :=
  ∀ {body b rest}, read body = some (b, rest) →
    ∃ c tail, body = c :: tail ∧ isSpace c = false ∧ c ≠ '+' ∧ c ≠ '-'

/-- An extraction from a plain front takes a minus, if there is one, and what the reader
takes. -/
theorem signed_plain_iff {β : Type} {read : List Char → Option (β × List Char)}
    (hread : Unsigned read) (value : Bool → β → Option α) {a : α} :
    (signed read value text = some (a, rest) ∧ PlainFront text) ↔
      ∃ negative body b, text = (if negative then ['-'] else []) ++ body ∧
        read body = some (b, rest) ∧ value negative b = some a := by
  constructor
  · intro h
    obtain ⟨h, hplain⟩ := h
    obtain ⟨⟨b, left⟩, hb, hvalue⟩ := Option.bind_eq_some_iff.mp h
    obtain ⟨a', ha, heq⟩ := Option.map_eq_some_iff.mp hvalue
    cases heq
    have hskip : skipSpace text = text := by
      cases text with
      | nil => rfl
      | cons c tail => exact skipSpace_cons (hplain c rfl).1 tail
    rw [hskip] at hb ha
    refine ⟨(readSign text).1, (readSign text).2, b, ?_, hb, ha⟩
    unfold readSign
    split
    · rfl
    · exact absurd rfl (hplain '+' rfl).2
    · rfl
  · intro h
    obtain ⟨negative, body, b, htext, hb, ha⟩ := h
    obtain ⟨c, tail, hbody, hspace, hplus, hminus⟩ := hread hb
    have hsign : readSign (skipSpace text) = (negative, body) ∧ PlainFront text := by
      rw [htext, hbody]
      cases negative with
      | true =>
          rw [if_pos rfl, List.singleton_append, skipSpace_cons (by decide), readSign]
          refine ⟨rfl, ?_⟩
          intro c' hc'
          cases hc'
          decide
      | false =>
          rw [if_neg Bool.false_ne_true, List.nil_append, skipSpace_cons hspace]
          refine ⟨?_, ?_⟩
          · unfold readSign
            split
            · next heq => exact absurd (List.cons.inj heq).1 hminus
            · next heq => exact absurd (List.cons.inj heq).1 hplus
            · rfl
          · intro c' hc'
            cases hc'
            exact ⟨hspace, hplus⟩
    refine ⟨?_, hsign.2⟩
    rw [signed]
    simp only [hsign.1, hb, ha, Option.bind_some, Option.map_some]

/-- A digit is neither white space nor a sign. -/
theorem digit_plain {c : Char} (hc : c.isDigit = true) : isSpace c = false ∧ c ≠ '+' ∧ c ≠ '-' := by
  refine ⟨isSpace_digit hc, ?_, ?_⟩
  · intro heq
    subst heq
    exact absurd hc (by decide)
  · intro heq
    subst heq
    exact absurd hc (by decide)

theorem unsigned_readDigits : Unsigned readDigits := by
  intro body digits rest h
  obtain ⟨hbody, hne, hdigits, _⟩ := readDigits_eq h
  cases digits with
  | nil => exact absurd rfl hne
  | cons c tail => exact ⟨c, tail ++ rest, hbody, digit_plain (hdigits c List.mem_cons_self)⟩

theorem unsigned_readNumeral : Unsigned readNumeral := by
  intro body n rest h
  cases body with
  | nil => cases h
  | cons c tail =>
      refine ⟨c, tail, rfl, ?_⟩
      cases hc : c.isDigit with
      | true => exact digit_plain hc
      | false =>
          -- without digits in front there is a point
          by_cases hpoint : c = '.'
          · rw [hpoint]
            decide
          · unfold readNumeral readFraction at h
            simp [hc, hpoint] at h

/-- The value of digits as a `size_t`, negated after a minus. -/
def sizeValue (negative : Bool) (digits : List Char) : Option Nat :=
  let n := Nat.ofDigitChars 10 digits 0
  if n < 2 ^ 64 then some (if negative then (2 ^ 64 - n) % 2 ^ 64 else n) else none

/-- The value of digits as an `int`. -/
def intValue (negative : Bool) (digits : List Char) : Option Int :=
  let n : Int := Nat.ofDigitChars 10 digits 0
  let i := if negative then -n else n
  if -2 ^ 31 ≤ i ∧ i < 2 ^ 31 then some i else none

/-- The values in the range of an `int`. -/
theorem intValue_eq {negative : Bool} {digits : List Char} {i : Int} :
    intValue negative digits = some i ↔
      (if negative then -(Nat.ofDigitChars 10 digits 0 : Int) else Nat.ofDigitChars 10 digits 0) =
        i ∧ -2 ^ 31 ≤ i ∧ i < 2 ^ 31 := by
  simp only [intValue]
  generalize (if negative = true then -(Nat.ofDigitChars 10 digits 0 : Int)
    else Nat.ofDigitChars 10 digits 0) = j
  constructor
  · intro h
    split at h
    · next hrange =>
        have hj := Option.some.inj h
        rw [← hj]
        exact ⟨rfl, hrange⟩
    · cases h
  · intro h
    obtain ⟨hj, hrange⟩ := h
    rw [hj, if_pos hrange]

/-- A range check may be made on the value alone, or with what is left next to it. -/
theorem bind_ite {β : Type} (taken : Option (β × List Char)) (inRange : β → Prop)
    [DecidablePred inRange] (value : β → α) :
    (taken.bind fun b => if inRange b.1 then some (value b.1, b.2) else none) =
      taken.bind fun b =>
        (if inRange b.1 then some (value b.1) else none).map fun a => (a, b.2) := by
  cases taken with
  | none => rfl
  | some b =>
      rw [Option.bind_some, Option.bind_some, apply_ite (Option.map fun a => (a, b.2)),
        Option.map_some, Option.map_none]

theorem extractSize_eq : extractSize = signed readDigits sizeValue := by
  funext text
  let number (digits : List Char) : Nat := Nat.ofDigitChars 10 digits 0
  exact bind_ite _ (fun digits => number digits < 2 ^ 64) fun digits =>
    if (readSign (skipSpace text)).1 then (2 ^ 64 - number digits) % 2 ^ 64 else number digits

theorem extractInt_eq : extractInt = signed readDigits intValue := by
  funext text
  let value (digits : List Char) : Int :=
    if (readSign (skipSpace text)).1 then -(Nat.ofDigitChars 10 digits 0 : Int)
    else Nat.ofDigitChars 10 digits 0
  exact bind_ite _ (fun digits => -2 ^ 31 ≤ value digits ∧ value digits < 2 ^ 31) value

theorem extractDouble_eq : extractDouble =
    signed readNumeral fun negative n => Double.round negative n.value (value_nonneg n) := rfl

theorem takesFront_size : TakesFront EndsDigits extractSize := by
  rw [extractSize_eq]
  exact takesFront_signed takesFront_readDigits endsDigits_nil rfl _

theorem takesFront_int : TakesFront EndsDigits extractInt := by
  rw [extractInt_eq]
  exact takesFront_signed takesFront_readDigits endsDigits_nil rfl _

theorem takesFront_double : TakesFront EndsNumeral extractDouble := by
  rw [extractDouble_eq]
  exact takesFront_signed takesFront_readNumeral endsNumeral_nil rfl _

/-- A character is taken with the white space before it. -/
theorem extractChar_eq {c : Char} : extractChar text = some (c, rest) ↔
    ∃ space, text = space ++ c :: rest ∧ (∀ s ∈ space, isSpace s = true) ∧ isSpace c = false := by
  constructor
  · intro h
    obtain ⟨space, htext, hspace, hhead⟩ := skipSpace_front text
    unfold extractChar at h
    split at h
    · cases h
    · next hskip =>
        cases h
        rw [hskip] at htext hhead
        exact ⟨space, htext, hspace, hhead c rfl⟩
  · intro h
    obtain ⟨space, rfl, hspace, hc⟩ := h
    have hhead : ∀ c' ∈ (c :: rest).head?, isSpace c' = false := by
      intro c' hc'
      cases hc'
      exact hc
    rw [extractChar, skipSpace_append hspace hhead]

end TakenTexts

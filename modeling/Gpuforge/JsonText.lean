import Gpuforge.DecimalText

/-!
# JSON texts

The grammar of RFC 8259 as a relation between a text and the value that it stands for.
A string stands for its UTF-16 code units, which is what its escapes count in; a number
stays as it is written.  White space may stand around every value and every name.

A small machine reads a text from left to right and knows whether it is inside of a
string.  It gets through every text of the grammar (`scan_of_derives`), and it stops at
a control character in a string: no text with one there stands for anything.
-/

namespace JsonText

open DecimalText

inductive Json where
  | null
  | bool (b : Bool)
  | number (text : List Char)
  | string (units : List Nat)
  | array (items : List Json)
  | object (members : List (List Nat × Json))

/-- The code units of a character. -/
def utf16 (c : Char) : List Nat :=
  if c.toNat < 0x10000 then [c.toNat]
  else [0xD800 + (c.toNat - 0x10000) / 0x400, 0xDC00 + (c.toNat - 0x10000) % 0x400]

/-- The code units of a string. -/
def unitsOf (s : String) : List Nat := s.toList.flatMap utf16

/-- The value of a name in an object. -/
def Json.field (name : String) : Json → Option Json
  | .object members => (members.find? fun m => m.1 = unitsOf name).map Prod.snd
  | _ => none

/-! ## Strings -/

/-- What may stand in a string as itself. -/
def Unescaped (c : Char) : Prop := 0x20 ≤ c.toNat ∧ c ≠ '"' ∧ c ≠ '\\'

instance (c : Char) : Decidable (Unescaped c) := by
  unfold Unescaped; infer_instance

/-- The code unit of an escape of two characters. -/
def escapeUnit : Char → Option Nat
  | '"' => some 0x22
  | '\\' => some 0x5C
  | '/' => some 0x2F
  | 'b' => some 0x08
  | 'f' => some 0x0C
  | 'n' => some 0x0A
  | 'r' => some 0x0D
  | 't' => some 0x09
  | _ => none

def hexValue (c : Char) : Option Nat :=
  if '0' ≤ c ∧ c ≤ '9' then some (c.toNat - '0'.toNat)
  else if 'a' ≤ c ∧ c ≤ 'f' then some (c.toNat - 'a'.toNat + 10)
  else if 'A' ≤ c ∧ c ≤ 'F' then some (c.toNat - 'A'.toNat + 10)
  else none

/-- The characters between the quotes of a string and their code units. -/
inductive Chars : List Char → List Nat → Prop
  | nil : Chars [] []
  | unescaped {c : Char} {rest : List Char} {units : List Nat} (hc : Unescaped c)
      (hrest : Chars rest units) : Chars (c :: rest) (utf16 c ++ units)
  | escape {c : Char} {rest : List Char} {u : Nat} {units : List Nat}
      (hc : escapeUnit c = some u) (hrest : Chars rest units) :
      Chars ('\\' :: c :: rest) (u :: units)
  | unicode {a b c d : Char} {rest : List Char} {w x y z : Nat} {units : List Nat}
      (ha : hexValue a = some w) (hb : hexValue b = some x) (hc : hexValue c = some y)
      (hd : hexValue d = some z) (hrest : Chars rest units) :
      Chars ('\\' :: 'u' :: a :: b :: c :: d :: rest)
        ((((w * 16 + x) * 16 + y) * 16 + z) :: units)

/-- Characters in quotes. -/
def quoted (chars : List Char) : List Char := '"' :: chars ++ ['"']

/-! ## Numbers -/

/-- `1*DIGIT`. -/
def Digits (text : List Char) : Prop := text ≠ [] ∧ ∀ c ∈ text, c.isDigit = true

inductive IsInt : List Char → Prop
  | zero : IsInt ['0']
  | digits {c : Char} {rest : List Char} (hne : c ≠ '0')
      (hdigits : ∀ d ∈ c :: rest, d.isDigit = true) : IsInt (c :: rest)

inductive IsFrac : List Char → Prop
  | absent : IsFrac []
  | present {digits : List Char} (h : Digits digits) : IsFrac ('.' :: digits)

inductive IsExp : List Char → Prop
  | absent : IsExp []
  | present {e : Char} {sign digits : List Char} (he : e = 'e' ∨ e = 'E')
      (hsign : sign = [] ∨ sign = ['+'] ∨ sign = ['-']) (h : Digits digits) :
      IsExp (e :: sign ++ digits)

/-- `[ minus ] int [ frac ] [ exp ]`. -/
inductive IsNumber : List Char → Prop
  | parts {minus int frac exp : List Char} (hminus : minus = [] ∨ minus = ['-'])
      (hint : IsInt int) (hfrac : IsFrac frac) (hexp : IsExp exp) :
      IsNumber (minus ++ int ++ frac ++ exp)

/-! ## Texts -/

/-- White space. -/
def Ws (text : List Char) : Prop := ∀ c ∈ text, c ∈ [' ', '\t', '\n', '\r']

/-- What a piece of text is: a value, the values of an array or the members of an
object, with what they stand for. -/
inductive Part where
  | value (j : Json)
  | elements (items : List Json)
  | members (members : List (List Nat × Json))

inductive Derives : Part → List Char → Prop
  | null : Derives (.value .null) ['n', 'u', 'l', 'l']
  | false : Derives (.value (.bool false)) ['f', 'a', 'l', 's', 'e']
  | true : Derives (.value (.bool true)) ['t', 'r', 'u', 'e']
  | number {text : List Char} (h : IsNumber text) : Derives (.value (.number text)) text
  | string {text : List Char} {units : List Nat} (h : Chars text units) :
      Derives (.value (.string units)) (quoted text)
  | emptyArray {space : List Char} (h : Ws space) :
      Derives (.value (.array [])) ('[' :: space ++ [']'])
  | array {items : List Json} {text : List Char} (h : Derives (.elements items) text) :
      Derives (.value (.array items)) ('[' :: text ++ [']'])
  | emptyObject {space : List Char} (h : Ws space) :
      Derives (.value (.object [])) ('\x7b' :: space ++ ['\x7d'])
  | object {members : List (List Nat × Json)} {text : List Char}
      (h : Derives (.members members) text) :
      Derives (.value (.object members)) ('\x7b' :: text ++ ['\x7d'])
  | lastElement {j : Json} {before text after : List Char} (hbefore : Ws before)
      (h : Derives (.value j) text) (hafter : Ws after) :
      Derives (.elements [j]) (before ++ text ++ after)
  | element {j : Json} {items : List Json} {before text after more : List Char}
      (hbefore : Ws before) (h : Derives (.value j) text) (hafter : Ws after)
      (hmore : Derives (.elements items) more) :
      Derives (.elements (j :: items)) (before ++ text ++ after ++ ',' :: more)
  | lastMember {units : List Nat} {j : Json} {before name colon start text after : List Char}
      (hbefore : Ws before) (hname : Chars name units) (hcolon : Ws colon) (hstart : Ws start)
      (h : Derives (.value j) text) (hafter : Ws after) :
      Derives (.members [(units, j)])
        (before ++ quoted name ++ colon ++ ':' :: start ++ text ++ after)
  | member {units : List Nat} {j : Json} {members : List (List Nat × Json)}
      {before name colon start text after more : List Char}
      (hbefore : Ws before) (hname : Chars name units) (hcolon : Ws colon) (hstart : Ws start)
      (h : Derives (.value j) text) (hafter : Ws after) (hmore : Derives (.members members) more) :
      Derives (.members ((units, j) :: members))
        (before ++ quoted name ++ colon ++ ':' :: start ++ text ++ after ++ ',' :: more)

/-- `JSON-text = ws value ws`. -/
def IsText (text : List Char) (j : Json) : Prop :=
  ∃ before body after, text = before ++ body ++ after ∧ Ws before ∧ Ws after ∧
    Derives (.value j) body

/-! ## The quote machine -/

inductive Place where
  | outside
  | inside
  | escaped
  deriving DecidableEq, Repr

/-- One character; `none` is a control character in a string. -/
def scanStep : Place → Char → Option Place
  | .outside, c => some (if c = '"' then .inside else .outside)
  | .inside, c =>
      if c.toNat < 0x20 then none
      else some (if c = '"' then .outside else if c = '\\' then .escaped else .inside)
  | .escaped, c => if c.toNat < 0x20 then none else some .inside

def scan (place : Place) (text : List Char) : Option Place := text.foldlM scanStep place

/-- A text is read piece by piece. -/
theorem scan_append (place : Place) (left right : List Char) :
    scan place (left ++ right) = (scan place left).bind fun p => scan p right := by
  rw [scan, List.foldlM_append]
  rfl

/-- A piece leads to where the rest is read. -/
theorem scan_piece {place place' : Place} {piece : List Char}
    (h : scan place piece = some place') (rest : List Char) :
    scan place (piece ++ rest) = scan place' rest := by
  rw [scan_append, h, Option.bind_some]

/-- A text is read character by character. -/
theorem scan_cons (place : Place) (c : Char) (rest : List Char) :
    scan place (c :: rest) = (scanStep place c).bind fun p => scan p rest := by
  rw [scan, List.foldlM_cons]
  rfl

/-- A quote opens a string. -/
theorem scan_open (rest : List Char) : scan .outside ('"' :: rest) = scan .inside rest :=
  scan_cons ..

/-- A quote closes a string. -/
theorem scan_close (rest : List Char) : scan .inside ('"' :: rest) = scan .outside rest :=
  scan_cons ..

/-- A backslash in a string escapes. -/
theorem scan_backslash (rest : List Char) : scan .inside ('\\' :: rest) = scan .escaped rest :=
  scan_cons ..

/-- Outside of strings other characters do not matter. -/
theorem scan_plain {c : Char} (hc : c ≠ '"') (rest : List Char) :
    scan .outside (c :: rest) = scan .outside rest := by
  rw [scan_cons, scanStep, if_neg hc, Option.bind_some]

/-- Inside of a string its own characters stay there. -/
theorem scan_unescaped {c : Char} (hc : Unescaped c) (rest : List Char) :
    scan .inside (c :: rest) = scan .inside rest := by
  obtain ⟨hcontrol, hquote, hbackslash⟩ := hc
  rw [scan_cons, scanStep, if_neg (by omega), if_neg hquote, if_neg hbackslash,
    Option.bind_some]

/-- A text without quotes stays outside of strings. -/
theorem scan_outside {text : List Char} (h : '"' ∉ text) :
    scan .outside text = some .outside := by
  induction text with
  | nil => rfl
  | cons c rest ih =>
      obtain ⟨hc, hrest⟩ := not_or.mp fun hor => h (List.mem_cons.mpr hor)
      rw [scan_plain (Ne.symm hc), ih hrest]

/-- A hexadecimal digit is such a character. -/
theorem unescaped_hex {c : Char} {v : Nat} (h : hexValue c = some v) : Unescaped c := by
  have hrange : 48 ≤ c.toNat ∧ c.toNat ≤ 102 ∧ c.toNat ≠ 92 := by
    simp only [hexValue, Char.le_def, UInt32.le_iff_toNat_le] at h
    have hvalue : c.val.toNat = c.toNat := rfl
    have h0 : ('0' : Char).val.toNat = 48 := rfl
    have h9 : ('9' : Char).val.toNat = 57 := rfl
    have ha : ('a' : Char).val.toNat = 97 := rfl
    have hf : ('f' : Char).val.toNat = 102 := rfl
    have hA : ('A' : Char).val.toNat = 65 := rfl
    have hF : ('F' : Char).val.toNat = 70 := rfl
    split at h
    · omega
    · split at h
      · omega
      · split at h
        · omega
        · cases h
  refine ⟨by omega, ?_, ?_⟩
  · intro hquote
    subst hquote
    exact absurd hrange.1 (by decide)
  · intro hbackslash
    subst hbackslash
    exact hrange.2.2 rfl

/-- An escape goes back to the string. -/
theorem scan_escape {c : Char} {u : Nat} (h : escapeUnit c = some u) (rest : List Char) :
    scan .escaped (c :: rest) = scan .inside rest := by
  rw [scan_cons]
  unfold escapeUnit at h
  split at h <;> first | rfl | cases h

/-- The characters of a string stay inside of it. -/
theorem scan_chars {text : List Char} {units : List Nat} (h : Chars text units) :
    scan .inside text = some .inside := by
  induction h with
  | nil => rfl
  | unescaped hc _ ih => rw [scan_unescaped hc, ih]
  | escape hc _ ih => rw [scan_backslash, scan_escape hc, ih]
  | unicode ha hb hc hd _ ih =>
      have hu : ∀ rest, scan .escaped ('u' :: rest) = scan .inside rest := fun _ => scan_cons ..
      rw [scan_backslash, hu, scan_unescaped (unescaped_hex ha),
        scan_unescaped (unescaped_hex hb), scan_unescaped (unescaped_hex hc),
        scan_unescaped (unescaped_hex hd), ih]

/-- A string ends outside of it. -/
theorem scan_quoted {text : List Char} {units : List Nat} (h : Chars text units) :
    scan .outside (quoted text) = some .outside := by
  rw [quoted, List.cons_append, scan_open, scan_append, scan_chars h, Option.bind_some,
    scan_close]
  rfl

/-- White space has no quotes. -/
theorem scan_ws {text : List Char} (h : Ws text) : scan .outside text = some .outside :=
  scan_outside fun hmem => absurd (h _ hmem) (by decide)

/-- Digits are no quotes. -/
theorem quote_not_mem_digits {text : List Char} (h : ∀ c ∈ text, c.isDigit = true) :
    '"' ∉ text := fun hmem => absurd (h _ hmem) (by decide)

/-- A number has no quotes. -/
theorem quote_not_mem_number {text : List Char} (h : IsNumber text) : '"' ∉ text := by
  cases h with
  | parts hminus hint hfrac hexp =>
      simp only [List.mem_append, not_or]
      refine ⟨⟨⟨?_, ?_⟩, ?_⟩, ?_⟩
      · rcases hminus with rfl | rfl <;> decide
      · cases hint with
        | zero => decide
        | digits _ hdigits => exact quote_not_mem_digits hdigits
      · cases hfrac with
        | absent => decide
        | present h => simpa using quote_not_mem_digits h.2
      · cases hexp with
        | absent => decide
        | present he hsign h =>
            have hdigits := quote_not_mem_digits h.2
            rcases he with rfl | rfl <;> rcases hsign with rfl | rfl | rfl <;> simp [hdigits]

/-- **The machine gets through every derived text.** -/
theorem scan_of_derives {part : Part} {text : List Char} (h : Derives part text) :
    scan .outside text = some .outside := by
  have hcolon := scan_plain (c := ':') (by simp)
  have hcomma := scan_plain (c := ',') (by simp)
  induction h with
  | null => rfl
  | false => rfl
  | true => rfl
  | number h => exact scan_outside (quote_not_mem_number h)
  | string h => exact scan_quoted h
  | emptyArray h =>
      rw [List.cons_append, scan_plain (by simp), scan_append, scan_ws h]
      rfl
  | array _ ih =>
      rw [List.cons_append, scan_plain (by simp), scan_append, ih]
      rfl
  | emptyObject h =>
      rw [List.cons_append, scan_plain (by simp), scan_append, scan_ws h]
      rfl
  | object _ ih =>
      rw [List.cons_append, scan_plain (by simp), scan_append, ih]
      rfl
  | lastElement hbefore _ hafter ih =>
      simp only [scan_append, scan_ws hbefore, scan_ws hafter, ih, Option.bind_some]
  | element hbefore _ hafter _ ih ihmore =>
      simp only [scan_append, scan_ws hbefore, scan_ws hafter, ih, Option.bind_some,
        hcomma, ihmore]
  | lastMember hbefore hname hws hstart _ hafter ih =>
      simp only [scan_append, scan_ws hbefore, scan_quoted hname,
        scan_ws hws, scan_ws hstart, scan_ws hafter, ih, Option.bind_some,
        hcolon]
  | member hbefore hname hws hstart _ hafter _ ih ihmore =>
      simp only [scan_append, scan_ws hbefore, scan_quoted hname,
        scan_ws hws, scan_ws hstart, scan_ws hafter, ih, Option.bind_some,
        hcolon, hcomma, ihmore]

/-- A JSON text leaves every string that it enters. -/
theorem scan_of_isText {text : List Char} {j : Json} (h : IsText text j) :
    scan .outside text = some .outside := by
  obtain ⟨before, body, after, rfl, hbefore, hafter, hbody⟩ := h
  rw [scan_append, scan_append, scan_ws hbefore, Option.bind_some, scan_of_derives hbody,
    Option.bind_some, scan_ws hafter]

/-! ## Texts without white space -/

/-- No white space is white space. -/
theorem ws_nil : Ws [] := fun _ hc => absurd hc List.not_mem_nil

/-- Characters that stand for themselves. -/
theorem chars_of_unescaped {text : List Char} (h : ∀ c ∈ text, Unescaped c) :
    Chars text (text.flatMap utf16) := by
  induction text with
  | nil => exact .nil
  | cons c rest ih =>
      rw [List.flatMap_cons]
      exact .unescaped (h c List.mem_cons_self) (ih fun d hd => h d (List.mem_cons_of_mem _ hd))

/-- A numeral with a sign is a number. -/
theorem isNumber_numeral {minus : List Char} (hminus : minus = [] ∨ minus = ['-']) {n : Numeral}
    (h : n.WellFormed) : IsNumber (minus ++ n.text) := by
  have hwhole : IsInt n.whole := by
    rcases h.leading with hzero | ⟨c, rest, hcons, hne⟩
    · rw [hzero]
      exact .zero
    · have hdigits := h.whole
      rw [hcons] at hdigits ⊢
      exact .digits hne hdigits
  have hfrac : IsFrac (fractionText n.fraction) := by
    unfold fractionText
    split
    · exact .absent
    · next hne => exact .present ⟨hne, h.fraction⟩
  have hexp : IsExp (exponentText n.exponent) := by
    cases n.exponent with
    | none => exact .absent
    | some e =>
        have hsign : [if e < 0 then '-' else '+'] = [] ∨ [if e < 0 then '-' else '+'] = ['+'] ∨
            [if e < 0 then '-' else '+'] = ['-'] := by
          split <;> simp
        exact .present (Or.inl rfl) hsign ⟨by simp, isDigit_exponent e⟩
  rw [Numeral.text, ← List.append_assoc, ← List.append_assoc]
  exact .parts hminus hwhole hfrac hexp

/-- The digits of a number are a number. -/
theorem isNumber_natural (n : Nat) : IsNumber (Nat.toDigits 10 n) := by
  have hformed : (⟨Nat.toDigits 10 n, [], none⟩ : Numeral).WellFormed := by
    refine ⟨fun c hc => Nat.isDigit_of_mem_toDigits (by omega) (by omega) hc, by simp, ?_⟩
    rcases Nat.eq_zero_or_pos n with rfl | hpos
    · exact Or.inl rfl
    · exact Or.inr (head_digits n hpos)
  have hnumber := isNumber_numeral (Or.inl rfl) hformed
  simpa [Numeral.text, fractionText, exponentText] using hnumber

/-- A text of values between commas. -/
theorem derives_elements {β : Type} {item : β → Json} {text : β → List Char} (x : β)
    (xs : List β) (h : ∀ y ∈ x :: xs, Derives (.value (item y)) (text y)) :
    Derives (.elements ((x :: xs).map item)) ([','].intercalate ((x :: xs).map text)) := by
  induction xs generalizing x with
  | nil =>
      have hlast := Derives.lastElement ws_nil (h x List.mem_cons_self) ws_nil
      rw [List.nil_append, List.append_nil] at hlast
      rw [List.map_singleton, List.map_singleton, List.intercalate_singleton]
      exact hlast
  | cons y ys ih =>
      have hmore := Derives.element ws_nil (h x List.mem_cons_self) ws_nil
        (ih y fun z hz => h z (List.mem_cons_of_mem _ hz))
      rw [List.nil_append, List.append_nil] at hmore
      simp only [List.map_cons, List.intercalate_cons_cons, List.append_assoc,
        List.singleton_append] at hmore ⊢
      exact hmore

/-- The last member of an object. -/
theorem derives_lastMember {name text : List Char} {units : List Nat} {j : Json}
    (hname : Chars name units) (h : Derives (.value j) text) :
    Derives (.members [(units, j)]) (quoted name ++ ':' :: text) := by
  have hmember := Derives.lastMember ws_nil hname ws_nil ws_nil h ws_nil
  simpa using hmember

/-- A member of an object, and more. -/
theorem derives_member {name text more : List Char} {units : List Nat} {j : Json}
    {members : List (List Nat × Json)} (hname : Chars name units) (h : Derives (.value j) text)
    (hmore : Derives (.members members) more) :
    Derives (.members ((units, j) :: members)) (quoted name ++ ':' :: text ++ ',' :: more) := by
  have hmember := Derives.member ws_nil hname ws_nil ws_nil h ws_nil hmore
  simpa using hmember

end JsonText

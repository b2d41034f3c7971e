import Gpuforge.JsonText

/-!
# A JSON text stands for one value

The grammar says where white space may stand, not how much of a text a value takes.
What follows a value decides: a comma or the end of its array, object or text, and none
of these can go on with it.  So two derivations that start at the same character take
the same text and give the same value (`derives_unique`), and a text stands for one
value at most (`isText_unique`).
-/

namespace JsonText

/-! ## Pieces -/

/-- A piece of characters of one kind ends where the kind ends. -/
theorem span_unique {P : Char → Prop} {left left' right right' : List Char}
    (hleft : ∀ c ∈ left, P c) (hleft' : ∀ c ∈ left', P c) (hright : ∀ c ∈ right.head?, ¬ P c)
    (hright' : ∀ c ∈ right'.head?, ¬ P c) (h : left ++ right = left' ++ right') :
    left = left' ∧ right = right' := by
  induction left generalizing left' with
  | nil =>
      cases left' with
      | nil => exact ⟨rfl, h⟩
      | cons c left' =>
          have hc : c ∈ right.head? := by
            rw [List.nil_append] at h
            rw [h]
            rfl
          exact absurd (hleft' c List.mem_cons_self) (hright c hc)
  | cons c left ih =>
      cases left' with
      | nil =>
          have hc : c ∈ right'.head? := by
            rw [List.nil_append] at h
            rw [← h]
            rfl
          exact absurd (hleft c List.mem_cons_self) (hright' c hc)
      | cons c' left' =>
          obtain ⟨hc, htail⟩ := List.cons.inj h
          obtain ⟨hsame, hrest⟩ := ih (fun d hd => hleft d (List.mem_cons_of_mem _ hd))
            (fun d hd => hleft' d (List.mem_cons_of_mem _ hd)) htail
          exact ⟨by rw [hc, hsame], hrest⟩

/-- `u` is not the second character of a short escape. -/
theorem escapeUnit_u : escapeUnit 'u' = none := rfl

/-- The characters of a string end at its closing quote. -/
theorem chars_unique {text text' : List Char} {units units' : List Nat} {rest rest' : List Char}
    (h : Chars text units) (h' : Chars text' units')
    (heq : text ++ '"' :: rest = text' ++ '"' :: rest') :
    text = text' ∧ units = units' ∧ rest = rest' := by
  induction h generalizing text' units' with
  | nil =>
      cases h' with
      | nil => exact ⟨rfl, rfl, (List.cons.inj heq).2⟩
      | unescaped hc _ => exact absurd (List.cons.inj heq).1.symm hc.2.1
      | escape _ _ => simp at heq
      | unicode _ _ _ _ _ => simp at heq
  | unescaped hc _ ih =>
      cases h' with
      | nil => exact absurd (List.cons.inj heq).1 hc.2.1
      | unescaped _ hrest' =>
          obtain ⟨rfl, htail⟩ := List.cons.inj heq
          obtain ⟨rfl, rfl, hrest⟩ := ih hrest' htail
          exact ⟨rfl, rfl, hrest⟩
      | escape _ _ => exact absurd (List.cons.inj heq).1 hc.2.2
      | unicode _ _ _ _ _ => exact absurd (List.cons.inj heq).1 hc.2.2
  | escape hc _ ih =>
      cases h' with
      | nil => simp at heq
      | unescaped hc' _ => exact absurd (List.cons.inj heq).1.symm hc'.2.2
      | escape hc' hrest' =>
          simp only [List.cons_append, List.cons.injEq, true_and] at heq
          obtain ⟨rfl, htail⟩ := heq
          obtain ⟨rfl, rfl, hrest⟩ := ih hrest' htail
          exact ⟨rfl, by rw [Option.some.inj (hc.symm.trans hc')], hrest⟩
      | unicode _ _ _ _ _ =>
          simp only [List.cons_append, List.cons.injEq, true_and] at heq
          rw [heq.1, escapeUnit_u] at hc
          cases hc
  | unicode ha hb hc hd _ ih =>
      cases h' with
      | nil => simp at heq
      | unescaped hc' _ => exact absurd (List.cons.inj heq).1.symm hc'.2.2
      | escape hc' _ =>
          simp only [List.cons_append, List.cons.injEq, true_and] at heq
          rw [← heq.1, escapeUnit_u] at hc'
          cases hc'
      | unicode ha' hb' hc' hd' hrest' =>
          simp only [List.cons_append, List.cons.injEq, true_and] at heq
          obtain ⟨rfl, rfl, rfl, rfl, htail⟩ := heq
          obtain ⟨rfl, rfl, hrest⟩ := ih hrest' htail
          exact ⟨rfl, by rw [Option.some.inj (ha.symm.trans ha'),
            Option.some.inj (hb.symm.trans hb'), Option.some.inj (hc.symm.trans hc'),
            Option.some.inj (hd.symm.trans hd')], hrest⟩

/-- A string ends at its closing quote. -/
theorem quoted_unique {text text' : List Char} {units units' : List Nat} {rest rest' : List Char}
    (h : Chars text units) (h' : Chars text' units')
    (heq : quoted text ++ rest = quoted text' ++ rest') :
    text = text' ∧ units = units' ∧ rest = rest' := by
  simp only [quoted, List.cons_append, List.append_assoc, List.cons.injEq, true_and,
    List.nil_append] at heq
  exact chars_unique h h' heq

/-- The characters of a number. -/
def InNumber (c : Char) : Prop := c.isDigit = true ∨ c ∈ ['+', '-', '.', 'e', 'E']

instance (c : Char) : Decidable (InNumber c) := by
  unfold InNumber; infer_instance

/-- A number is written with these characters. -/
theorem inNumber_of_isNumber {text : List Char} (h : IsNumber text) : ∀ c ∈ text, InNumber c := by
  intro c hc
  cases h with
  | parts hminus hint hfrac hexp =>
      simp only [List.mem_append] at hc
      rcases hc with ((hc | hc) | hc) | hc
      · rcases hminus with rfl | rfl
        · cases hc
        · rw [List.mem_singleton.mp hc]
          decide
      · cases hint with
        | zero =>
            rw [List.mem_singleton.mp hc]
            decide
        | digits _ hdigits => exact Or.inl (hdigits c hc)
      · cases hfrac with
        | absent => cases hc
        | present h =>
            rcases List.mem_cons.mp hc with rfl | hc
            · decide
            · exact Or.inl (h.2 c hc)
      · cases hexp with
        | absent => cases hc
        | present he hsign h =>
            simp only [List.mem_append, List.mem_cons] at hc
            rcases hc with (rfl | hc) | hc
            · rcases he with rfl | rfl <;> decide
            · rcases hsign with rfl | rfl | rfl
              · cases hc
              · rw [List.mem_singleton.mp hc]
                decide
              · rw [List.mem_singleton.mp hc]
                decide
            · exact Or.inl (h.2 c hc)

/-! ## Where a value starts -/

/-- The kinds of values. -/
inductive Tag where
  | null
  | bool (b : Bool)
  | number
  | string
  | array
  | object
  deriving DecidableEq, Repr

def Json.tag : Json → Tag
  | .null => .null
  | .bool b => .bool b
  | .number _ => .number
  | .string _ => .string
  | .array _ => .array
  | .object _ => .object

/-- The kind of value that starts with a character. -/
def tagOf (c : Char) : Option Tag :=
  if c = 'n' then some .null
  else if c = 'f' then some (.bool false)
  else if c = 't' then some (.bool true)
  else if c = '"' then some .string
  else if c = '[' then some .array
  else if c = '\x7b' then some .object
  else if c = '-' ∨ c.isDigit = true then some .number
  else none

/-- A number starts with a minus or a digit. -/
theorem head_number {text : List Char} (h : IsNumber text) :
    ∃ c rest, text = c :: rest ∧ (c = '-' ∨ c.isDigit = true) := by
  cases h with
  | @parts minus int frac exp hminus hint _ _ =>
      rcases hminus with rfl | rfl
      · cases hint with
        | zero => exact ⟨'0', frac ++ exp, by simp, Or.inr rfl⟩
        | @digits c rest _ hdigits =>
            exact ⟨c, rest ++ frac ++ exp, by simp, Or.inr (hdigits c List.mem_cons_self)⟩
      · exact ⟨'-', int ++ frac ++ exp, by simp, Or.inl rfl⟩

/-- The first character of a value is of its kind. -/
theorem head_value {part : Part} {text : List Char} (h : Derives part text) :
    ∀ j, part = .value j → ∃ c rest, text = c :: rest ∧ tagOf c = some j.tag := by
  intro j hpart
  subst hpart
  cases h with
  | null => exact ⟨_, _, rfl, rfl⟩
  | false => exact ⟨_, _, rfl, rfl⟩
  | true => exact ⟨_, _, rfl, rfl⟩
  | number h =>
      obtain ⟨c, rest, rfl, hc⟩ := head_number h
      refine ⟨c, rest, rfl, ?_⟩
      have hstart : ∀ d ∈ ['n', 'f', 't', '"', '[', '\x7b'], ¬ (d = '-' ∨ d.isDigit = true) := by
        simp
      have hother : ∀ d ∈ ['n', 'f', 't', '"', '[', '\x7b'], c ≠ d :=
        fun d hd hcd => hstart d hd (hcd ▸ hc)
      simp only [List.forall_mem_cons] at hother
      obtain ⟨h1, h2, h3, h4, h5, h6, _⟩ := hother
      rw [tagOf, if_neg h1, if_neg h2, if_neg h3, if_neg h4, if_neg h5, if_neg h6, if_pos hc]
      rfl
  | string h => exact ⟨_, _, rfl, rfl⟩
  | emptyArray h => exact ⟨_, _, rfl, rfl⟩
  | array h => exact ⟨_, _, rfl, rfl⟩
  | emptyObject h => exact ⟨_, _, rfl, rfl⟩
  | object h => exact ⟨_, _, rfl, rfl⟩

/-- No kind of value starts with white space, a comma or the end of an array or an
object. -/
theorem ne_of_tagOf {c : Char} {tag : Tag} (h : tagOf c = some tag) :
    ∀ d ∈ [' ', '\t', '\n', '\r', ',', ']', '\x7d'], c ≠ d := by
  have hnone : ∀ d ∈ [' ', '\t', '\n', '\r', ',', ']', '\x7d'], tagOf d = none := by
    simp [tagOf]
  intro d hd hcd
  rw [hcd, hnone d hd] at h
  cases h

/-! ## What follows a part -/

/-- What may follow a value: nothing that could go on with a number. -/
def EndsValue (rest : List Char) : Prop := ∀ c ∈ rest.head?, ¬ InNumber c

/-- What follows the values of an array and the members of an object. -/
def Closes : Part → List Char → Prop
  | .value _, rest => EndsValue rest
  | .elements _, rest => ∃ more, rest = ']' :: more
  | .members _, rest => ∃ more, rest = '\x7d' :: more

/-- Two parts of one sort. -/
inductive Alike : Part → Part → Prop
  | value (j j' : Json) : Alike (.value j) (.value j')
  | elements (items items' : List Json) : Alike (.elements items) (.elements items')
  | members (ms ms' : List (List Nat × Json)) : Alike (.members ms) (.members ms')

/-- What ends a value with the white space after it. -/
def Separates (rest : List Char) : Prop := ∃ c more, rest = c :: more ∧ c ∈ [',', ']', '\x7d']

/-- What starts with something else than white space. -/
def NotWs (rest : List Char) : Prop := ∀ c ∈ rest.head?, c ∉ [' ', '\t', '\n', '\r']

/-- A first character decides. -/
theorem notWs_cons {c : Char} (hc : c ∉ [' ', '\t', '\n', '\r']) (rest : List Char) :
    NotWs (c :: rest) := by
  intro d hd
  rw [List.head?_cons, Option.mem_some] at hd
  exact hd ▸ hc

/-- White space ends where something else starts. -/
theorem ws_unique {space space' rest rest' : List Char} (hspace : Ws space) (hspace' : Ws space')
    (hrest : NotWs rest) (hrest' : NotWs rest') (heq : space ++ rest = space' ++ rest') :
    space = space' ∧ rest = rest' :=
  span_unique hspace hspace' hrest hrest' heq

/-- Separators are no white space. -/
theorem Separates.notWs {rest : List Char} (h : Separates rest) : NotWs rest := by
  obtain ⟨c, more, rfl, hc⟩ := h
  have hne : ∀ d ∈ [',', ']', '\x7d'], d ∉ [' ', '\t', '\n', '\r'] := by simp
  exact notWs_cons (hne c hc) more

/-- White space and then a separator end a value. -/
theorem Separates.endsValue {rest : List Char} (h : Separates rest) {space : List Char}
    (hspace : Ws space) : EndsValue (space ++ rest) := by
  obtain ⟨c, more, rfl, hc⟩ := h
  have hspaces : ∀ d ∈ [' ', '\t', '\n', '\r'], ¬ InNumber d := by simp [InNumber]
  have hseparators : ∀ d ∈ [',', ']', '\x7d'], ¬ InNumber d := by simp [InNumber]
  intro d hd
  cases space with
  | nil =>
      rw [List.nil_append, List.head?_cons, Option.mem_some] at hd
      exact hd ▸ hseparators c hc
  | cons e space =>
      rw [List.cons_append, List.head?_cons, Option.mem_some] at hd
      exact hd ▸ hspaces e (hspace e List.mem_cons_self)

/-- Values are no white space. -/
theorem notWs_value {j : Json} {text : List Char} (h : Derives (.value j) text)
    (rest : List Char) : NotWs (text ++ rest) := by
  obtain ⟨c, more, rfl, htag⟩ := head_value h j rfl
  refine notWs_cons ?_ (more ++ rest)
  intro hspace
  have hmem : c ∈ [' ', '\t', '\n', '\r', ',', ']', '\x7d'] := by
    simp only [List.mem_cons] at hspace ⊢
    tauto
  exact ne_of_tagOf htag c hmem rfl

/-- A quote is no white space. -/
theorem notWs_quoted (chars rest : List Char) : NotWs (quoted chars ++ rest) :=
  notWs_cons (by simp) _

/-- A value between white space, up to what separates it. -/
theorem padded_unique {j j' : Json} {before before' text text' after after' rest rest' : List Char}
    (hvalue : ∀ {s s' : List Char}, EndsValue s → EndsValue s' → text ++ s = text' ++ s' →
      text = text' ∧ j = j')
    (h : Derives (.value j) text) (h' : Derives (.value j') text') (hbefore : Ws before)
    (hbefore' : Ws before') (hafter : Ws after) (hafter' : Ws after') (hrest : Separates rest)
    (hrest' : Separates rest')
    (heq : before ++ text ++ after ++ rest = before' ++ text' ++ after' ++ rest') :
    before ++ text ++ after = before' ++ text' ++ after' ∧ j = j' ∧ rest = rest' := by
  simp only [List.append_assoc] at heq
  obtain ⟨rfl, hvalues⟩ :=
    ws_unique hbefore hbefore' (notWs_value h _) (notWs_value h' _) heq
  obtain ⟨rfl, rfl⟩ := hvalue (hrest.endsValue hafter) (hrest'.endsValue hafter') hvalues
  obtain ⟨rfl, rfl⟩ := ws_unique hafter hafter' hrest.notWs hrest'.notWs
    (List.append_cancel_left hvalues)
  exact ⟨rfl, rfl, rfl⟩

/-- A name and a value, up to what separates them. -/
theorem named_unique {j j' : Json} {units units' : List Nat}
    {before before' name name' colon colon' start start' text text' after after' rest rest' :
      List Char}
    (hvalue : ∀ {s s' : List Char}, EndsValue s → EndsValue s' → text ++ s = text' ++ s' →
      text = text' ∧ j = j')
    (h : Derives (.value j) text) (h' : Derives (.value j') text') (hbefore : Ws before)
    (hbefore' : Ws before') (hname : Chars name units) (hname' : Chars name' units')
    (hcolon : Ws colon) (hcolon' : Ws colon') (hstart : Ws start) (hstart' : Ws start')
    (hafter : Ws after) (hafter' : Ws after') (hrest : Separates rest)
    (hrest' : Separates rest')
    (heq : before ++ quoted name ++ colon ++ ':' :: start ++ text ++ after ++ rest =
      before' ++ quoted name' ++ colon' ++ ':' :: start' ++ text' ++ after' ++ rest') :
    before ++ quoted name ++ colon ++ ':' :: start ++ text ++ after =
        before' ++ quoted name' ++ colon' ++ ':' :: start' ++ text' ++ after' ∧
      units = units' ∧ j = j' ∧ rest = rest' := by
  simp only [List.append_assoc, List.cons_append] at heq
  obtain ⟨rfl, hnames⟩ := ws_unique hbefore hbefore' (notWs_quoted _ _) (notWs_quoted _ _) heq
  obtain ⟨rfl, rfl, hcolons⟩ := quoted_unique hname hname' hnames
  obtain ⟨rfl, hsigns⟩ := ws_unique hcolon hcolon' (notWs_cons (by simp) _)
    (notWs_cons (by simp) _) hcolons
  have hpadded := (List.cons.inj hsigns).2
  simp only [← List.append_assoc] at hpadded
  obtain ⟨hsame, rfl, rfl⟩ := padded_unique hvalue h h' hstart hstart' hafter hafter' hrest
    hrest' hpadded
  refine ⟨?_, rfl, rfl, rfl⟩
  simp only [List.append_assoc, List.cons_append] at hsame ⊢
  rw [hsame]

/-! ## Texts -/

/-- Values that start alike are of one kind. -/
theorem same_tag {j j' : Json} {text text' rest rest' : List Char} (h : Derives (.value j) text)
    (h' : Derives (.value j') text') (heq : text ++ rest = text' ++ rest') : j.tag = j'.tag := by
  obtain ⟨c, more, rfl, htag⟩ := head_value h j rfl
  obtain ⟨c', more', rfl, htag'⟩ := head_value h' j' rfl
  obtain ⟨rfl, _⟩ := List.cons.inj heq
  exact Option.some.inj (htag.symm.trans htag')

/-- An array with values is not empty. -/
theorem elements_ne_close {items : List Json} {space text rest rest' : List Char}
    (h : Derives (.elements items) text) (hspace : Ws space) :
    text ++ rest ≠ space ++ ']' :: rest' := by
  have hvalue : ∀ {j : Json} {before body more : List Char}, Ws before →
      Derives (.value j) body → before ++ (body ++ more) ≠ space ++ ']' :: rest' := by
    intro j before body more hbefore hbody heq
    have hnext := (ws_unique hbefore hspace (notWs_value hbody _)
      (notWs_cons (by simp) _) heq).2
    obtain ⟨c, tail, rfl, htag⟩ := head_value hbody j rfl
    exact ne_of_tagOf htag ']' (by simp) (List.cons.inj hnext).1
  cases h with
  | lastElement hbefore hbody _ =>
      simp only [List.append_assoc]
      exact hvalue hbefore hbody
  | element hbefore hbody _ _ =>
      simp only [List.append_assoc]
      exact hvalue hbefore hbody

/-- An object with members is not empty. -/
theorem members_ne_close {members : List (List Nat × Json)} {space text rest rest' : List Char}
    (h : Derives (.members members) text) (hspace : Ws space) :
    text ++ rest ≠ space ++ '\x7d' :: rest' := by
  have hname : ∀ {before name more : List Char}, Ws before →
      before ++ (quoted name ++ more) ≠ space ++ '\x7d' :: rest' := by
    intro before name more hbefore heq
    have hnext := (ws_unique hbefore hspace (notWs_quoted _ _)
      (notWs_cons (by simp) _) heq).2
    simp [quoted] at hnext
  cases h with
  | lastMember hbefore _ _ _ _ _ =>
      simp only [List.append_assoc]
      exact hname hbefore
  | member hbefore _ _ _ _ _ _ =>
      simp only [List.append_assoc]
      exact hname hbefore

/-- A derived array is empty or has values. -/
theorem array_cases {j : Json} {text : List Char} (h : Derives (.value j) text)
    (htag : .array = j.tag) : (j = .array [] ∧ ∃ space, Ws space ∧ text = '[' :: space ++ [']']) ∨
      ∃ items body, j = .array items ∧ Derives (.elements items) body ∧
        text = '[' :: body ++ [']'] := by
  cases j with
  | array items =>
      cases h with
      | emptyArray hspace => exact Or.inl ⟨rfl, _, hspace, rfl⟩
      | array hbody => exact Or.inr ⟨_, _, rfl, hbody, rfl⟩
  | _ => cases htag

/-- A derived object is empty or has members. -/
theorem object_cases {j : Json} {text : List Char} (h : Derives (.value j) text)
    (htag : .object = j.tag) :
    (j = .object [] ∧ ∃ space, Ws space ∧ text = '\x7b' :: space ++ ['\x7d']) ∨
      ∃ members body, j = .object members ∧ Derives (.members members) body ∧
        text = '\x7b' :: body ++ ['\x7d'] := by
  cases j with
  | object members =>
      cases h with
      | emptyObject hspace => exact Or.inl ⟨rfl, _, hspace, rfl⟩
      | object hbody => exact Or.inr ⟨_, _, rfl, hbody, rfl⟩
  | _ => cases htag

/-- Inside of equal brackets. -/
theorem bracket_cancel {opening closing : Char} {body body' rest rest' : List Char}
    (h : opening :: body ++ [closing] ++ rest = opening :: body' ++ [closing] ++ rest') :
    body ++ closing :: rest = body' ++ closing :: rest' := by
  simpa using h

/-- A separator in front of more. -/
theorem separates_cons {c : Char} (hc : c ∈ [',', ']', '\x7d']) (rest : List Char) :
    Separates (c :: rest) := ⟨c, rest, rfl, hc⟩

/-- Values without parts. -/
theorem scalar_unique {j j' : Json} {text text' rest rest' : List Char}
    (h : Derives (.value j) text) (h' : Derives (.value j') text')
    (hscalar : j.tag ≠ .array ∧ j.tag ≠ .object) (hrest : EndsValue rest)
    (hrest' : EndsValue rest') (heq : text ++ rest = text' ++ rest') : text = text' ∧ j = j' := by
  have htag := same_tag h h' heq
  cases h with
  | null =>
      cases j' with
      | null =>
          cases h'
          exact ⟨rfl, rfl⟩
      | _ => cases htag
  | false =>
      cases j' with
      | bool b =>
          cases htag
          cases h'
          exact ⟨rfl, rfl⟩
      | _ => cases htag
  | true =>
      cases j' with
      | bool b =>
          cases htag
          cases h'
          exact ⟨rfl, rfl⟩
      | _ => cases htag
  | number h =>
      cases j' with
      | number text' =>
          cases h' with
          | number h' =>
              obtain ⟨rfl, _⟩ := span_unique (inNumber_of_isNumber h)
                (inNumber_of_isNumber h') hrest hrest' heq
              exact ⟨rfl, rfl⟩
      | _ => cases htag
  | string h =>
      cases j' with
      | string units' =>
          cases h' with
          | string h' =>
              obtain ⟨rfl, rfl, _⟩ := quoted_unique h h' heq
              exact ⟨rfl, rfl⟩
      | _ => cases htag
  | emptyArray _ => exact absurd rfl hscalar.1
  | array _ => exact absurd rfl hscalar.1
  | emptyObject _ => exact absurd rfl hscalar.2
  | object _ => exact absurd rfl hscalar.2

/-- **Derivations that start alike are the same**, up to what follows. -/
theorem derives_unique {part part' : Part} {text text' rest rest' : List Char}
    (h : Derives part text) (h' : Derives part' text') (halike : Alike part part')
    (hrest : Closes part rest) (hrest' : Closes part' rest')
    (heq : text ++ rest = text' ++ rest') : text = text' ∧ part = part' := by
  -- the induction hypothesis for a value, as the lemmas on padded values take it
  have hvalue : ∀ {j j' : Json} {text text' : List Char}
      (_ : ∀ {part' : Part} {text' rest rest' : List Char}, Derives part' text' →
        Alike (.value j) part' → Closes (.value j) rest → Closes part' rest' →
        text ++ rest = text' ++ rest' → text = text' ∧ .value j = part')
      (_ : Derives (.value j') text') {s s' : List Char}, EndsValue s → EndsValue s' →
      text ++ s = text' ++ s' → text = text' ∧ j = j' := by
    intro j j' text text' ih h' s s' hs hs' hsame
    obtain ⟨htext, hpart⟩ := ih h' (.value _ _) hs hs' hsame
    exact ⟨htext, Part.value.inj hpart⟩
  have hscalar : ∀ {j : Json} {part' : Part} {text text' rest rest' : List Char},
      Derives (.value j) text → Derives part' text' → Alike (.value j) part' →
      j.tag ≠ .array ∧ j.tag ≠ .object → Closes (.value j) rest → Closes part' rest' →
      text ++ rest = text' ++ rest' → text = text' ∧ .value j = part' := by
    intro j part' text text' rest rest' h h' halike hscalar hrest hrest' heq
    cases halike with
    | value _ j' =>
        obtain ⟨htext, rfl⟩ := scalar_unique h h' hscalar hrest hrest' heq
        exact ⟨htext, rfl⟩
  induction h generalizing part' text' rest rest' with
  | null => exact hscalar .null h' halike (by simp [Json.tag]) hrest hrest' heq
  | false => exact hscalar .false h' halike (by simp [Json.tag]) hrest hrest' heq
  | true => exact hscalar .true h' halike (by simp [Json.tag]) hrest hrest' heq
  | number h => exact hscalar (.number h) h' halike (by simp [Json.tag]) hrest hrest' heq
  | string h => exact hscalar (.string h) h' halike (by simp [Json.tag]) hrest hrest' heq
  | emptyArray hspace =>
      cases halike with
      | value _ j' =>
          rcases array_cases h' (same_tag (.emptyArray hspace) h' heq) with hempty | hfull
          · obtain ⟨rfl, space', hspace', rfl⟩ := hempty
            have heq := bracket_cancel heq
            obtain ⟨rfl, _⟩ := ws_unique hspace hspace' (notWs_cons (by simp) _)
              (notWs_cons (by simp) _) heq
            exact ⟨rfl, rfl⟩
          · obtain ⟨items, body, rfl, hbody, rfl⟩ := hfull
            have heq := bracket_cancel heq
            exact absurd heq.symm (elements_ne_close hbody hspace)
  | array h ih =>
      cases halike with
      | value _ j' =>
          rcases array_cases h' (same_tag (.array h) h' heq) with hempty | hfull
          · obtain ⟨rfl, space', hspace', rfl⟩ := hempty
            have heq := bracket_cancel heq
            exact absurd heq (elements_ne_close h hspace')
          · obtain ⟨items, body, rfl, hbody, rfl⟩ := hfull
            have heq := bracket_cancel heq
            obtain ⟨rfl, hitems⟩ := ih hbody (.elements _ _) ⟨_, rfl⟩ ⟨_, rfl⟩ heq
            cases hitems
            exact ⟨rfl, rfl⟩
  | emptyObject hspace =>
      cases halike with
      | value _ j' =>
          rcases object_cases h' (same_tag (.emptyObject hspace) h' heq) with hempty | hfull
          · obtain ⟨rfl, space', hspace', rfl⟩ := hempty
            have heq := bracket_cancel heq
            obtain ⟨rfl, _⟩ := ws_unique hspace hspace' (notWs_cons (by simp) _)
              (notWs_cons (by simp) _) heq
            exact ⟨rfl, rfl⟩
          · obtain ⟨members, body, rfl, hbody, rfl⟩ := hfull
            have heq := bracket_cancel heq
            exact absurd heq.symm (members_ne_close hbody hspace)
  | object h ih =>
      cases halike with
      | value _ j' =>
          rcases object_cases h' (same_tag (.object h) h' heq) with hempty | hfull
          · obtain ⟨rfl, space', hspace', rfl⟩ := hempty
            have heq := bracket_cancel heq
            exact absurd heq (members_ne_close h hspace')
          · obtain ⟨members, body, rfl, hbody, rfl⟩ := hfull
            have heq := bracket_cancel heq
            obtain ⟨rfl, hmembers⟩ := ih hbody (.members _ _) ⟨_, rfl⟩ ⟨_, rfl⟩ heq
            cases hmembers
            exact ⟨rfl, rfl⟩
  | lastElement hbefore h hafter ih =>
      obtain ⟨close, rfl⟩ := hrest
      cases halike with
      | elements _ items' =>
          obtain ⟨close', rfl⟩ := hrest'
          cases h' with
          | lastElement hbefore' h' hafter' =>
              obtain ⟨hsame, rfl, _⟩ := padded_unique (hvalue ih h') h h' hbefore hbefore' hafter
                hafter' (separates_cons (by simp) _) (separates_cons (by simp) _) heq
              exact ⟨hsame, rfl⟩
          | element hbefore' h' hafter' hmore' =>
              -- one list ends where the other has a comma
              rw [List.append_assoc _ (',' :: _), List.cons_append] at heq
              obtain ⟨_, _, hseparator⟩ := padded_unique (hvalue ih h') h h' hbefore hbefore'
                hafter hafter' (separates_cons (by simp) _) (separates_cons (by simp) _) heq
              simp at hseparator
  | element hbefore h hafter hmore ih ihmore =>
      rw [List.append_assoc _ (',' :: _), List.cons_append] at heq
      cases halike with
      | elements _ items' =>
          cases h' with
          | lastElement hbefore' h' hafter' =>
              obtain ⟨close', rfl⟩ := hrest'
              obtain ⟨_, _, hseparator⟩ := padded_unique (hvalue ih h') h h' hbefore hbefore'
                hafter hafter' (separates_cons (by simp) _) (separates_cons (by simp) _) heq
              simp at hseparator
          | element hbefore' h' hafter' hmore' =>
              rw [List.append_assoc _ (',' :: _), List.cons_append] at heq
              obtain ⟨hsame, rfl, hseparator⟩ := padded_unique (hvalue ih h') h h' hbefore
                hbefore' hafter hafter' (separates_cons (by simp) _) (separates_cons (by simp) _)
                heq
              obtain ⟨rfl, hitems⟩ := ihmore hmore' (.elements _ _) hrest hrest'
                (List.cons.inj hseparator).2
              cases hitems
              exact ⟨by rw [hsame], rfl⟩
  | lastMember hbefore hname hcolon hstart h hafter ih =>
      obtain ⟨close, rfl⟩ := hrest
      cases halike with
      | members _ members' =>
          obtain ⟨close', rfl⟩ := hrest'
          cases h' with
          | lastMember hbefore' hname' hcolon' hstart' h' hafter' =>
              obtain ⟨hsame, rfl, rfl, _⟩ := named_unique (hvalue ih h') h h' hbefore hbefore'
                hname hname' hcolon hcolon' hstart hstart' hafter hafter'
                (separates_cons (by simp) _) (separates_cons (by simp) _) heq
              exact ⟨hsame, rfl⟩
          | member hbefore' hname' hcolon' hstart' h' hafter' hmore' =>
              -- one list ends where the other has a comma
              rw [List.append_assoc _ (',' :: _), List.cons_append] at heq
              obtain ⟨_, _, _, hseparator⟩ := named_unique (hvalue ih h') h h' hbefore hbefore'
                hname hname' hcolon hcolon' hstart hstart' hafter hafter'
                (separates_cons (by simp) _) (separates_cons (by simp) _) heq
              simp at hseparator
  | member hbefore hname hcolon hstart h hafter hmore ih ihmore =>
      rw [List.append_assoc _ (',' :: _), List.cons_append] at heq
      cases halike with
      | members _ members' =>
          cases h' with
          | lastMember hbefore' hname' hcolon' hstart' h' hafter' =>
              obtain ⟨close', rfl⟩ := hrest'
              obtain ⟨_, _, _, hseparator⟩ := named_unique (hvalue ih h') h h' hbefore hbefore'
                hname hname' hcolon hcolon' hstart hstart' hafter hafter'
                (separates_cons (by simp) _) (separates_cons (by simp) _) heq
              simp at hseparator
          | member hbefore' hname' hcolon' hstart' h' hafter' hmore' =>
              rw [List.append_assoc _ (',' :: _), List.cons_append] at heq
              obtain ⟨hsame, rfl, rfl, hseparator⟩ := named_unique (hvalue ih h') h h' hbefore
                hbefore' hname hname' hcolon hcolon' hstart hstart' hafter hafter'
                (separates_cons (by simp) _) (separates_cons (by simp) _) heq
              obtain ⟨rfl, hmembers⟩ := ihmore hmore' (.members _ _) hrest hrest'
                (List.cons.inj hseparator).2
              cases hmembers
              exact ⟨by rw [hsame], rfl⟩

/-- **A JSON text stands for one value.** -/
theorem isText_unique {text : List Char} {j j' : Json} (h : IsText text j) (h' : IsText text j') :
    j = j' := by
  obtain ⟨before, body, after, rfl, hbefore, hafter, hbody⟩ := h
  obtain ⟨before', body', after', heq, hbefore', hafter', hbody'⟩ := h'
  have hends : ∀ {space : List Char}, Ws space → EndsValue space := by
    intro space hspace c hc
    have hspaces : ∀ d ∈ [' ', '\t', '\n', '\r'], ¬ InNumber d := by simp [InNumber]
    exact hspaces c (hspace c (List.mem_of_mem_head? hc))
  simp only [List.append_assoc] at heq
  obtain ⟨_, hrest⟩ := ws_unique hbefore hbefore' (notWs_value hbody _) (notWs_value hbody' _) heq
  exact Part.value.inj
    (derives_unique hbody hbody' (.value _ _) (hends hafter) (hends hafter') hrest).2

end JsonText

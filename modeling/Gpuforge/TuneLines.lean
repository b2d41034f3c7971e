import Gpuforge.TakenTexts
import Gpuforge.TuneRoundTrip

/-!
# Lines that are no rows (`tuning.cpp`)

A row of a tuning file has eight fields with commas between them, and what `serialize`
writes is one (`eightFields_rowText`).  The loop of `load` extracts eight numbers with a
character after each of the first seven, and never looks at these characters.  What it
takes from a line is a list of pieces, a number with what stands between it and the next
one, and after the last number anything may follow.

The extractions of a line say what the pieces are (`taken_unique`), so a line is either
refused, or a row, or recorded although it is none.  The last are the lines with pieces
that are not neat: a gap other than a comma, something after the last number, white space
or a plus in front of a number, a key with a minus, or a flag other than 0 and 1.
-/

namespace Gpuforge

open TakenTexts TextStreams DecimalText TuneDatabase

/-! ## Rows -/

def IsDigits (text : List Char) : Prop := text ≠ [] ∧ ∀ c ∈ text, c.isDigit = true

/-- A field with a `size_t`: digits. -/
def IsSize (n : Nat) (text : List Char) : Prop :=
  IsDigits text ∧ Nat.ofDigitChars 10 text 0 = n ∧ n < 2 ^ 64

/-- A field with an `int`: digits, with a minus if need be. -/
def IsInt (i : Int) (text : List Char) : Prop :=
  ∃ (negative : Bool) (digits : List Char),
    text = (if negative then ['-'] else []) ++ digits ∧ IsDigits digits ∧
      (if negative then -(Nat.ofDigitChars 10 digits 0 : Int) else Nat.ofDigitChars 10 digits 0) =
        i ∧ -2 ^ 31 ≤ i ∧ i < 2 ^ 31

/-- A field with a flag. -/
def IsFlag (flag : Bool) (text : List Char) : Prop := text = [if flag then '1' else '0']

/-- A field with a finite double: a numeral, with a minus if need be. -/
def IsDouble (x : Double) (text : List Char) : Prop :=
  ∃ (negative : Bool) (body : List Char) (n : Numeral),
    text = (if negative then ['-'] else []) ++ body ∧ readNumeral body = some (n, []) ∧
      Double.round negative n.value (value_nonneg n) = some x

/-- What the fields of a row say, in the order of `serialize`. -/
def rowFields (row : TuneKey × TuneResult Double) : List (List Char → Prop) :=
  [IsSize row.1.1, IsSize row.1.2.1, IsSize row.1.2.2, IsInt row.2.config.tile,
    IsInt row.2.config.warps, IsFlag row.2.config.useTensorCore, IsDouble row.2.latencyMs,
    IsDouble row.2.throughput]

/-- A line with exactly the eight fields of a row, and commas between them. -/
def EightFields (row : TuneKey × TuneResult Double) (line : List Char) : Prop :=
  ∃ texts, line = [','].intercalate texts ∧
    List.Forall₂ (fun field text => field text) (rowFields row) texts

/-- A line does the right thing to every table: it records the values of its eight fields
if it has these, and otherwise nothing. -/
def ReadsRight (sort : List (TuneResult Double) → List (TuneResult Double))
    (line : List Char) : Prop :=
  (∃ m n k r, EightFields ((m, n, k), r) line ∧
    ∀ db, loadLine sort db line = db.record sort m n k r) ∨
  ∀ db, loadLine sort db line = db

/-! ## Pieces -/

/-- The types of the fields of a row. -/
inductive Field where
  | size | int | flag | double
  deriving DecidableEq, Repr

def fields : List Field := [.size, .size, .size, .int, .int, .flag, .double, .double]

/-- What the extraction of a field leaves of a text. -/
def Field.left (text : List Char) : Field → Option (List Char)
  | .size => (extractSize text).map Prod.snd
  | .int => (extractInt text).map Prod.snd
  | .flag => (extractInt text).map Prod.snd
  | .double => (extractDouble text).map Prod.snd

/-- A number looks as `serialize` writes one of its type. -/
def Field.Neat (number : List Char) : Field → Prop
  | .size => ∀ c ∈ number.head?, c.isDigit = true
  | .int => PlainFront number
  | .flag => number = ['0'] ∨ number = ['1']
  | .double => PlainFront number

/-- A number and what stands between it and the next one, or after the last one. -/
structure Piece where
  number : List Char
  gap : List Char
  deriving DecidableEq, Repr

def Piece.text (p : Piece) : List Char := p.number ++ p.gap

def lineOf (pieces : List Piece) : List Char := pieces.flatMap Piece.text

/-- White space and one character, as `input >> separator` takes them. -/
def IsGap (gap : List Char) : Prop :=
  ∃ space c, gap = space ++ [c] ∧ (∀ s ∈ space, isSpace s = true) ∧ isSpace c = false

/-- The extractions of some fields take these pieces from a line. -/
inductive Taken : List Field → List Piece → Prop
  | last {f : Field} {p : Piece} (hleft : f.left p.text = some p.gap) : Taken [f] [p]
  | more {f : Field} {fs : List Field} {p : Piece} {ps : List Piece}
      (hleft : f.left (p.text ++ lineOf ps) = some (p.gap ++ lineOf ps)) (hgap : IsGap p.gap)
      (hrest : Taken fs ps) : Taken (f :: fs) (p :: ps)

/-- The numbers look as they are written, with commas between them and nothing after
them. -/
inductive Neat : List Field → List Piece → Prop
  | last {f : Field} {number : List Char} (hneat : f.Neat number) : Neat [f] [⟨number, []⟩]
  | more {f : Field} {fs : List Field} {number : List Char} {ps : List Piece}
      (hneat : f.Neat number) (hrest : Neat fs ps) : Neat (f :: fs) (⟨number, [',']⟩ :: ps)

/-- A line that is taken for a row and is none. -/
def Misread (line : List Char) : Prop :=
  ∃ pieces, line = lineOf pieces ∧ Taken fields pieces ∧ ¬ Neat fields pieces

/-! ## Fields -/

/-- A `size_t` field is one that is taken whole and starts with a digit. -/
theorem isSize_iff (n : Nat) (text : List Char) :
    IsSize n text ↔ extractSize text = some (n, []) ∧ ∀ c ∈ text.head?, c.isDigit = true := by
  have hplain := @signed_plain_iff Nat text [] _ readDigits unsigned_readDigits sizeValue n
  rw [← extractSize_eq] at hplain
  constructor
  · intro h
    obtain ⟨⟨hne, hdigits⟩, hvalue, hlt⟩ := h
    have hread := readDigits_append hne hdigits endsDigits_nil
    rw [List.append_nil] at hread
    refine ⟨(hplain.mpr ⟨false, text, text, rfl, hread, ?_⟩).1, ?_⟩
    · simp only [sizeValue, hvalue, if_pos hlt, if_neg Bool.false_ne_true]
    · exact fun c hc => hdigits c (List.mem_of_mem_head? hc)
  · intro h
    obtain ⟨h, hdigit⟩ := h
    have hfront : PlainFront text := fun c hc =>
      ⟨(digit_plain (hdigit c hc)).1, (digit_plain (hdigit c hc)).2.1⟩
    obtain ⟨negative, body, digits, htext, hread, hvalue⟩ := hplain.mp ⟨h, hfront⟩
    cases negative with
    | true =>
        subst htext
        exact absurd (hdigit '-' rfl) (by decide)
    | false =>
        rw [if_neg Bool.false_ne_true, List.nil_append] at htext
        obtain ⟨hbody, hne, hdigits, _⟩ := readDigits_eq hread
        rw [List.append_nil] at hbody
        subst htext hbody
        simp only [sizeValue, if_neg Bool.false_ne_true] at hvalue
        split at hvalue
        · next hlt =>
            cases hvalue
            exact ⟨⟨hne, hdigits⟩, rfl, hlt⟩
        · cases hvalue

/-- An `int` field is one that is taken whole from a plain front. -/
theorem isInt_iff (i : Int) (text : List Char) :
    IsInt i text ↔ extractInt text = some (i, []) ∧ PlainFront text := by
  rw [extractInt_eq, signed_plain_iff unsigned_readDigits]
  constructor
  · intro h
    obtain ⟨negative, digits, htext, ⟨hne, hdigits⟩, hvalue⟩ := h
    have hread := readDigits_append hne hdigits endsDigits_nil
    rw [List.append_nil] at hread
    exact ⟨negative, digits, digits, htext, hread, intValue_eq.mpr hvalue⟩
  · intro h
    obtain ⟨negative, body, digits, htext, hread, hvalue⟩ := h
    obtain ⟨hbody, hne, hdigits, _⟩ := readDigits_eq hread
    rw [List.append_nil] at hbody
    rw [hbody] at htext
    exact ⟨negative, digits, htext, ⟨hne, hdigits⟩, intValue_eq.mp hvalue⟩

/-- A double field is one that is taken whole from a plain front. -/
theorem isDouble_iff (x : Double) (text : List Char) :
    IsDouble x text ↔ extractDouble text = some (x, []) ∧ PlainFront text := by
  rw [extractDouble_eq, signed_plain_iff unsigned_readNumeral]
  rfl

/-- What the extraction of a field takes, it takes in front of anything that is not part of
a number. -/
theorem Field.left_front {f : Field} {text rest : List Char} (h : f.left text = some rest) :
    ∃ taken, text = taken ++ rest ∧
      ∀ rest', EndsNumeral rest' → f.left (taken ++ rest') = some rest' := by
  have hdigits : ∀ {rest : List Char}, EndsNumeral rest → EndsDigits rest :=
    fun h c hc => (h c hc).1
  cases f with
  | size => exact takesFront_size.left hdigits h
  | int => exact takesFront_int.left hdigits h
  | flag => exact takesFront_int.left hdigits h
  | double => exact takesFront_double.left id h

/-- A text is a field of a type. -/
def Field.Valid (text : List Char) : Field → Prop
  | .size => ∃ n, IsSize n text
  | .int => ∃ i, IsInt i text
  | .flag => ∃ flag, IsFlag flag text
  | .double => ∃ x, IsDouble x text

/-- **Fields are numbers that are taken whole and look as they are written.** -/
theorem Field.valid_iff (f : Field) (text : List Char) :
    f.Valid text ↔ f.left text = some [] ∧ f.Neat text := by
  cases f with
  | size => simp only [Valid, isSize_iff, left, Neat, takenWhole_iff, exists_and_right]
  | int => simp only [Valid, isInt_iff, left, Neat, takenWhole_iff, exists_and_right]
  | double => simp only [Valid, isDouble_iff, left, Neat, takenWhole_iff, exists_and_right]
  | flag =>
      have hdigit : ∀ text' : List Char, text' = ['0'] ∨ text' = ['1'] →
          Field.left text' .flag = some [] := by
        intro text' h
        rcases h with rfl | rfl <;> decide +kernel
      have hcases : (∃ flag, IsFlag flag text) ↔ text = ['0'] ∨ text = ['1'] := by
        simp [IsFlag]
      rw [Valid, Neat, hcases]
      exact ⟨fun h => ⟨hdigit text h, h⟩, fun h => h.2⟩

/-- A field is taken in front of anything that is not part of a number. -/
theorem Field.left_append {f : Field} {text rest : List Char} (h : f.Valid text)
    (hrest : EndsNumeral rest) : f.left (text ++ rest) = some rest := by
  obtain ⟨taken, htext, hgoes⟩ := left_front ((f.valid_iff text).mp h).1
  rw [htext, List.append_nil]
  exact hgoes rest hrest

/-! ## The pieces of a line -/

/-- A gap is taken with its character, whatever comes after it. -/
theorem IsGap.taken {gap : List Char} (h : IsGap gap) :
    ∃ c, ∀ rest, extractChar (gap ++ rest) = some (c, rest) := by
  obtain ⟨space, c, rfl, hspace, hc⟩ := h
  refine ⟨c, fun rest => extractChar_eq.mpr ⟨space, ?_, hspace, hc⟩⟩
  rw [List.append_assoc, List.singleton_append]

/-- A gap and what comes after it are told apart. -/
theorem gap_unique {gap gap' rest rest' : List Char} (h : IsGap gap) (h' : IsGap gap')
    (heq : gap ++ rest = gap' ++ rest') : gap = gap' ∧ rest = rest' := by
  obtain ⟨c, hread⟩ := h.taken
  obtain ⟨c', hread'⟩ := h'.taken
  have hsame := hread rest
  rw [heq, hread' rest'] at hsame
  have hrest : rest = rest' := (Prod.mk.inj (Option.some.inj hsame)).2.symm
  rw [hrest] at heq
  exact ⟨List.append_cancel_right heq, hrest⟩

theorem lineOf_singleton (p : Piece) : lineOf [p] = p.text := List.flatMap_singleton ..

theorem lineOf_cons (p : Piece) (ps : List Piece) : lineOf (p :: ps) = p.text ++ lineOf ps :=
  List.flatMap_cons

/-- A line has one list of pieces that its extractions take. -/
theorem taken_unique {fs : List Field} {pieces pieces' : List Piece} (h : Taken fs pieces)
    (h' : Taken fs pieces') (heq : lineOf pieces = lineOf pieces') : pieces = pieces' := by
  induction h generalizing pieces' with
  | @last f p hleft =>
      cases h' with
      | @last _ p' hleft' =>
          rw [lineOf_singleton, lineOf_singleton] at heq
          rw [heq, hleft', Option.some.injEq] at hleft
          rw [Piece.text, Piece.text, hleft] at heq
          have hpiece : p = p' := by
            rw [Piece.mk.injEq]
            exact ⟨List.append_cancel_right heq, hleft.symm⟩
          rw [hpiece]
      | more _ _ hrest => cases hrest
  | @more f fs p ps hleft hgap hrest ih =>
      cases h' with
      | last => cases hrest
      | @more _ _ p' ps' hleft' hgap' hrest' =>
          rw [lineOf_cons, lineOf_cons] at heq
          rw [heq, hleft', Option.some.injEq] at hleft
          obtain ⟨hsame, hlines⟩ := gap_unique hgap' hgap hleft
          rw [Piece.text, Piece.text, List.append_assoc, List.append_assoc, hleft] at heq
          have hpiece : p = p' := by
            rw [Piece.mk.injEq]
            exact ⟨List.append_cancel_right heq, hsame.symm⟩
          rw [hpiece, ih hrest' hlines.symm]

/-- The extractions of some fields, with a character between them; what they leave. -/
def leftAll : List Field → List Char → Option (List Char)
  | [], text => some text
  | [f], text => f.left text
  | f :: g :: fs, text =>
      (f.left text).bind fun rest => ((extractChar rest).map Prod.snd).bind (leftAll (g :: fs))

/-- Extractions that succeed take pieces. -/
theorem exists_taken (fs : List Field) (hne : fs ≠ []) : ∀ {text rest : List Char},
    leftAll fs text = some rest → ∃ pieces, text = lineOf pieces ∧ Taken fs pieces := by
  induction fs with
  | nil => exact absurd rfl hne
  | cons f fs ih =>
      intro text rest h
      cases fs with
      | nil =>
          obtain ⟨number, htext, hgoes⟩ := Field.left_front h
          refine ⟨[⟨number, rest⟩], ?_, Taken.last ?_⟩
          · rw [htext, lineOf_singleton, Piece.text]
          · rw [Piece.text, ← htext]
            exact h
      | cons g fs =>
          obtain ⟨middle, hnumber, h⟩ := Option.bind_eq_some_iff.mp h
          obtain ⟨_, hnext, h⟩ := Option.bind_eq_some_iff.mp h
          obtain ⟨⟨c, after⟩, hchar, hafter⟩ := Option.map_eq_some_iff.mp hnext
          cases hafter
          obtain ⟨pieces, hpieces, htaken⟩ := ih (List.cons_ne_nil g fs) h
          dsimp only at hpieces
          obtain ⟨space, hmiddle, hspace, hc⟩ := extractChar_eq.mp hchar
          obtain ⟨number, htext, _⟩ := Field.left_front hnumber
          have hline : text = (⟨number, space ++ [c]⟩ : Piece).text ++ lineOf pieces := by
            rw [htext, hmiddle, hpieces, Piece.text]
            simp only [List.append_assoc, List.singleton_append]
          refine ⟨⟨number, space ++ [c]⟩ :: pieces, ?_, Taken.more ?_ ⟨space, c, rfl, hspace, hc⟩
            htaken⟩
          · rw [hline, lineOf_cons]
          · rw [← hline, hnumber, hmiddle, hpieces, List.append_assoc, List.singleton_append]

/-- The extractions of a line with pieces succeed. -/
theorem leftAll_of_taken {fs : List Field} {pieces : List Piece} (h : Taken fs pieces) :
    ∃ rest, leftAll fs (lineOf pieces) = some rest := by
  induction h with
  | @last f p hleft =>
      refine ⟨p.gap, ?_⟩
      rw [lineOf_singleton]
      exact hleft
  | @more f fs p ps hleft hgap hrest ih =>
      obtain ⟨rest, hrestEq⟩ := ih
      obtain ⟨c, hread⟩ := hgap.taken
      refine ⟨rest, ?_⟩
      rw [lineOf_cons]
      cases fs with
      | nil => cases hrest
      | cons g fs =>
          rw [leftAll, hleft, Option.bind_some, hread, Option.map_some, Option.bind_some]
          exact hrestEq

/-- Neat pieces are fields with commas between them. -/
theorem valid_of_neat {fs : List Field} {pieces : List Piece} (htaken : Taken fs pieces)
    (hneat : Neat fs pieces) :
    List.Forall₂ (fun f text => Field.Valid text f) fs (pieces.map Piece.number) ∧
      lineOf pieces = [','].intercalate (pieces.map Piece.number) := by
  induction hneat with
  | @last f number hneat =>
      cases htaken with
      | last hleft =>
          rw [Piece.text, List.append_nil] at hleft
          refine ⟨List.Forall₂.cons ((f.valid_iff number).mpr ⟨hleft, hneat⟩) List.Forall₂.nil, ?_⟩
          rw [lineOf_singleton, Piece.text, List.append_nil, List.map_singleton,
            List.intercalate_singleton]
      | more _ _ hrest => cases hrest
  | @more f fs number ps hneat hrest ih =>
      cases htaken with
      | last => cases hrest
      | more hleft hgap htaken =>
          obtain ⟨hfields, hline⟩ := ih htaken
          obtain ⟨number', htext, hgoes⟩ := Field.left_front hleft
          rw [Piece.text, List.append_assoc] at htext
          rw [← List.append_cancel_right htext] at hgoes
          have halone := hgoes [] endsNumeral_nil
          rw [List.append_nil] at halone
          refine ⟨List.Forall₂.cons ((f.valid_iff number).mpr ⟨halone, hneat⟩) hfields, ?_⟩
          have hne : ps.map Piece.number ≠ [] := by
            cases hrest <;> simp
          rw [lineOf_cons, hline, List.map_cons, List.intercalate_cons_of_ne_nil hne, Piece.text]

/-- Fields with commas between them are neat pieces. -/
theorem neat_of_valid {fs : List Field} {texts : List (List Char)} (hne : fs ≠ [])
    (h : List.Forall₂ (fun f text => Field.Valid text f) fs texts) :
    ∃ pieces, [','].intercalate texts = lineOf pieces ∧ Taken fs pieces ∧ Neat fs pieces := by
  induction h with
  | nil => exact absurd rfl hne
  | @cons f text fs texts hvalid hrest ih =>
      obtain ⟨hleft, hneat⟩ := (f.valid_iff text).mp hvalid
      by_cases hnil : fs = []
      · subst hnil
        cases hrest
        refine ⟨[⟨text, []⟩], ?_, Taken.last ?_, Neat.last hneat⟩
        · rw [List.intercalate_singleton, lineOf_singleton, Piece.text, List.append_nil]
        · rw [Piece.text, List.append_nil]
          exact hleft
      · obtain ⟨pieces, hline, htaken, hneats⟩ := ih hnil
        have hne' : texts ≠ [] := by
          intro htexts
          subst htexts
          cases hrest
          exact hnil rfl
        refine ⟨⟨text, [',']⟩ :: pieces, ?_, Taken.more ?_ ⟨[], ',', rfl, by simp, rfl⟩ htaken,
          Neat.more hneat hneats⟩
        · rw [List.intercalate_cons_of_ne_nil hne', hline, lineOf_cons, Piece.text]
        · rw [Piece.text, List.append_assoc]
          exact Field.left_append hvalid (endsNumeral_comma _)

/-! ## The extractions of a row -/

/-- What is left after one extraction and the next, whatever the first one gives. -/
theorem left_bind {α β : Type} {x : Extract α} {f : α → Extract β}
    {next : List Char → Option (List Char)}
    (h : ∀ a rest, (f a rest).map Prod.snd = next rest) (text : List Char) :
    ((x >>= f) text).map Prod.snd = ((x text).map Prod.snd).bind next := by
  show ((x text).bind fun taken => f taken.1 taken.2).map Prod.snd = _
  cases x text with
  | none => rfl
  | some taken => exact h taken.1 taken.2

/-- A row is extracted field by field. -/
theorem readRow_left (line : List Char) :
    (readRow line).map Prod.snd = leftAll fields line := by
  unfold readRow
  simp only [fields, leftAll, Field.left]
  iterate 14 refine left_bind (fun _ _ => ?_) _
  exact (@left_bind _ _ _ _ some (fun _ _ => rfl) _).trans (Option.bind_fun_some _)

variable {row : TuneKey × TuneResult Double} {line : List Char}

/-- Eight texts that are related to eight things. -/
theorem forall₂_eight {α : Type} {R : α → List Char → Prop} {a₁ a₂ a₃ a₄ a₅ a₆ a₇ a₈ : α}
    {texts : List (List Char)} : List.Forall₂ R [a₁, a₂, a₃, a₄, a₅, a₆, a₇, a₈] texts ↔
      ∃ t₁ t₂ t₃ t₄ t₅ t₆ t₇ t₈, texts = [t₁, t₂, t₃, t₄, t₅, t₆, t₇, t₈] ∧ R a₁ t₁ ∧ R a₂ t₂ ∧
        R a₃ t₃ ∧ R a₄ t₄ ∧ R a₅ t₅ ∧ R a₆ t₆ ∧ R a₇ t₇ ∧ R a₈ t₈ := by
  constructor
  · intro h
    cases h with | cons h₁ h =>
    cases h with | cons h₂ h =>
    cases h with | cons h₃ h =>
    cases h with | cons h₄ h =>
    cases h with | cons h₅ h =>
    cases h with | cons h₆ h =>
    cases h with | cons h₇ h =>
    cases h with | cons h₈ h =>
    cases h
    exact ⟨_, _, _, _, _, _, _, _, rfl, h₁, h₂, h₃, h₄, h₅, h₆, h₇, h₈⟩
  · intro h
    obtain ⟨_, _, _, _, _, _, _, _, rfl, h₁, h₂, h₃, h₄, h₅, h₆, h₇, h₈⟩ := h
    exact .cons h₁ (.cons h₂ (.cons h₃ (.cons h₄ (.cons h₅ (.cons h₆ (.cons h₇ (.cons h₈ .nil)))))))

/-- The fields of a row have the types of its numbers. -/
theorem valid_of_eightFields (h : EightFields row line) : ∃ texts, line = [','].intercalate texts ∧
    List.Forall₂ (fun f text => Field.Valid text f) fields texts := by
  obtain ⟨texts, hline, hfields⟩ := h
  obtain ⟨_, _, _, _, _, _, _, _, htexts, hm, hn, hk, htile, hwarps, hflag, hlatency,
    hthroughput⟩ := forall₂_eight.mp hfields
  exact ⟨texts, hline, forall₂_eight.mpr ⟨_, _, _, _, _, _, _, _, htexts, ⟨_, hm⟩, ⟨_, hn⟩, ⟨_, hk⟩,
    ⟨_, htile⟩, ⟨_, hwarps⟩, ⟨_, hflag⟩, ⟨_, hlatency⟩, ⟨_, hthroughput⟩⟩⟩

/-- Fields of these types are the fields of a row. -/
theorem exists_eightFields {texts : List (List Char)}
    (h : List.Forall₂ (fun f text => Field.Valid text f) fields texts) :
    ∃ row, EightFields row ([','].intercalate texts) := by
  obtain ⟨_, _, _, _, _, _, _, _, htexts, ⟨m, hm⟩, ⟨n, hn⟩, ⟨k, hk⟩, ⟨tile, htile⟩,
    ⟨warps, hwarps⟩, ⟨flag, hflag⟩, ⟨latency, hlatency⟩, ⟨throughput, hthroughput⟩⟩ :=
    forall₂_eight.mp h
  exact ⟨((m, n, k), ⟨⟨tile, warps, flag⟩, latency, throughput, false⟩), texts, rfl,
    forall₂_eight.mpr ⟨_, _, _, _, _, _, _, _, htexts, hm, hn, hk, htile, hwarps, hflag, hlatency,
      hthroughput⟩⟩

/-- A `size_t` field is extracted up to a comma. -/
theorem IsSize.extract {n : Nat} {text : List Char} (h : IsSize n text) (rest : List Char) :
    extractSize (text ++ ',' :: rest) = some (n, ',' :: rest) :=
  takesFront_size.append ((isSize_iff n text).mp h).1 (endsDigits_comma rest)

/-- An `int` field is extracted up to a comma. -/
theorem IsInt.extract {i : Int} {text : List Char} (h : IsInt i text) (rest : List Char) :
    extractInt (text ++ ',' :: rest) = some (i, ',' :: rest) :=
  takesFront_int.append ((isInt_iff i text).mp h).1 (endsDigits_comma rest)

/-- A flag is an `int` field. -/
theorem IsFlag.isInt {flag : Bool} {text : List Char} (h : IsFlag flag text) :
    IsInt (if flag then 1 else 0) text := by
  rw [isInt_iff, h]
  cases flag
  · exact ⟨by decide +kernel, fun c hc => by cases hc; decide⟩
  · exact ⟨by decide +kernel, fun c hc => by cases hc; decide⟩

/-- **A row is read as it stands.** -/
theorem readRow_eightFields (h : EightFields row line) :
    readRow line = some ((row.1, { row.2 with valid := false }), []) := by
  obtain ⟨⟨m, n, k⟩, ⟨⟨tile, warps, tensorCore⟩, latencyMs, throughput, valid⟩⟩ := row
  obtain ⟨texts, hline, hfields⟩ := h
  obtain ⟨_, _, _, _, _, _, _, _, htexts, hm, hn, hk, htile, hwarps, hflag, hlatency,
    hthroughput⟩ := forall₂_eight.mp hfields
  have hcomma := fun rest => char_text (c := ',') (by decide) rest
  have hdecode : decide ((if tensorCore then 1 else 0 : Int) ≠ 0) = tensorCore := by
    cases tensorCore <;> decide
  have hlatencyRead := fun rest => takesFront_double.append
    ((isDouble_iff latencyMs _).mp hlatency).1 (endsNumeral_comma rest)
  have hthroughputRead := ((isDouble_iff throughput _).mp hthroughput).1
  rw [hline, htexts]
  simp only [List.intercalate_cons_cons, List.intercalate_singleton, List.append_assoc,
    List.singleton_append]
  unfold readRow
  rw [extract_bind (hm.extract _), extract_bind (hcomma _), extract_bind (hn.extract _),
    extract_bind (hcomma _), extract_bind (hk.extract _), extract_bind (hcomma _),
    extract_bind (htile.extract _), extract_bind (hcomma _), extract_bind (hwarps.extract _),
    extract_bind (hcomma _), extract_bind (hflag.isInt.extract _), extract_bind (hcomma _),
    extract_bind (hlatencyRead _), extract_bind (hcomma _), extract_bind hthroughputRead, hdecode]
  rfl

/-! ## Written rows -/

/-- The digits of a number are a `size_t` field. -/
theorem isSize_toDigits {n : Nat} (hn : n < 2 ^ 64) : IsSize n (Nat.toDigits 10 n) := by
  have hread := size_text hn endsDigits_nil
  rw [List.append_nil] at hread
  refine (isSize_iff n _).mpr ⟨hread, fun c hc => ?_⟩
  exact Nat.isDigit_of_mem_toDigits (by omega) (by omega) (List.mem_of_mem_head? hc)

/-- Digits have a plain front, with a minus or without. -/
theorem plainFront_minus (negative : Prop) [Decidable negative] {c : Char} {body : List Char}
    (hc : c.isDigit = true) :
    PlainFront ((if negative then ['-'] else []) ++ c :: body) := by
  intro c' hc'
  split at hc'
  · cases hc'
    exact ⟨rfl, by decide⟩
  · cases hc'
    exact ⟨(digit_plain hc).1, (digit_plain hc).2.1⟩

/-- A written `int` is an `int` field. -/
theorem isInt_intText {i : Int} (hlow : -2 ^ 31 ≤ i) (hhigh : i < 2 ^ 31) :
    IsInt i (intText i) := by
  have hread := int_text hlow hhigh endsDigits_nil
  rw [List.append_nil] at hread
  obtain ⟨c, tail, hdigits, hc⟩ := toDigits_head i.natAbs []
  rw [List.append_nil] at hdigits
  refine (isInt_iff i _).mpr ⟨hread, ?_⟩
  rw [intText, hdigits]
  exact plainFront_minus _ hc

/-- A written double is a double field, with the value that it reads back as. -/
theorem isDouble_text {x y : Double} (hreread : x.reread = some y) : IsDouble y x.text := by
  have hread := double_text x endsNumeral_nil
  rw [List.append_nil, hreread, Option.map_some] at hread
  have hformed := wellFormed_general (p := 6) (by omega) x.nonneg
  obtain ⟨c, tail, hnumeral, hc⟩ := numeral_head hformed []
  rw [List.append_nil] at hnumeral
  refine (isDouble_iff y _).mpr ⟨hread, ?_⟩
  rw [Double.text, hnumeral]
  exact plainFront_minus _ hc

/-- **What `serialize` writes is a row**, up to the digits of its doubles. -/
theorem eightFields_rowText {row row' : TuneKey × TuneResult Double} (h : Writable row)
    (hreread : rereadRow row = some row') : EightFields row' (rowText row.1 row.2) := by
  obtain ⟨⟨m, n, k⟩, ⟨⟨tile, warps, tensorCore⟩, latencyMs, throughput, valid⟩⟩ := row
  obtain ⟨latencyMs', hlatency, hrest⟩ := Option.bind_eq_some_iff.mp hreread
  obtain ⟨throughput', hthroughput, heq⟩ := Option.map_eq_some_iff.mp hrest
  subst heq
  have hflag : IsFlag tensorCore (intText (if tensorCore then 1 else 0)) := by
    cases tensorCore <;> rfl
  refine ⟨_, ?_, forall₂_eight.mpr ⟨_, _, _, _, _, _, _, _, rfl, isSize_toDigits h.m,
    isSize_toDigits h.n, isSize_toDigits h.k, isInt_intText h.tileLow h.tileHigh,
    isInt_intText h.warpsLow h.warpsHigh, hflag, isDouble_text hlatency,
    isDouble_text hthroughput⟩⟩
  simp only [rowText, List.intercalate_cons_cons, List.intercalate_singleton, List.append_assoc,
    List.singleton_append]

/-! ## The lines that are recorded -/

variable {sort : List (TuneResult Double) → List (TuneResult Double)}

/-- A line with pieces that are not neat is no row. -/
theorem not_eightFields_of_misread (h : Misread line) : ¬ EightFields row line := by
  intro hfields
  obtain ⟨pieces, hline, htaken, hneat⟩ := h
  obtain ⟨texts, htexts, hvalid⟩ := valid_of_eightFields hfields
  obtain ⟨pieces', hline', htaken', hneat'⟩ := neat_of_valid (List.cons_ne_nil _ _) hvalid
  have hsame : pieces = pieces' := taken_unique htaken htaken' (by rw [← hline, htexts, hline'])
  rw [hsame] at hneat
  exact hneat hneat'

/-- It is recorded all the same. -/
theorem readRow_of_misread (h : Misread line) : ∃ row rest, readRow line = some (row, rest) := by
  obtain ⟨pieces, hline, htaken, _⟩ := h
  obtain ⟨rest, hrest⟩ := leftAll_of_taken htaken
  rw [← hline, ← readRow_left] at hrest
  obtain ⟨⟨row, left⟩, hread, _⟩ := Option.map_eq_some_iff.mp hrest
  exact ⟨row, left, hread⟩

/-- A line that is read and not misread is the row that it is read as. -/
theorem eightFields_of_readRow (h : ¬ Misread line) {rest : List Char}
    (hread : readRow line = some (row, rest)) : EightFields row line := by
  have hleft : leftAll fields line = some rest := by
    rw [← readRow_left, hread, Option.map_some]
  obtain ⟨pieces, hline, htaken⟩ := exists_taken fields (List.cons_ne_nil _ _) hleft
  have hneat : Neat fields pieces := by
    by_contra hno
    exact h ⟨pieces, hline, htaken, hno⟩
  obtain ⟨hvalid, htexts⟩ := valid_of_neat htaken hneat
  obtain ⟨row', hfields⟩ := exists_eightFields hvalid
  rw [← htexts, ← hline] at hfields
  rw [readRow_eightFields hfields] at hread
  obtain ⟨texts, hline', hforall⟩ := hfields
  have hrow := (Prod.mk.inj (Option.some.inj hread)).1
  rw [← hrow]
  exact ⟨texts, hline', hforall⟩

/-- What is recorded changes an empty table. -/
theorem record_ne_empty (hsort : ∀ xs, (sort xs).Perm xs) (m n k : Nat) (r : TuneResult Double) :
    record sort {} m n k r ≠ {} := by
  intro h
  have hlength : ((record sort {} m n k r).candidates m n k).length = 1 := by
    rw [candidates_record_self, List.length_take, (hsort _).length_eq]
    rfl
  rw [h] at hlength
  cases hlength

/-- A misread line does the wrong thing to the empty table. -/
theorem not_readsRight_of_misread (hsort : ∀ xs, (sort xs).Perm xs) (h : Misread line) :
    ¬ ReadsRight sort line := by
  intro hright
  obtain ⟨⟨⟨m, n, k⟩, r⟩, rest, hread⟩ := readRow_of_misread h
  rcases hright with hrow | hnothing
  · obtain ⟨m', n', k', r', hfields, _⟩ := hrow
    exact not_eightFields_of_misread h hfields
  · have hempty := hnothing {}
    simp only [loadLine, hread] at hempty
    exact record_ne_empty hsort m n k r hempty

/-- **`load` reads a line right if and only if it is not misread.**  For every line and
every sort: it is recorded with the values of its eight fields, or does nothing, unless
the extractions take it for eight numbers with one character between them where these
are no row: a gap that is more than a comma, something after the last number, white space
or a plus in front of a number, a key with a minus, or a flag other than 0 and 1. -/
theorem readsRight_iff (hsort : ∀ xs, (sort xs).Perm xs) (line : List Char) :
    ReadsRight sort line ↔ ¬ Misread line := by
  constructor
  · exact fun hright hmisread => not_readsRight_of_misread hsort hmisread hright
  · intro h
    cases hread : readRow line with
    | none =>
        refine Or.inr fun db => ?_
        simp only [loadLine, hread]
    | some taken =>
        obtain ⟨⟨⟨m, n, k⟩, r⟩, rest⟩ := taken
        refine Or.inl ⟨m, n, k, r, eightFields_of_readRow h hread, fun db => ?_⟩
        simp only [loadLine, hread]

/-- A written row is read right. -/
theorem readsRight_iff_example :
    ReadsRight sortByLatency (rowText (128, 128, 128) (measured (.natural 24 (by decide))).2) := by
  refine (readsRight_iff sortsByLatency.perm _).mpr ?_
  have hrow := writable_measured (.natural 24 (by decide)) _ (List.mem_singleton_self _)
  have hlatency : (Double.natural 3 (by decide)).reread = some (.natural 3 (by decide)) :=
    reread_eq_self_iff.mpr (by decide +kernel)
  have hthroughput : (Double.natural 24 (by decide)).reread = some (.natural 24 (by decide)) :=
    reread_eq_self_iff.mpr (by decide +kernel)
  have hreread : rereadRow (measured (.natural 24 (by decide))) =
      some (measured (.natural 24 (by decide))) := by
    simp only [rereadRow, measured, hlatency, hthroughput, Option.bind_some, Option.map_some]
  exact fun h => not_eightFields_of_misread h (eightFields_rowText hrow hreread)

/-- A row that lost its first comma to a point is recorded all the same. -/
theorem lost_comma_recorded : ¬ ReadsRight sortByLatency "1.2,3,16,4,1,5,7".toList := by
  refine not_readsRight_of_misread sortsByLatency.perm ?_
  have hpoint : IsGap ['.'] := ⟨[], '.', rfl, by simp, rfl⟩
  have hcomma : IsGap [','] := ⟨[], ',', rfl, by simp, rfl⟩
  refine ⟨[⟨['1'], ['.']⟩, ⟨['2'], [',']⟩, ⟨['3'], [',']⟩, ⟨['1', '6'], [',']⟩, ⟨['4'], [',']⟩,
    ⟨['1'], [',']⟩, ⟨['5'], [',']⟩, ⟨['7'], []⟩], rfl, ?_, ?_⟩
  · refine .more ?_ hpoint (.more ?_ hcomma (.more ?_ hcomma (.more ?_ hcomma (.more ?_ hcomma
      (.more ?_ hcomma (.more ?_ hcomma (.last ?_)))))))
    all_goals decide +kernel
  · intro h
    cases h

end Gpuforge

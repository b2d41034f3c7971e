import Gpuforge.JsonUnique
import Gpuforge.OpenEvents
import Gpuforge.TextStreams

/-!
# Exported traces (`telemetry.cpp`)

`chrome_json` writes the events of a recorder as one JSON object by hand.  Names and
categories go through `json_escape`, which puts a backslash before backslashes and
quotes and leaves every other character alone.  That is right for all characters that
may stand in a JSON string, but a control character may not: the text stands for the
recorded names and categories exactly if none of them has one
(`chromeJson_lists_iff`).  A newline in the name of an event already makes it no JSON
text at all.
-/

namespace Gpuforge

open TextStreams DecimalText JsonText LabelledRun

/-! ## Writing -/

/-- `json_escape`. -/
def jsonEscape (value : List Char) : List Char :=
  value.flatMap fun c => if c = '\\' ∨ c = '"' then ['\\', c] else [c]

/-- `t * 1000`; `none` is too large a product. -/
def micros (t : Double) : Option Double :=
  Double.round t.negative (t.magnitude * ((1000 : ℕ) : ℚ))
    (mul_nonneg t.nonneg (Nat.cast_nonneg _))

/-- `output << t * 1000`. -/
def microsText (t : Double) : List Char :=
  match micros t with
  | some x => x.text
  | none => (if t.negative then ['-'] else []) ++ "inf".toList

/-- What is written of one event, piece by piece. -/
def eventPieces (event : TraceEvent Double) : List (List Char) :=
  ["\x7b\"name\":\"".toList, jsonEscape event.name.toList, "\",\"cat\":\"".toList,
    jsonEscape event.cat.toList, "\",\"ph\":\"X\",\"ts\":".toList, microsText event.startMs,
    ",\"dur\":".toList, microsText event.durationMs, ",\"pid\":1,\"tid\":".toList,
    Nat.toDigits 10 event.tid.toNat, ['\x7d']]

/-- The object of one event. -/
def eventText (event : TraceEvent Double) : List Char := (eventPieces event).flatten

def TraceRecorder.chromeJson (r : TraceRecorder Double) : List Char :=
  "\x7b\"traceEvents\":[".toList ++ [','].intercalate (r.events.map eventText) ++ "]\x7d".toList

/-! ## Calls -/

section calls

variable {τ : Type}

/-- The names and categories of the events so far, after one more call. -/
def labelsAfter (labels : List (String × String)) : TraceCall τ → List (String × String)
  | .begin name cat _ _ => labels ++ [(name, cat)]
  | .end _ _ => labels
  | .instant name cat _ _ => labels ++ [(name, cat)]
  | .clear => []

/-- The names and categories given since the last clear. -/
def labelsOf (calls : List (TraceCall τ)) : List (String × String) :=
  calls.foldl labelsAfter []

/-- Every index that the stacks hold is that of an event. -/
def StacksInRange (r : TraceRecorder τ) : Prop :=
  ∀ name, ∀ i ∈ r.stack name, i < r.events.length

variable [Zero τ] [Sub τ] {r r' : TraceRecorder τ}

/-- What holds of every recorder: its stacks are in range and its events have the names
and categories that were given. -/
structure Labelled (calls : List (TraceCall τ)) (r : TraceRecorder τ) : Prop where
  inRange : StacksInRange r
  labels : (r.events.map fun event => (event.name, event.cat)) = labelsOf calls

/-- A call that closes an event leaves its name and its category. -/
theorem labels_of_step (h : r.Bookkept) {call : TraceCall τ} (hstep : CallStep r call r') :
    (r'.events.map fun event => (event.name, event.cat)) =
      labelsAfter (r.events.map fun event => (event.name, event.cat)) call := by
  cases call with
  | begin name cat now tid =>
      cases hstep
      simp [TraceRecorder.begin, labelsAfter]
  | «end» name now =>
      have hend : r.end name now = some r' := hstep
      rw [labelsAfter]
      cases htop : (r.stack name).getLast? with
      | none =>
          rw [TraceRecorder.end_of_none htop, Option.some.injEq] at hend
          rw [hend]
      | some eventId =>
          obtain ⟨event, r'', hevent, _, _, hclosed, hevents, _⟩ := h.end_of_some htop now
          rw [hend, Option.some.injEq] at hclosed
          subst hclosed
          obtain ⟨hlt, hself⟩ := List.getElem?_eq_some_iff.mp hevent
          have hkept := @List.set_getElem_self _
            (r.events.map fun event => (event.name, event.cat)) eventId (by simpa using hlt)
          rw [List.getElem_map, hself] at hkept
          rw [hevents, List.map_set]
          exact hkept
  | instant name cat now tid =>
      cases hstep
      simp [TraceRecorder.instant, labelsAfter]
  | clear =>
      cases hstep
      rfl

/-- What holds after every run. -/
theorem labelled_of_run {calls : List (TraceCall τ)} (hrun : Run CallStep {} calls r) :
    Labelled calls r := by
  refine ⟨fun name i hi => ((TraceRecorder.bookkept_of_run hrun).opened name i hi).1, ?_⟩
  induction hrun with
  | start => rfl
  | extend hbefore hstep ih =>
      rw [labels_of_step (TraceRecorder.bookkept_of_run hbefore) hstep, ih, labelsOf, labelsOf,
        List.foldl_concat]

end calls

/-! ## What is no JSON text -/

/-- No control characters. -/
def Clean (s : String) : Prop := ∀ c ∈ s.toList, 0x20 ≤ c.toNat

instance (s : String) : Decidable (Clean s) :=
  List.decidableBAll (fun c : Char => 0x20 ≤ c.toNat) s.toList

/-- An escaped text is left only if it has no control characters. -/
theorem scan_jsonEscape {value rest : List Char} {place : Place}
    (h : scan .inside (jsonEscape value ++ rest) = some place) :
    (∀ c ∈ value, 0x20 ≤ c.toNat) ∧ scan .inside rest = some place := by
  induction value with
  | nil => exact ⟨by simp, h⟩
  | cons c value ih =>
      have hstep : 0x20 ≤ c.toNat ∧ scan .inside (jsonEscape value ++ rest) = some place := by
        rw [jsonEscape, List.flatMap_cons, ← jsonEscape] at h
        by_cases hspecial : c = '\\' ∨ c = '"'
        · rw [if_pos hspecial, List.append_assoc, List.cons_append, List.cons_append,
            List.nil_append, scan_backslash, scan_cons] at h
          rcases hspecial with rfl | rfl
          · exact ⟨by decide, h⟩
          · exact ⟨by decide, h⟩
        · obtain ⟨hbackslash, hquote⟩ := not_or.mp hspecial
          rw [if_neg hspecial, List.append_assoc, List.singleton_append, scan_cons, scanStep] at h
          by_cases hcontrol : c.toNat < 0x20
          · rw [if_pos hcontrol] at h
            cases h
          · rw [if_neg hcontrol, if_neg hquote, if_neg hbackslash] at h
            exact ⟨by omega, h⟩
      obtain ⟨hvalue, hrest⟩ := ih hstep.2
      exact ⟨List.forall_mem_cons.mpr ⟨hstep.1, hvalue⟩, hrest⟩

/-- Numbers have no quotes, infinite ones neither. -/
theorem quote_not_mem_micros (t : Double) : '"' ∉ microsText t := by
  unfold microsText
  split
  · next x _ => exact fun hmem => absurd (isNumeric_double x _ hmem) (by decide)
  · split <;> decide

/-- An event is got through only if its name and its category are clean. -/
theorem scan_eventText {event : TraceEvent Double} {place : Place}
    (h : scan .outside (eventText event) = some place) :
    (Clean event.name ∧ Clean event.cat) ∧ place = .outside := by
  have hname : scan .outside "\x7b\"name\":\"".toList = some .inside := rfl
  have hcat : scan .inside "\",\"cat\":\"".toList = some .inside := rfl
  have hts : scan .inside "\",\"ph\":\"X\",\"ts\":".toList = some .outside := rfl
  have hdur : scan .outside ",\"dur\":".toList = some .outside := rfl
  have htid : scan .outside ",\"pid\":1,\"tid\":".toList = some .outside := rfl
  have hend : scan .outside ['\x7d'] = some .outside := rfl
  have hmicros := fun t => scan_outside (quote_not_mem_micros t)
  have hdigits : scan .outside (Nat.toDigits 10 event.tid.toNat) = some .outside :=
    scan_outside fun hmem => absurd (isNumeric_size _ _ hmem) (by decide)
  rw [eventText, eventPieces, List.flatten_cons, scan_piece hname, List.flatten_cons] at h
  obtain ⟨hcleanName, h⟩ := scan_jsonEscape h
  rw [List.flatten_cons, scan_piece hcat, List.flatten_cons] at h
  obtain ⟨hcleanCat, h⟩ := scan_jsonEscape h
  rw [List.flatten_cons, scan_piece hts, List.flatten_cons, scan_piece (hmicros _),
    List.flatten_cons, scan_piece hdur, List.flatten_cons, scan_piece (hmicros _),
    List.flatten_cons, scan_piece htid, List.flatten_cons, scan_piece hdigits,
    List.flatten_cons, scan_piece hend] at h
  exact ⟨⟨hcleanName, hcleanCat⟩, (Option.some.inj h).symm⟩

/-- So are the events of a trace. -/
theorem scan_events {events : List (TraceEvent Double)} {place : Place}
    (h : scan .outside ([','].intercalate (events.map eventText)) = some place) :
    ∀ event ∈ events, Clean event.name ∧ Clean event.cat := by
  induction events with
  | nil => simp
  | cons event events ih =>
      cases events with
      | nil =>
          rw [List.map_singleton, List.intercalate_singleton] at h
          exact List.forall_mem_singleton.mpr (scan_eventText h).1
      | cons next events =>
          rw [List.map_cons, List.map_cons, List.intercalate_cons_cons, ← List.map_cons,
            List.append_assoc, scan_append] at h
          obtain ⟨place', hevent, hrest⟩ := Option.bind_eq_some_iff.mp h
          obtain ⟨hclean, rfl⟩ := scan_eventText hevent
          rw [List.singleton_append, scan_plain (by simp)] at hrest
          exact List.forall_mem_cons.mpr ⟨hclean, ih hrest⟩

/-! ## What the text stands for -/

/-- The trace events of a value are objects with the names and categories of some
events, in order. -/
def Lists (events : List (TraceEvent Double)) (j : Json) : Prop :=
  ∃ items, j.field "traceEvents" = some (.array items) ∧
    List.Forall₂ (fun (item : Json) (event : TraceEvent Double) =>
      item.field "name" = some (.string (unitsOf event.name)) ∧
        item.field "cat" = some (.string (unitsOf event.cat))) items events

/-- The exported text is a JSON text, and the one value that it stands for lists the
events. -/
def ListsEvents (r : TraceRecorder Double) : Prop :=
  ∃ j, IsText r.chromeJson j ∧ (∀ j', IsText r.chromeJson j' → j' = j) ∧ Lists r.events j

/-- The times of an event are finite in microseconds. -/
def FiniteTimes (event : TraceEvent Double) : Prop :=
  (micros event.startMs).isSome = true ∧ (micros event.durationMs).isSome = true

/-- The value of an event. -/
def eventJson (event : TraceEvent Double) : Json :=
  .object [(unitsOf "name", .string (unitsOf event.name)),
    (unitsOf "cat", .string (unitsOf event.cat)), (unitsOf "ph", .string (unitsOf "X")),
    (unitsOf "ts", .number (microsText event.startMs)),
    (unitsOf "dur", .number (microsText event.durationMs)), (unitsOf "pid", .number ['1']),
    (unitsOf "tid", .number (Nat.toDigits 10 event.tid.toNat))]

/-- Escaping a clean text keeps what it stands for. -/
theorem chars_jsonEscape {value : List Char} (h : ∀ c ∈ value, 0x20 ≤ c.toNat) :
    Chars (jsonEscape value) (value.flatMap utf16) := by
  induction value with
  | nil => exact .nil
  | cons c value ih =>
      have hrest := ih fun d hd => h d (List.mem_cons_of_mem _ hd)
      rw [jsonEscape, List.flatMap_cons, List.flatMap_cons, ← jsonEscape]
      by_cases hspecial : c = '\\' ∨ c = '"'
      · rw [if_pos hspecial]
        rcases hspecial with rfl | rfl
        · exact .escape rfl hrest
        · exact .escape rfl hrest
      · obtain ⟨hbackslash, hquote⟩ := not_or.mp hspecial
        rw [if_neg hspecial]
        exact .unescaped ⟨h c List.mem_cons_self, hquote, hbackslash⟩ hrest

/-- A finite double is a number. -/
theorem isNumber_double (x : Double) : IsNumber x.text := by
  have hformed := wellFormed_general (p := 6) (by omega) x.nonneg
  rw [Double.text]
  refine isNumber_numeral ?_ hformed
  split
  · exact Or.inr rfl
  · exact Or.inl rfl

/-- Finite times are numbers. -/
theorem isNumber_micros {t : Double} (h : (micros t).isSome = true) : IsNumber (microsText t) := by
  obtain ⟨x, hx⟩ := Option.isSome_iff_exists.mp h
  rw [microsText, hx]
  exact isNumber_double x

/-- The name of a member of an object. -/
theorem chars_name {name : String} (h : (name.toList.all fun c => Unescaped c) = true) :
    Chars name.toList (unitsOf name) := by
  refine chars_of_unescaped fun c hc => ?_
  exact of_decide_eq_true (List.all_eq_true.mp h c hc)

/-- The pieces of an event make up an object of seven members. -/
theorem eventText_members (event : TraceEvent Double) :
    eventText event = '\x7b' :: (quoted "name".toList ++
      ':' :: quoted (jsonEscape event.name.toList) ++ ',' :: (quoted "cat".toList ++
      ':' :: quoted (jsonEscape event.cat.toList) ++ ',' :: (quoted "ph".toList ++
      ':' :: quoted "X".toList ++ ',' :: (quoted "ts".toList ++
      ':' :: microsText event.startMs ++ ',' :: (quoted "dur".toList ++
      ':' :: microsText event.durationMs ++ ',' :: (quoted "pid".toList ++
      ':' :: Nat.toDigits 10 1 ++ ',' :: (quoted "tid".toList ++
      ':' :: Nat.toDigits 10 event.tid.toNat))))))) ++ ['\x7d'] := by
  have hname : "\x7b\"name\":\"".toList = '\x7b' :: (quoted "name".toList ++ [':', '"']) := rfl
  have hcat : "\",\"cat\":\"".toList = '"' :: ',' :: (quoted "cat".toList ++ [':', '"']) := rfl
  have hts : "\",\"ph\":\"X\",\"ts\":".toList = '"' :: ',' :: (quoted "ph".toList ++
    ':' :: (quoted "X".toList ++ ',' :: (quoted "ts".toList ++ [':']))) := rfl
  have hdur : ",\"dur\":".toList = ',' :: (quoted "dur".toList ++ [':']) := rfl
  have htid : ",\"pid\":1,\"tid\":".toList = ',' :: (quoted "pid".toList ++
    ':' :: (Nat.toDigits 10 1 ++ ',' :: (quoted "tid".toList ++ [':']))) := rfl
  rw [eventText, eventPieces, hname, hcat, hts, hdur, htid]
  simp only [List.flatten_cons, List.flatten_nil, quoted, List.append_assoc, List.cons_append,
    List.nil_append]

/-- A clean event with finite times is written as its value. -/
theorem derives_eventText {event : TraceEvent Double} (hfinite : FiniteTimes event)
    (hclean : Clean event.name ∧ Clean event.cat) :
    Derives (.value (eventJson event)) (eventText event) := by
  have htid := derives_lastMember (@chars_name "tid" rfl)
    (.number (isNumber_natural event.tid.toNat))
  have hpid := derives_member (@chars_name "pid" rfl)
    (.number (isNumber_natural 1)) htid
  have hdur := derives_member (@chars_name "dur" rfl)
    (.number (isNumber_micros hfinite.2)) hpid
  have hts := derives_member (@chars_name "ts" rfl)
    (.number (isNumber_micros hfinite.1)) hdur
  have hph := derives_member (@chars_name "ph" rfl)
    (.string (@chars_name "X" rfl)) hts
  have hcat := derives_member (@chars_name "cat" rfl)
    (.string (chars_jsonEscape hclean.2)) hph
  have hname := derives_member (@chars_name "name" rfl)
    (.string (chars_jsonEscape hclean.1)) hcat
  have hobject := Derives.object hname
  rw [eventText_members]
  exact hobject

/-- The text is an object of one member. -/
theorem chromeJson_member (r : TraceRecorder Double) :
    r.chromeJson = '\x7b' :: (quoted "traceEvents".toList ++
      ':' :: ('[' :: [','].intercalate (r.events.map eventText) ++ [']'])) ++ ['\x7d'] := by
  have hopen : "\x7b\"traceEvents\":[".toList =
      '\x7b' :: (quoted "traceEvents".toList ++ [':', '[']) := rfl
  have hclose : "]\x7d".toList = [']', '\x7d'] := rfl
  -- `rw` would evaluate the text for its equation
  delta TraceRecorder.chromeJson
  rw [hopen, hclose]
  simp only [List.append_assoc, List.cons_append, List.nil_append]

/-- The text of clean events lists them. -/
theorem listsEvents_of_clean {r : TraceRecorder Double} (hfinite : ∀ e ∈ r.events, FiniteTimes e)
    (hclean : ∀ e ∈ r.events, Clean e.name ∧ Clean e.cat) : ListsEvents r := by
  have hderives : ∀ e ∈ r.events, Derives (.value (eventJson e)) (eventText e) :=
    fun e he => derives_eventText (hfinite e he) (hclean e he)
  have harray : Derives (.value (.array (r.events.map eventJson)))
      ('[' :: [','].intercalate (r.events.map eventText) ++ [']']) := by
    cases hevents : r.events with
    | nil => exact .emptyArray ws_nil
    | cons e events =>
        rw [hevents] at hderives
        exact .array (derives_elements e events hderives)
  have hobject := Derives.object
    (derives_lastMember (@chars_name "traceEvents" rfl) harray)
  have htext : IsText r.chromeJson (.object [(unitsOf "traceEvents",
      .array (r.events.map eventJson))]) := by
    refine ⟨[], _, [], ?_, ws_nil, ws_nil, hobject⟩
    rw [chromeJson_member, List.nil_append, List.append_nil]
  refine ⟨_, htext, fun j' h' => isText_unique h' htext, r.events.map eventJson, rfl, ?_⟩
  rw [List.forall₂_map_left_iff]
  exact List.forall₂_same.mpr fun event _ => ⟨rfl, rfl⟩

/-- Only clean events make a JSON text. -/
theorem clean_of_isText {r : TraceRecorder Double} {j : Json} (htext : IsText r.chromeJson j) :
    ∀ e ∈ r.events, Clean e.name ∧ Clean e.cat := by
  have hscan := scan_of_isText htext
  have hname := scan_quoted (@chars_name "traceEvents" rfl)
  rw [chromeJson_member, List.cons_append, scan_plain (by simp), List.append_assoc,
    scan_piece hname, List.cons_append, scan_plain (by simp), List.cons_append,
    List.cons_append, scan_plain (by simp), List.append_assoc, scan_append] at hscan
  obtain ⟨place, hevents, _⟩ := Option.bind_eq_some_iff.mp hscan
  exact scan_events hevents

/-- **Exported traces are JSON exactly if no name has a control character.**  After any
calls, when the times are finite, the text that `chrome_json` writes is a JSON text whose
trace events have, in order, the names and categories of the events if and only if no
name and no category given since the last clear has a character below `0x20`. -/
theorem chromeJson_lists_iff [Sub Double] {calls : List (TraceCall Double)}
    {r : TraceRecorder Double} (hrun : Run CallStep {} calls r)
    (hfinite : ∀ e ∈ r.events, FiniteTimes e) :
    ListsEvents r ↔ ∀ label ∈ labelsOf calls, Clean label.1 ∧ Clean label.2 := by
  have hlabels := (labelled_of_run hrun).labels
  rw [← hlabels, List.forall_mem_map]
  constructor
  · intro h
    obtain ⟨j, htext, _⟩ := h
    exact clean_of_isText htext
  · exact listsEvents_of_clean hfinite

/-- The difference of two clock readings that are not too far apart. -/
def difference (x y : Double) : Double :=
  (Double.round (decide (x.value < y.value)) |x.value - y.value| (abs_nonneg _)).getD 0

/-- Quotes and backslashes survive, here of a scope that took 2 ms. -/
theorem chromeJson_lists_iff_example :
    ∃ r, @Run _ _ (@CallStep Double _ ⟨difference⟩) {}
      [.begin "quoted\\name" "cat\"x" (.natural 3 (by decide)) 7,
        .end "quoted\\name" (.natural 5 (by decide))] r ∧ ListsEvents r := by
  have hrun : ∃ r, @Run _ _ (@CallStep Double _ ⟨difference⟩) {}
      [.begin "quoted\\name" "cat\"x" (.natural 3 (by decide)) 7,
        .end "quoted\\name" (.natural 5 (by decide))] r ∧ ∀ e ∈ r.events, FiniteTimes e := by
    have hbegin : @CallStep Double _ ⟨difference⟩ {}
        (.begin "quoted\\name" "cat\"x" (.natural 3 (by decide)) 7)
        (TraceRecorder.begin {} "quoted\\name" "cat\"x" (.natural 3 (by decide)) 7) := rfl
    refine ⟨_, .extend (.extend .start hbegin) rfl, ?_⟩
    intro e he
    rw [List.mem_singleton.mp he]
    exact ⟨by decide +kernel, by decide +kernel⟩
  obtain ⟨r, hrun, hfinite⟩ := hrun
  exact ⟨r, hrun, (@chromeJson_lists_iff ⟨difference⟩ _ _ hrun hfinite).mpr (by decide)⟩

/-- **A newline in a name.**  The text of one event with it stands for nothing. -/
theorem newline_no_json :
    ∃ r, @Run _ _ (@CallStep Double _ ⟨difference⟩) {} [.instant "a\nb" "" 0 7] r ∧
      (∀ e ∈ r.events, FiniteTimes e) ∧ (∀ j, ¬ IsText r.chromeJson j) ∧ ¬ ListsEvents r := by
  refine ⟨_, .extend .start rfl, ?_, ?_, ?_⟩
  · intro e he
    rw [List.mem_singleton.mp he]
    exact ⟨by decide +kernel, by decide +kernel⟩
  · intro j htext
    exact absurd (clean_of_isText htext _ (List.mem_singleton_self _)) (by decide)
  · intro hlists
    obtain ⟨j, htext, _⟩ := hlists
    exact absurd (clean_of_isText htext _ (List.mem_singleton_self _)) (by decide)

end Gpuforge

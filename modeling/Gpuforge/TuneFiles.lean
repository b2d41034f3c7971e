import Mathlib.Data.List.Sort
import Gpuforge.TextStreams
import Gpuforge.TuneTable

/-!
# Files of tuning results (`tuning.cpp`)

`serialize` writes a line of eight fields for every result of the table, the keys in
their order.  `load` reads a text line by line and records what it can read of it; a line
that it cannot read is skipped.  A written line reads back with its two doubles cut to
six digits (`readRow_rowText`).

A file that does not open is left out; the text of one that does is what was written.
-/

namespace Gpuforge

open TextStreams DecimalText

/-! ## Writing -/

/-- The order of the keys in a map. -/
def keyLe (a b : TuneKey) : Prop :=
  a.1 < b.1 ∨ (a.1 = b.1 ∧ (a.2.1 < b.2.1 ∨ (a.2.1 = b.2.1 ∧ a.2.2 ≤ b.2.2)))

instance (a b : TuneKey) : Decidable (keyLe a b) := by
  unfold keyLe; infer_instance

/-- One line of a file, without the newline. -/
def rowText (key : TuneKey) (r : TuneResult Double) : List Char :=
  Nat.toDigits 10 key.1 ++ ',' :: (Nat.toDigits 10 key.2.1 ++ ',' ::
    (Nat.toDigits 10 key.2.2 ++ ',' :: (intText r.config.tile ++ ',' ::
      (intText r.config.warps ++ ',' :: (intText (if r.config.useTensorCore then 1 else 0) ++
        ',' :: (r.latencyMs.text ++ ',' :: r.throughput.text))))))

namespace TuneDatabase

/-- The results of the table with their keys, as `serialize` goes through them. -/
def rows {δ : Type} (db : TuneDatabase δ) : List (TuneKey × TuneResult δ) :=
  (db.table.entries.insertionSort fun a b => keyLe a.1 b.1).flatMap fun entry =>
    entry.2.map fun r => (entry.1, r)

def serialize (db : TuneDatabase Double) : List Char :=
  db.rows.flatMap fun row => rowText row.1 row.2 ++ ['\n']

end TuneDatabase

/-! ## Reading -/

/-- The lines that `std::getline` takes from a text; the last one needs no newline. -/
def getlines : List Char → List (List Char)
  | [] => []
  | c :: rest =>
      if c = '\n' then [] :: getlines rest
      else
        match getlines rest with
        | [] => [[c]]
        | line :: lines => (c :: line) :: lines

/-- The extractions of one line. -/
def readRow : Extract (TuneKey × TuneResult Double) := do
  let m ← extractSize
  let _ ← extractChar
  let n ← extractSize
  let _ ← extractChar
  let k ← extractSize
  let _ ← extractChar
  let tile ← extractInt
  let _ ← extractChar
  let warps ← extractInt
  let _ ← extractChar
  let tensorCore ← extractInt
  let _ ← extractChar
  let latencyMs ← extractDouble
  let _ ← extractChar
  let throughput ← extractDouble
  return ((m, n, k), ⟨⟨tile, warps, decide (tensorCore ≠ 0)⟩, latencyMs, throughput, false⟩)

namespace TuneDatabase

/-- One turn of the loop of `load`. -/
def loadLine (sort : List (TuneResult Double) → List (TuneResult Double))
    (db : TuneDatabase Double) (line : List Char) : TuneDatabase Double :=
  match readRow line with
  | none => db
  | some (((m, n, k), result), _) => db.record sort m n k result

/-- `load` of a file with a text. -/
def load (sort : List (TuneResult Double) → List (TuneResult Double))
    (db : TuneDatabase Double) (text : List Char) : TuneDatabase Double :=
  (getlines text).foldl (loadLine sort) db

end TuneDatabase

/-! ## A line reads back -/

/-- A line ends at its newline. -/
theorem getlines_append {line : List Char} (hline : '\n' ∉ line) (rest : List Char) :
    getlines (line ++ '\n' :: rest) = line :: getlines rest := by
  induction line with
  | nil => rw [List.nil_append, getlines, if_pos rfl]
  | cons c line ih =>
      obtain ⟨hc, hline⟩ := not_or.mp fun hor => hline (List.mem_cons.mpr hor)
      rw [List.cons_append, getlines, if_neg (Ne.symm hc), ih hline]

/-- Lines that were written one after the other are taken one after the other. -/
theorem getlines_flatMap {β : Type} (line : β → List Char) (xs : List β)
    (hline : ∀ x ∈ xs, '\n' ∉ line x) :
    getlines (xs.flatMap fun x => line x ++ ['\n']) = xs.map line := by
  induction xs with
  | nil => rfl
  | cons x xs ih =>
      rw [List.flatMap_cons, List.append_assoc, List.singleton_append,
        getlines_append (hline x List.mem_cons_self),
        ih fun y hy => hline y (List.mem_cons_of_mem _ hy), List.map_cons]

/-- A line is written with the characters of numerals and commas. -/
theorem newline_not_mem_rowText (key : TuneKey) (r : TuneResult Double) :
    '\n' ∉ rowText key r := by
  have hnumeric : ∀ {text : List Char}, (∀ c ∈ text, IsNumeric c) → '\n' ∉ text :=
    fun h hmem => absurd (h _ hmem) (by decide)
  have hsize := fun n => hnumeric (isNumeric_size n)
  have hint := fun i => hnumeric (isNumeric_int i)
  have hdouble := fun x => hnumeric (isNumeric_double x)
  simp [rowText, hsize, hint, hdouble]

/-- The next extraction starts where the last one stopped. -/
theorem extract_bind {α β : Type} {x : Extract α} {f : α → Extract β} {text rest : List Char}
    {a : α} (h : x text = some (a, rest)) : (x >>= f) text = f a rest := by
  show (x text).bind _ = _
  rw [h]
  rfl

/-- Without a value nothing more is extracted. -/
theorem extract_bind_map {α β : Type} {x : Extract α} {f : α → Extract β}
    {text rest : List Char} {a : Option α} (h : x text = a.map fun a => (a, rest)) :
    (x >>= f) text = a.bind fun a => f a rest := by
  show (x text).bind _ = _
  rw [h]
  cases a <;> rfl

/-- A comma ends a number. -/
theorem endsNumeral_comma (rest : List Char) : EndsNumeral (',' :: rest) := by
  intro c hc
  cases hc
  decide

/-- A comma ends digits. -/
theorem endsDigits_comma (rest : List Char) : EndsDigits (',' :: rest) :=
  fun c hc => (endsNumeral_comma rest c hc).1

/-- What a line can hold: keys of type `size_t`, a configuration of `int`s. -/
structure Writable (row : TuneKey × TuneResult Double) : Prop where
  m : row.1.1 < 2 ^ 64
  n : row.1.2.1 < 2 ^ 64
  k : row.1.2.2 < 2 ^ 64
  tileLow : -2 ^ 31 ≤ row.2.config.tile
  tileHigh : row.2.config.tile < 2 ^ 31
  warpsLow : -2 ^ 31 ≤ row.2.config.warps
  warpsHigh : row.2.config.warps < 2 ^ 31

/-- What is read back of a row: its doubles have six digits, and `valid` is not written. -/
def rereadRow (row : TuneKey × TuneResult Double) : Option (TuneKey × TuneResult Double) :=
  row.2.latencyMs.reread.bind fun latencyMs => row.2.throughput.reread.map fun throughput =>
    (row.1, { config := row.2.config, latencyMs, throughput, valid := false })

/-- **A written line reads back, up to the digits of its doubles.** -/
theorem readRow_rowText {row : TuneKey × TuneResult Double} (h : Writable row) :
    readRow (rowText row.1 row.2) = (rereadRow row).map fun row' => (row', []) := by
  obtain ⟨⟨m, n, k⟩, ⟨⟨tile, warps, tensorCore⟩, latencyMs, throughput, valid⟩⟩ := row
  obtain ⟨hm, hn, hk, htl, hth, hwl, hwh⟩ := h
  dsimp only at hm hn hk htl hth hwl hwh
  have hcomma := fun rest => char_text (c := ',') (by decide) rest
  have hflag : (-2 ^ 31 : Int) ≤ (if tensorCore then 1 else 0) ∧
      (if tensorCore then 1 else 0) < (2 ^ 31 : Int) := by
    cases tensorCore <;> decide
  have hdecode : decide ((if tensorCore then 1 else 0 : Int) ≠ 0) = tensorCore := by
    cases tensorCore <;> decide
  unfold readRow rowText
  rw [extract_bind (size_text hm (endsDigits_comma _)), extract_bind (hcomma _),
    extract_bind (size_text hn (endsDigits_comma _)), extract_bind (hcomma _),
    extract_bind (size_text hk (endsDigits_comma _)), extract_bind (hcomma _),
    extract_bind (int_text htl hth (endsDigits_comma _)), extract_bind (hcomma _),
    extract_bind (int_text hwl hwh (endsDigits_comma _)), extract_bind (hcomma _),
    extract_bind (int_text hflag.1 hflag.2 (endsDigits_comma _)), extract_bind (hcomma _),
    extract_bind_map (double_text latencyMs (endsNumeral_comma _)), hdecode, rereadRow]
  cases latencyMs.reread with
  | none => rfl
  | some latencyMs' =>
      have hlast := @double_text throughput [] fun c hc => by cases hc
      rw [List.append_nil] at hlast
      rw [Option.bind_some, Option.bind_some, extract_bind (hcomma _), extract_bind_map hlast]
      cases throughput.reread <;> rfl

end Gpuforge

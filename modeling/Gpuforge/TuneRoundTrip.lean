import Mathlib.Data.Prod.Lex
import Gpuforge.TuneFiles

/-!
# What a saved tuning table loads back as (`tuning.cpp`)

The rows of a saved table are the results it holds, and every row is read back, with six
significant digits in its latency and its throughput.  A key has at most 32 rows, so
loading them drops none.  The table is therefore the old one exactly if each of its
numbers is the double nearest to its own six digits (`load_serialize_iff`).  A measured
`1234567` is not: it is written as `1.23457e+06`.

That a changed number cannot hide behind another changed number is the point of the other
direction: reading back is monotone, and a monotone map that permutes a list fixes it.
-/

namespace Gpuforge

open TextStreams SignificantDigits TuneDatabase

/-! ## Monotone permutations -/

/-- A monotone map that permutes a list fixes its entries. -/
theorem fixed_of_map_perm {α : Type} [LinearOrder α] {f : α → α} {xs : List α}
    (hmono : ∀ x ∈ xs, ∀ y ∈ xs, x ≤ y → f x ≤ f y) (hperm : (xs.map f).Perm xs) :
    ∀ x ∈ xs, f x = x := by
  have hsorted : (xs.insertionSort (· ≤ ·)).Pairwise (· ≤ ·) := List.pairwise_insertionSort _ _
  have hsame := List.perm_insertionSort (· ≤ ·) xs
  have hmapped : ((xs.insertionSort (· ≤ ·)).map f).Pairwise (· ≤ ·) := by
    refine List.pairwise_map.mpr (hsorted.imp_of_mem ?_)
    intro a b ha hb hle
    exact hmono a (hsame.mem_iff.mp ha) b (hsame.mem_iff.mp hb) hle
  -- both are sorted and have the same entries, so they agree place by place
  have heq : (xs.insertionSort (· ≤ ·)).map f = xs.insertionSort (· ≤ ·) :=
    (((hsame.map f).trans hperm).trans hsame.symm).eq_of_pairwise
      (fun a b _ _ hab hba => le_antisymm hab hba) hmapped hsorted
  intro x hx
  exact List.map_inj_left.mp (heq.trans (List.map_id _).symm) x (hsame.mem_iff.mpr hx)

/-- The same for a measure of the entries under a partial map. -/
theorem fixed_of_filterMap_perm {α β : Type} [LinearOrder β] {F : α → Option α} {g : α → β}
    {f : β → β} {xs : List α} (hF : ∀ a b, F a = some b → g b = f (g a))
    (hmono : ∀ a ∈ xs, ∀ b ∈ xs, g a ≤ g b → f (g a) ≤ f (g b))
    (hperm : (xs.filterMap F).Perm xs) : ∀ a ∈ xs, f (g a) = g a := by
  have hall : ∀ a ∈ xs, (F a).isSome = true :=
    List.filterMap_length_eq_length.mp hperm.length_eq
  have hmap : (xs.filterMap F).map g = (xs.map g).map f := by
    clear hperm hmono
    induction xs with
    | nil => rfl
    | cons a xs ih =>
        obtain ⟨b, hb⟩ := Option.isSome_iff_exists.mp (hall a List.mem_cons_self)
        rw [List.filterMap_cons_some hb, List.map_cons, List.map_cons, List.map_cons, hF a b hb,
          ih fun c hc => hall c (List.mem_cons_of_mem _ hc)]
  have hfixed := @fixed_of_map_perm β _ f (xs.map g)
    (by
      intro x hx y hy hle
      obtain ⟨a, ha, rfl⟩ := List.mem_map.mp hx
      obtain ⟨b, hb, rfl⟩ := List.mem_map.mp hy
      exact hmono a ha b hb hle)
    (by rw [← hmap]; exact hperm.map g)
  intro a ha
  exact hfixed (g a) (List.mem_map_of_mem ha)

/-! ## Numbers -/

/-- The number is the double nearest to its own six digits. -/
def SixDigit (x : Double) : Prop := nearest (Double.sixDigits x.magnitude) = x.magnitude

instance (x : Double) : Decidable (SixDigit x) := by
  unfold SixDigit; infer_instance

/-- What is read back has the old sign and the double nearest to the six digits. -/
theorem parts_of_reread {x y : Double} (h : x.reread = some y) :
    y.negative = x.negative ∧ y.magnitude = nearest (Double.sixDigits x.magnitude) := by
  unfold Double.reread Double.round at h
  split at h
  · cases h
    exact ⟨rfl, rfl⟩
  · cases h

/-- The numbers that read back unchanged. -/
theorem reread_eq_self_iff {x : Double} : x.reread = some x ↔ SixDigit x := by
  constructor
  · intro h
    exact (parts_of_reread h).2.symm
  · intro h
    have hbounded : nearest (Double.sixDigits x.magnitude) < limit := by
      rw [h]
      exact x.bounded
    have hread : x.reread = some ⟨x.negative, nearest (Double.sixDigits x.magnitude), _, _, _⟩ :=
      dif_pos hbounded
    rw [hread]
    exact congrArg some (Double.ext rfl h)

/-- Sign and magnitude of a double, in an order in which reading back is monotone. -/
def signed (x : Double) : Bool ×ₗ ℚ := toLex (x.negative, x.magnitude)

/-- What reading back does to sign and magnitude. -/
def resigned (s : Bool ×ₗ ℚ) : Bool ×ₗ ℚ :=
  toLex ((ofLex s).1, nearest (Double.sixDigits (ofLex s).2))

/-- Reading back is monotone. -/
theorem resigned_mono {x y : Double} (h : signed x ≤ signed y) :
    resigned (signed x) ≤ resigned (signed y) := by
  rcases Prod.Lex.le_iff.mp h with hsign | ⟨hsign, hmagnitude⟩
  · exact Prod.Lex.le_iff.mpr (Or.inl hsign)
  · refine Prod.Lex.le_iff.mpr (Or.inr ⟨hsign, ?_⟩)
    exact roundTo_mono (by omega) (by omega) (Double.sixDigits_nonneg x.nonneg)
      (roundTo_mono (by omega) (by omega) x.nonneg hmagnitude)

/-- A fixed sign and magnitude reads back unchanged. -/
theorem sixDigit_of_resigned {x : Double} (h : resigned (signed x) = signed x) : SixDigit x :=
  (Prod.ext_iff.mp (congrArg ofLex h)).2

/-! ## The rows of a table -/

/-- What is read back of a result. -/
def rereadResult (r : TuneResult Double) : Option (TuneResult Double) :=
  r.latencyMs.reread.bind fun latencyMs => r.throughput.reread.map fun throughput =>
    { config := r.config, latencyMs, throughput, valid := true }

/-- The rows under a key are its entries. -/
theorem under_rows {δ : Type} (db : TuneDatabase δ) (m n k : Nat) :
    (under (m, n, k) db.rows).Perm (db.candidates m n k) := by
  have hsort := List.perm_insertionSort (fun a b => keyLe a.1 b.1) db.table.entries
  refine (((hsort.flatMap_right _).filter _).map _).trans ?_
  -- a key has one entry only, so the rows of the others are filtered out
  suffices ∀ entries : List (Sigma fun _ : TuneKey => List (TuneResult δ)), entries.NodupKeys →
      under (m, n, k) (entries.flatMap fun entry => entry.2.map fun r => (entry.1, r)) =
        (entries.dlookup (m, n, k)).getD [] from
    List.Perm.of_eq (this _ db.table.nodupKeys)
  intro entries hnodup
  induction entries with
  | nil => rfl
  | cons entry rest ih =>
      obtain ⟨key, results⟩ := entry
      obtain ⟨hfresh, hrest⟩ := List.nodupKeys_cons.mp hnodup
      have happend : ∀ xs ys : List (TuneKey × TuneResult δ),
          under (m, n, k) (xs ++ ys) = under (m, n, k) xs ++ under (m, n, k) ys := by
        intro xs ys
        rw [under, List.filter_append, List.map_append, under, under]
      rw [List.flatMap_cons, happend, ih hrest]
      by_cases hkey : key = (m, n, k)
      · subst hkey
        rw [List.dlookup_cons_eq, List.dlookup_eq_none.mpr hfresh]
        simp [under, List.filter_map, Function.comp_def]
      · rw [List.dlookup_cons_ne _ _ (Ne.symm hkey)]
        simp [under, hkey]

/-- The rows under a key that read back. -/
theorem under_reread (key : TuneKey) (rows : List (TuneKey × TuneResult Double)) :
    (under key (rows.filterMap rereadRow)).map (fun r => { r with valid := true }) =
      (under key rows).filterMap rereadResult := by
  induction rows with
  | nil => rfl
  | cons row rows ih =>
      have hparts : ∀ row', rereadRow row = some row' →
          row'.1 = row.1 ∧ rereadResult row.2 = some { row'.2 with valid := true } := by
        intro row' h
        unfold rereadRow at h
        obtain ⟨latencyMs, hlatency, h⟩ := Option.bind_eq_some_iff.mp h
        obtain ⟨throughput, hthroughput, h⟩ := Option.map_eq_some_iff.mp h
        subst h
        exact ⟨rfl, by rw [rereadResult, hlatency, hthroughput]; rfl⟩
      have hnone : rereadRow row = none → rereadResult row.2 = none := by
        unfold rereadRow rereadResult
        cases row.2.latencyMs.reread <;> simp
      rw [under_cons]
      cases hrow : rereadRow row with
      | none =>
          rw [List.filterMap_cons_none hrow, ih]
          split
          · rw [List.filterMap_cons_none (hnone hrow)]
          · rfl
      | some row' =>
          obtain ⟨hkey, hresult⟩ := hparts row' hrow
          rw [List.filterMap_cons_some hrow, under_cons, hkey]
          split
          · rw [List.map_cons, ih, List.filterMap_cons_some hresult]
          · exact ih

variable {sort : List (TuneResult Double) → List (TuneResult Double)} {db : TuneDatabase Double}

/-- Loading a saved table records the rows that read back. -/
theorem load_serialize (hrows : ∀ row ∈ db.rows, Writable row) (db' : TuneDatabase Double) :
    load sort db' db.serialize = db'.recordAll sort (db.rows.filterMap rereadRow) := by
  rw [load, TuneDatabase.serialize,
    getlines_flatMap _ _ fun row _ => newline_not_mem_rowText row.1 row.2]
  generalize db.rows = rows at hrows
  induction rows generalizing db' with
  | nil => rfl
  | cons row rows ih =>
      have hline := readRow_rowText (hrows row List.mem_cons_self)
      rw [List.map_cons, List.foldl_cons, ih _ fun r hr => hrows r (List.mem_cons_of_mem _ hr),
        loadLine, hline]
      cases hrow : rereadRow row with
      | none => rw [List.filterMap_cons_none hrow, Option.map_none]
      | some row' =>
          rw [List.filterMap_cons_some hrow, Option.map_some]
          rfl

/-! ## The loaded table -/

/-- The entries of a loaded table are those that read back. -/
theorem candidates_load (hsort : ∀ xs, (sort xs).Perm xs) (hrows : ∀ row ∈ db.rows, Writable row)
    (hlimit : ∀ m n k, (db.candidates m n k).length ≤ 32) (m n k : Nat) :
    ((load sort {} db.serialize).candidates m n k).Perm
      ((db.candidates m n k).filterMap rereadResult) := by
  have hread := under_reread (m, n, k) db.rows
  have hrest := ((under_rows db m n k).filterMap rereadResult)
  have hlength : (under (m, n, k) (db.rows.filterMap rereadRow)).length ≤ 32 := by
    have hmapped := congrArg List.length hread
    rw [List.length_map, hrest.length_eq] at hmapped
    exact hmapped.le.trans ((List.length_filterMap_le _ _).trans (hlimit m n k))
  have hrecord := candidates_recordAll hsort (db.rows.filterMap rereadRow) {} m n k
    (by simpa [candidates] using hlength)
  rw [load_serialize hrows]
  refine hrecord.trans ?_
  rw [show ({} : TuneDatabase Double).candidates m n k = [] from rfl, List.nil_append, hread]
  exact hrest

/-- What `std::sort` with the comparison of `record` gives. -/
structure SortsByLatency (sort : List (TuneResult Double) → List (TuneResult Double)) : Prop where
  perm : ∀ xs, (sort xs).Perm xs
  ordered : ∀ xs, (sort xs).Pairwise fun r r' => r.latencyMs.value ≤ r'.latencyMs.value

/-- Two tables hold the same results: under each key the same, up to the order of entries
with equal latency, and the same best latency. -/
structure SameResults (db db' : TuneDatabase Double) : Prop where
  results : ∀ m n k, (db'.candidates m n k).Perm (db.candidates m n k)
  latencies : ∀ m n k, (db'.candidates m n k).map (fun r => r.latencyMs.value) =
    (db.candidates m n k).map fun r => r.latencyMs.value
  best : ∀ m n k, (db'.best m n k).latencyMs.value = (db.best m n k).latencyMs.value

/-- Every latency and every throughput in the table is the double nearest to its own six
digits. -/
def AllSixDigit (db : TuneDatabase Double) : Prop :=
  ∀ m n k, ∀ r ∈ db.candidates m n k, SixDigit r.latencyMs ∧ SixDigit r.throughput

/-- Ordered tables with the same entries hold the same results. -/
theorem sameResults_of_perm {db' : TuneDatabase Double}
    (hordered : ∀ m n k, (db.candidates m n k).Pairwise fun r r' =>
      r.latencyMs.value ≤ r'.latencyMs.value)
    (hordered' : ∀ m n k, (db'.candidates m n k).Pairwise fun r r' =>
      r.latencyMs.value ≤ r'.latencyMs.value)
    (hperm : ∀ m n k, (db'.candidates m n k).Perm (db.candidates m n k)) : SameResults db db' := by
  have hlatencies : ∀ m n k, (db'.candidates m n k).map (fun r => r.latencyMs.value) =
      (db.candidates m n k).map fun r => r.latencyMs.value := by
    intro m n k
    exact ((hperm m n k).map _).eq_of_pairwise (fun a b _ _ hab hba => le_antisymm hab hba)
      (List.pairwise_map.mpr (hordered' m n k)) (List.pairwise_map.mpr (hordered m n k))
  refine ⟨hperm, hlatencies, ?_⟩
  intro m n k
  have hhead : ∀ xs : List (TuneResult Double), (xs.headD .initial).latencyMs.value =
      (xs.map fun r => r.latencyMs.value).headD (TuneResult.initial.latencyMs : Double).value := by
    intro xs
    cases xs <;> rfl
  rw [best_eq_head, best_eq_head, hhead, hhead, hlatencies]

/-- A table whose entries all come back has six-digit numbers. -/
theorem allSixDigit_of_perm (hperm : ∀ m n k,
    ((db.candidates m n k).filterMap rereadResult).Perm (db.candidates m n k)) :
    AllSixDigit db := by
  have hparts : ∀ r r' : TuneResult Double, rereadResult r = some r' →
      signed r'.latencyMs = resigned (signed r.latencyMs) ∧
        signed r'.throughput = resigned (signed r.throughput) := by
    intro r r' h
    obtain ⟨latencyMs, hlatency, h⟩ := Option.bind_eq_some_iff.mp h
    obtain ⟨throughput, hthroughput, h⟩ := Option.map_eq_some_iff.mp h
    subst h
    obtain ⟨hsign, hmagnitude⟩ := parts_of_reread hlatency
    obtain ⟨hsign', hmagnitude'⟩ := parts_of_reread hthroughput
    exact ⟨congrArg toLex (Prod.ext hsign hmagnitude),
      congrArg toLex (Prod.ext hsign' hmagnitude')⟩
  intro m n k r hr
  have hlatency := fixed_of_filterMap_perm (fun r r' h => (hparts r r' h).1)
    (fun a _ b _ h => resigned_mono h) (hperm m n k) r hr
  have hthroughput := fixed_of_filterMap_perm (fun r r' h => (hparts r r' h).2)
    (fun a _ b _ h => resigned_mono h) (hperm m n k) r hr
  exact ⟨sixDigit_of_resigned hlatency, sixDigit_of_resigned hthroughput⟩

/-- Six digits are read back as they were. -/
theorem filterMap_rereadResult (h : AllSixDigit db) (hvalid : db.AllValid) (m n k : Nat) :
    (db.candidates m n k).filterMap rereadResult = db.candidates m n k := by
  have hread : ∀ r ∈ db.candidates m n k, rereadResult r = some r := by
    intro r hr
    obtain ⟨hlatency, hthroughput⟩ := h m n k r hr
    rw [rereadResult, reread_eq_self_iff.mpr hlatency, reread_eq_self_iff.mpr hthroughput,
      Option.bind_some, Option.map_some, ← hvalid m n k r hr]
  rw [List.filterMap_congr hread, List.filterMap_some]

/-- What was recorded can be written, so the rows of the table can. -/
theorem writable_rows {le : TuneResult Double → TuneResult Double → Prop}
    {calls : List (TuneKey × TuneResult Double)} (h : Holds le calls db)
    (hcalls : ∀ call ∈ calls, Writable call) : ∀ row ∈ db.rows, Writable row := by
  intro row hrow
  obtain ⟨⟨m, n, k⟩, r⟩ := row
  have hunder : r ∈ under (m, n, k) db.rows :=
    List.mem_map.mpr ⟨_, List.mem_filter.mpr ⟨hrow, by simp⟩, rfl⟩
  obtain ⟨call, hcall, hkey, hmarked⟩ :=
    h.recorded m n k r ((under_rows db m n k).mem_iff.mp hunder)
  obtain ⟨hm, hn, hk, htl, hth, hwl, hwh⟩ := hcalls call hcall
  rw [hkey] at hm hn hk
  subst hmarked
  exact ⟨hm, hn, hk, htl, hth, hwl, hwh⟩

/-- The entries of a loaded table, after any run of records. -/
theorem candidates_reload (hsort : SortsByLatency sort)
    {calls : List (TuneKey × TuneResult Double)} (hcalls : ∀ call ∈ calls, Writable call)
    (m n k : Nat) :
    ((load sort {} (recordAll sort {} calls).serialize).candidates m n k).Perm
      (((recordAll sort {} calls).candidates m n k).filterMap rereadResult) := by
  have hholds := holds_recordAll hsort.perm hsort.ordered calls
  exact candidates_load hsort.perm (writable_rows hholds hcalls) hholds.limit m n k

/-! ## A sort and two tables -/

/-- Sorting by insertion, as `std::sort` may do. -/
def sortByLatency (xs : List (TuneResult Double)) : List (TuneResult Double) :=
  xs.insertionSort fun r r' => r.latencyMs.value ≤ r'.latencyMs.value

/-- It sorts. -/
theorem sortsByLatency : SortsByLatency sortByLatency where
  perm := fun xs => List.perm_insertionSort _ xs
  ordered := fun xs => by
    have htotal : Std.Total fun r r' : TuneResult Double =>
        r.latencyMs.value ≤ r'.latencyMs.value := ⟨fun r r' => le_total _ _⟩
    have htrans : IsTrans (TuneResult Double) fun r r' =>
        r.latencyMs.value ≤ r'.latencyMs.value := ⟨fun _ _ _ => le_trans⟩
    exact List.pairwise_insertionSort _ xs

/-- A result of 3 ms with some throughput. -/
def measured (throughput : Double) : TuneKey × TuneResult Double :=
  ((128, 128, 128), ⟨{}, .natural 3 (by decide), throughput, false⟩)

/-- It can be written. -/
theorem writable_measured (throughput : Double) : ∀ call ∈ [measured throughput],
    Writable call := by
  intro call hcall
  rw [List.mem_singleton.mp hcall]
  have hkey : 128 < 2 ^ 64 := by decide
  have htile : (-2 ^ 31 : Int) ≤ 16 ∧ (16 : Int) < 2 ^ 31 := by decide
  have hwarps : (-2 ^ 31 : Int) ≤ 4 ∧ (4 : Int) < 2 ^ 31 := by decide
  exact ⟨hkey, hkey, hkey, htile.1, htile.2, hwarps.1, hwarps.2⟩

/-! ## When a table loads back unchanged -/

/-- **A saved table loads back unchanged exactly if its numbers have six digits.**  After
any records of finite numbers, loading what `serialize` writes into an empty table gives
the same results and the same best latencies if and only if every latency and every
throughput in the table is the double nearest to its own six significant digits. -/
theorem load_serialize_iff (hsort : SortsByLatency sort)
    {calls : List (TuneKey × TuneResult Double)} (hcalls : ∀ call ∈ calls, Writable call) :
    SameResults (recordAll sort {} calls) (load sort {} (recordAll sort {} calls).serialize) ↔
      AllSixDigit (recordAll sort {} calls) := by
  have hholds := holds_recordAll hsort.perm hsort.ordered calls
  have hreload := candidates_reload hsort hcalls
  constructor
  · intro h
    exact allSixDigit_of_perm fun m n k => (hreload m n k).symm.trans (h.results m n k)
  · intro h
    have hvalid : (recordAll sort {} calls).AllValid := by
      intro m n k r hr
      obtain ⟨_, _, _, hmarked⟩ := hholds.recorded m n k r hr
      rw [hmarked]
    refine sameResults_of_perm hholds.ordered ?_ ?_
    · rw [load_serialize (writable_rows hholds hcalls)]
      exact (holds_recordAll hsort.perm hsort.ordered _).ordered
    · intro m n k
      have hsame := hreload m n k
      rwa [filterMap_rereadResult h hvalid] at hsame

/-- A table with a throughput of 24 loads back unchanged. -/
theorem load_serialize_iff_example :
    SameResults (recordAll sortByLatency {} [measured (.natural 24 (by decide))])
      (load sortByLatency {}
        (recordAll sortByLatency {} [measured (.natural 24 (by decide))]).serialize) := by
  refine (load_serialize_iff sortsByLatency (writable_measured _)).mpr ?_
  intro m n k r hr
  obtain ⟨call, hcall, _, hmarked⟩ :=
    (holds_recordAll sortsByLatency.perm sortsByLatency.ordered _).recorded m n k r hr
  rw [hmarked, List.mem_singleton.mp hcall]
  exact ⟨by decide +kernel, by decide +kernel⟩

/-- A table with a throughput of 1234567 does not. -/
theorem throughput_rewritten :
    ¬ SameResults (recordAll sortByLatency {} [measured (.natural 1234567 (by decide))])
      (load sortByLatency {}
        (recordAll sortByLatency {} [measured (.natural 1234567 (by decide))]).serialize) := by
  intro h
  have hperm := fun m n k => (candidates_reload sortsByLatency
    (writable_measured (.natural 1234567 (by decide))) m n k).symm.trans (h.results m n k)
  have hdigits := (allSixDigit_of_perm hperm 128 128 128
    { (measured (.natural 1234567 (by decide))).2 with valid := true } (by decide +kernel)).2
  revert hdigits
  decide +kernel

end Gpuforge

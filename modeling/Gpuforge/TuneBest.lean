import Mathlib.Data.List.Sort
import Gpuforge.SmallestKept
import Gpuforge.TuneTable

/-!
# The best results of a key (`tuning.cpp`)

`record` sorts the entries of a key by latency after every result and cuts them to 32.
`Searcher::select` looks through a list of results at once: it takes one of the smallest
latency, and an invalid one only where there is no other.

What a table holds for a key is a matter of the results under that key alone.  They are
the fastest that were ever recorded (`keeps_recordAll`), and the first of them is as fast
as what `select` finds in the whole history (`table_keeps_best`).
-/

namespace Gpuforge

open SmallestKept

/-! ## Choosing from a list -/

section select

variable {δ : Type} [LinearOrder δ]

/-- The comparison of `select`: invalid results come last. -/
def comesBefore (lhs rhs : TuneResult δ) : Bool :=
  if lhs.valid = false then false
  else if rhs.valid = false then true
  else decide (lhs.latencyMs < rhs.latencyMs)

/-- `Searcher::select`. -/
def select [Zero δ] (results : List (TuneResult δ)) : TuneResult δ :=
  (minElement comesBefore results).getD .initial

/-- What the comparison says. -/
theorem comesBefore_iff (lhs rhs : TuneResult δ) : comesBefore lhs rhs = true ↔
    lhs.valid = true ∧ (rhs.valid = true → lhs.latencyMs < rhs.latencyMs) := by
  unfold comesBefore
  cases hlhs : lhs.valid <;> cases hrhs : rhs.valid <;> simp

/-- The comparison is a strict weak order, invalid results included. -/
theorem strictWeak_comesBefore : StrictWeak (comesBefore (δ := δ)) where
  asymm := by
    intro a b hab
    obtain ⟨ha, hlt⟩ := (comesBefore_iff a b).mp hab
    rw [Bool.eq_false_iff]
    intro hba
    obtain ⟨hb, hlt'⟩ := (comesBefore_iff b a).mp hba
    exact lt_asymm (hlt hb) (hlt' ha)
  trans := by
    intro a b c hab hbc
    rw [Bool.eq_false_iff, ne_eq, comesBefore_iff] at hab hbc ⊢
    intro hac
    obtain ⟨ha, hlt⟩ := hac
    have hb : b.valid = true ∧ b.latencyMs ≤ a.latencyMs := by
      by_contra hno
      refine hab ⟨ha, fun hb => ?_⟩
      exact lt_of_not_ge fun hle => hno ⟨hb, hle⟩
    exact hbc ⟨hb.1, fun hc => lt_of_le_of_lt hb.2 (hlt hc)⟩

variable [Zero δ]

/-- **The choice of `select`.**  Where a result is valid, the chosen one is a valid one of
the list, and no valid one is faster. -/
theorem select_least {results : List (TuneResult δ)} (hvalid : ∃ r ∈ results, r.valid = true) :
    select results ∈ results ∧ (select results).valid = true ∧
      ∀ r ∈ results, r.valid = true → (select results).latencyMs ≤ r.latencyMs := by
  obtain ⟨r, hr, hrvalid⟩ := hvalid
  obtain ⟨least, hmem, hmin, hleast⟩ :=
    minElement_least (strictWeak_comesBefore (δ := δ)) (List.ne_nil_of_mem hr)
  have hselect : select results = least := by rw [select, hmin, Option.getD_some]
  have hbefore : ∀ y ∈ results, y.valid = true →
      ¬ (least.valid = true → y.latencyMs < least.latencyMs) := by
    intro y hy hyvalid hlt
    exact absurd ((comesBefore_iff y least).mpr ⟨hyvalid, hlt⟩) (by simp [hleast y hy])
  rw [hselect]
  refine ⟨hmem, ?_, ?_⟩
  · by_contra hinvalid
    exact hbefore r hr hrvalid fun hleastValid => absurd hleastValid hinvalid
  · intro y hy hyvalid
    exact le_of_not_gt fun hlt => hbefore y hy hyvalid fun _ => hlt

end select

/-! ## The table over a history -/

/-- A result as `record` marks it. -/
def TuneResult.marked {δ : Type} (r : TuneResult δ) : TuneResult δ := { r with valid := true }

/-- The order of `record`. -/
def NoSlower {δ : Type} [LE δ] (r r' : TuneResult δ) : Prop := r.latencyMs ≤ r'.latencyMs

/-- It is transitive. -/
theorem NoSlower.trans {δ : Type} [Preorder δ] (a b c : TuneResult δ) (hab : NoSlower a b)
    (hbc : NoSlower b c) : NoSlower a c := le_trans hab hbc

namespace TuneDatabase

variable {δ : Type} {sort : List (TuneResult δ) → List (TuneResult δ)}

/-- **A key keeps its fastest results.**  After any records, the entries of a key are in
order and are, up to 32, fastest ones of all that were recorded under it. -/
theorem keeps_recordAll [LinearOrder δ] (hperm : ∀ xs, (sort xs).Perm xs)
    (hordered : ∀ xs, (sort xs).Pairwise NoSlower) (calls : List (TuneKey × TuneResult δ))
    (m n k : Nat) :
    Keeps NoSlower 32 ((recordAll sort {} calls).candidates m n k)
      ((under (m, n, k) calls).map TuneResult.marked) := by
  induction calls using List.reverseRecOn with
  | nil => exact keeps_nil NoSlower 32
  | append_singleton calls call ih =>
      obtain ⟨⟨m', n', k'⟩, r⟩ := call
      rw [recordAll_concat, under_concat]
      by_cases hkey : (m', n', k') = (m, n, k)
      · cases hkey
        rw [if_pos rfl, List.map_append, List.map_singleton, candidates_record_self]
        exact ih.insert NoSlower.trans hperm hordered r.marked
      · rw [if_neg hkey, List.append_nil, candidates_record_ne (Ne.symm hkey)]
        exact ih

/-- What a key has after some records is a matter of what it had and of the records under
it. -/
theorem candidates_recordAll_filter (calls : List (TuneKey × TuneResult δ)) (m n k : Nat) :
    ∀ db db' : TuneDatabase δ, db.candidates m n k = db'.candidates m n k →
      (db.recordAll sort calls).candidates m n k =
        (db'.recordAll sort (calls.filter fun call => call.1 = (m, n, k))).candidates m n k := by
  induction calls with
  | nil => exact fun _ _ h => h
  | cons call calls ih =>
      intro db db' h
      obtain ⟨⟨m', n', k'⟩, r⟩ := call
      rw [recordAll_cons]
      by_cases hkey : (m', n', k') = (m, n, k)
      · cases hkey
        rw [List.filter_cons_of_pos (by simp), recordAll_cons]
        refine ih _ _ ?_
        rw [candidates_record_self, candidates_record_self, h]
      · rw [List.filter_cons_of_neg (by simpa using hkey)]
        refine ih _ _ ?_
        rw [candidates_record_ne (Ne.symm hkey), h]

/-- The best entry of a table whose entries under a key are fastest ones of some valid
results: it is valid if there is one, and as fast as what `select` finds among them. -/
theorem best_of_keeps [LinearOrder δ] [Zero δ] {db : TuneDatabase δ} {m n k : Nat}
    {results : List (TuneResult δ)} (hvalid : ∀ r ∈ results, r.valid = true)
    (h : Keeps NoSlower 32 (db.candidates m n k) results) :
    ((db.best m n k).valid = true ↔ results ≠ []) ∧
      (db.best m n k).latencyMs = (select results).latencyMs := by
  rw [best_eq_head]
  generalize db.candidates m n k = entries at h
  cases entries with
  | nil =>
      have hlength := h.length
      rw [List.length_nil] at hlength
      have hnil : results = [] := List.eq_nil_of_length_eq_zero (by omega)
      subst hnil
      exact ⟨⟨fun hinitial => absurd hinitial Bool.false_ne_true, fun hne => absurd rfl hne⟩, rfl⟩
  | cons first rest =>
      have hfirst : first ∈ results := h.mem List.mem_cons_self
      obtain ⟨hselect, _, hleast⟩ := select_least ⟨first, hfirst, hvalid first hfirst⟩
      have hle : NoSlower first (select results) := h.head_le (fun r => le_refl r.latencyMs) hselect
      rw [List.headD_cons]
      exact ⟨⟨fun _ => List.ne_nil_of_mem hfirst, fun _ => hvalid first hfirst⟩,
        le_antisymm hle (hleast first hfirst (hvalid first hfirst))⟩

/-- **The table keeps the 32 best.**  After any records of results with latencies from a
total order, for every key: the entries are in order, valid, and as many as were recorded
up to 32; no recorded result that is not among them is faster than one of them.  The best
entry is valid if anything was recorded, and as fast as what `select` finds among all
that was.  The records under other keys can be left out. -/
theorem table_keeps_best [LinearOrder δ] [Zero δ] (hperm : ∀ xs, (sort xs).Perm xs)
    (hordered : ∀ xs, (sort xs).Pairwise fun r r' => r.latencyMs ≤ r'.latencyMs)
    (calls : List (TuneKey × TuneResult δ)) (m n k : Nat) :
    let db := recordAll sort {} calls
    let results := (under (m, n, k) calls).map TuneResult.marked
    let alone := recordAll sort {} (calls.filter fun call => call.1 = (m, n, k))
    Keeps NoSlower 32 (db.candidates m n k) results ∧
      (∀ r ∈ db.candidates m n k, r.valid = true) ∧
      ((db.best m n k).valid = true ↔ under (m, n, k) calls ≠ []) ∧
      (db.best m n k).latencyMs = (select results).latencyMs ∧
      db.candidates m n k = alone.candidates m n k ∧ db.best m n k = alone.best m n k := by
  intro db results alone
  have hkeeps : Keeps NoSlower 32 (db.candidates m n k) results :=
    keeps_recordAll hperm hordered calls m n k
  have hvalid : ∀ r ∈ results, r.valid = true := by
    intro r hr
    obtain ⟨recorded, _, hmarked⟩ := List.mem_map.mp hr
    rw [← hmarked]
    rfl
  have halone : db.candidates m n k = alone.candidates m n k :=
    candidates_recordAll_filter calls m n k {} {} rfl
  obtain ⟨hbest, hlatency⟩ := best_of_keeps hvalid hkeeps
  have hnonempty : results ≠ [] ↔ under (m, n, k) calls ≠ [] := by
    rw [ne_eq, ne_eq, List.map_eq_nil_iff]
  exact ⟨hkeeps, fun r hr => hvalid r (hkeeps.mem hr), hbest.trans hnonempty, hlatency, halone,
    by rw [best_eq_head, best_eq_head, halone]⟩

/-- An insertion sort by an integer latency, and three records under two keys. -/
theorem table_keeps_best_example :
    let sort := fun xs : List (TuneResult Int) =>
      xs.insertionSort fun r r' => r.latencyMs ≤ r'.latencyMs
    let slow : TuneResult Int := ⟨{}, 7, 1, false⟩
    let fast : TuneResult Int := ⟨{}, 3, 1, false⟩
    let db := recordAll sort {} [((1, 1, 1), slow), ((2, 2, 2), slow), ((1, 1, 1), fast)]
    Keeps NoSlower 32 (db.candidates 1 1 1) [slow.marked, fast.marked] ∧
      (db.best 1 1 1).latencyMs = (select [slow.marked, fast.marked]).latencyMs := by
  intro sort slow fast db
  have htotal : Std.Total fun r r' : TuneResult Int => r.latencyMs ≤ r'.latencyMs :=
    ⟨fun r r' => le_total _ _⟩
  have htrans : IsTrans (TuneResult Int) fun r r' => r.latencyMs ≤ r'.latencyMs :=
    ⟨fun _ _ _ => le_trans⟩
  have hrun := table_keeps_best (fun xs => List.perm_insertionSort _ xs)
    (fun xs => List.pairwise_insertionSort _ xs)
    [((1, 1, 1), slow), ((2, 2, 2), slow), ((1, 1, 1), fast)] 1 1 1
  exact ⟨hrun.1, hrun.2.2.2.1⟩

end TuneDatabase

end Gpuforge

import Mathlib.Algebra.Order.Ring.Int
import Mathlib.Data.List.AList
import Mathlib.Data.List.Induction
import Gpuforge.CallOutcome

/-!
# The tuning table and the autotuner (`tuning.cpp`, `autotune.cpp`)

A `TuneDatabase` keeps, for each problem `(m, n, k)`, up to 32 results in the
order of their latency.  `GemmAutoTuner::run` measures the configurations of a
GEMM and records every result under the key of the problem: for an `M x K` by
`K x N` product this is `(M, N, K)`.

Latencies and throughputs are doubles; their type is a parameter.  So are
`std::sort` by latency and the measurement of a configuration.  A tuner starts with
the table that it may have loaded from a file.
-/

namespace Gpuforge

/-- The fields of a `GemmConfig`. -/
structure GemmConfig where
  tile : Int := 16
  warps : Int := 4
  useTensorCore : Bool := false
  deriving DecidableEq, Repr

structure TuneResult (δ : Type) where
  config : GemmConfig
  latencyMs : δ
  throughput : δ
  valid : Bool
  deriving DecidableEq, Repr

/-- `TuneResult{}`. -/
def TuneResult.initial {δ : Type} [Zero δ] : TuneResult δ :=
  { config := {}, latencyMs := 0, throughput := 0, valid := false }

/-- `m`, `n` and `k` of a product. -/
abbrev TuneKey := Nat × Nat × Nat

structure TuneDatabase (δ : Type) where
  table : AList fun _ : TuneKey => List (TuneResult δ) := ∅

/-- `Searcher::gemm_space`. -/
def gemmSpace (m n k : Nat) : List GemmConfig :=
  [8, 16, 32].flatMap fun tile =>
    [2, 4, 8].flatMap fun warps =>
      [false, true].filterMap fun tensorCore =>
        if tensorCore = true ∧ k % 16 ≠ 0 then none
        else if m % tile ≠ 0 ∧ n % tile ≠ 0 then none
        else some ⟨tile, warps, tensorCore⟩

/-! ## The table -/

section table

variable {δ : Type}

namespace TuneDatabase

/-- The entries under a key; a missing key has none. -/
def candidates (db : TuneDatabase δ) (m n k : Nat) : List (TuneResult δ) :=
  (db.table.lookup (m, n, k)).getD []

def record (sort : List (TuneResult δ) → List (TuneResult δ)) (db : TuneDatabase δ)
    (m n k : Nat) (result : TuneResult δ) : TuneDatabase δ :=
  let result := { result with valid := true }
  let entries := sort (db.candidates m n k ++ [result])
  let entries := if 32 < entries.length then entries.take 32 else entries
  { table := db.table.insert (m, n, k) entries }

/-- Every entry is marked valid. -/
def AllValid (db : TuneDatabase δ) : Prop :=
  ∀ m n k, ∀ r ∈ db.candidates m n k, r.valid = true

variable {sort : List (TuneResult δ) → List (TuneResult δ)} {db : TuneDatabase δ}

/-- A record under one key leaves the candidates of the others. -/
theorem candidates_record_ne {m n k m' n' k' : Nat} (hne : (m', n', k') ≠ (m, n, k))
    (r : TuneResult δ) :
    (db.record sort m n k r).candidates m' n' k' = db.candidates m' n' k' := by
  simp only [record, candidates, AList.lookup_insert_ne hne]

/-- The resize takes the first 32. -/
theorem take_of_limit {β : Type} (xs : List β) :
    (if 32 < xs.length then xs.take 32 else xs) = xs.take 32 := by
  split
  · rfl
  · rw [List.take_of_length_le (by omega)]

/-- What is recorded makes one candidate more, up to the limit. -/
theorem candidates_record_self (m n k : Nat) (r : TuneResult δ) :
    (db.record sort m n k r).candidates m n k =
      (sort (db.candidates m n k ++ [{ r with valid := true }])).take 32 := by
  simp only [record, candidates, AList.lookup_insert, Option.getD_some]
  exact take_of_limit _

/-- Records are valid entries. -/
theorem AllValid.record (hsort : ∀ xs, (sort xs).Perm xs) (h : db.AllValid)
    (m n k : Nat) (r : TuneResult δ) : (db.record sort m n k r).AllValid := by
  intro m' n' k' r' hr'
  by_cases hkey : (m', n', k') = (m, n, k)
  · cases hkey
    rw [candidates_record_self] at hr'
    have hmem := (hsort _).mem_iff.mp (List.mem_of_mem_take hr')
    rcases List.mem_append.mp hmem with hold | hnew
    · exact h _ _ _ r' hold
    · rw [List.mem_singleton.mp hnew]
  · rw [candidates_record_ne hkey] at hr'
    exact h _ _ _ r' hr'

/-! ## The best entry -/

variable [Zero δ]

def best (db : TuneDatabase δ) (m n k : Nat) : TuneResult δ :=
  match db.table.lookup (m, n, k) with
  | some (first :: _) => first
  | _ => .initial

/-- The best entry is the first candidate. -/
theorem best_eq_head (db : TuneDatabase δ) (m n k : Nat) :
    db.best m n k = (db.candidates m n k).headD .initial := by
  unfold best candidates
  cases db.table.lookup (m, n, k) with
  | none => rfl
  | some entries => cases entries <;> rfl

/-- After a record the key has a valid best entry. -/
theorem best_record_valid (hsort : ∀ xs, (sort xs).Perm xs) (h : db.AllValid)
    (m n k : Nat) (r : TuneResult δ) : ((db.record sort m n k r).best m n k).valid = true := by
  have hvalid := h.record hsort m n k r m n k
  have hlength : 0 < ((db.record sort m n k r).candidates m n k).length := by
    rw [candidates_record_self, List.length_take, (hsort _).length_eq, List.length_append,
      List.length_singleton]
    omega
  rw [best_eq_head]
  cases hentries : (db.record sort m n k r).candidates m n k with
  | nil => simp [hentries] at hlength
  | cons first rest =>
      rw [hentries] at hvalid
      exact hvalid first List.mem_cons_self

/-! ## Sequences of records -/

omit [Zero δ]

/-- Records one after the other. -/
def recordAll (sort : List (TuneResult δ) → List (TuneResult δ)) (db : TuneDatabase δ)
    (calls : List (TuneKey × TuneResult δ)) : TuneDatabase δ :=
  calls.foldl (fun db call => db.record sort call.1.1 call.1.2.1 call.1.2.2 call.2) db

/-- The first record of a history. -/
theorem recordAll_cons (db : TuneDatabase δ) (m n k : Nat) (r : TuneResult δ)
    (calls : List (TuneKey × TuneResult δ)) : db.recordAll sort (((m, n, k), r) :: calls) =
      (db.record sort m n k r).recordAll sort calls := rfl

/-- The last record of a history. -/
theorem recordAll_concat (db : TuneDatabase δ) (m n k : Nat) (r : TuneResult δ)
    (calls : List (TuneKey × TuneResult δ)) : db.recordAll sort (calls ++ [((m, n, k), r)]) =
      (db.recordAll sort calls).record sort m n k r := by
  rw [recordAll, List.foldl_concat, ← recordAll]

/-- The results with a key. -/
def under (key : TuneKey) (rows : List (TuneKey × TuneResult δ)) : List (TuneResult δ) :=
  (rows.filter fun row => row.1 = key).map Prod.snd

/-- A record puts its result under its key. -/
theorem under_cons (key : TuneKey) (row : TuneKey × TuneResult δ)
    (rows : List (TuneKey × TuneResult δ)) :
    under key (row :: rows) = if row.1 = key then row.2 :: under key rows else under key rows := by
  unfold under
  rw [List.filter_cons]
  by_cases hkey : row.1 = key <;> simp [hkey]

/-- The results of a longer history. -/
theorem under_concat (key : TuneKey) (rows : List (TuneKey × TuneResult δ))
    (row : TuneKey × TuneResult δ) :
    under key (rows ++ [row]) = under key rows ++ if row.1 = key then [row.2] else [] := by
  unfold under
  rw [List.filter_append, List.map_append]
  by_cases hkey : row.1 = key <;> simp [hkey]

/-- As long as there are not too many, all results stay. -/
theorem candidates_recordAll (hsort : ∀ xs, (sort xs).Perm xs)
    (calls : List (TuneKey × TuneResult δ)) (db : TuneDatabase δ) (m n k : Nat)
    (hfit : (db.candidates m n k).length + (under (m, n, k) calls).length ≤ 32) :
    ((db.recordAll sort calls).candidates m n k).Perm
      (db.candidates m n k ++ (under (m, n, k) calls).map fun r => { r with valid := true }) := by
  induction calls generalizing db with
  | nil =>
      rw [recordAll, under, List.foldl_nil, List.filter_nil, List.map_nil, List.map_nil,
        List.append_nil]
  | cons call calls ih =>
      obtain ⟨⟨m', n', k'⟩, r⟩ := call
      rw [recordAll_cons]
      rw [under_cons] at hfit ⊢
      by_cases hkey : (m', n', k') = (m, n, k)
      · cases hkey
        simp only [if_pos, List.length_cons] at hfit ⊢
        have hself := @candidates_record_self δ sort db m n k r
        have hlength : (sort (db.candidates m n k ++ [{ r with valid := true }])).length =
            (db.candidates m n k).length + 1 := by
          rw [(hsort _).length_eq, List.length_append, List.length_singleton]
        rw [List.take_of_length_le (by omega)] at hself
        refine (ih _ (by rw [hself]; omega)).trans ?_
        have hstep := (hsort (db.candidates m n k ++ [{ r with valid := true }])).append_right
          ((under (m, n, k) calls).map fun r => { r with valid := true })
        rw [List.append_assoc, List.singleton_append] at hstep
        rw [hself, List.map_cons]
        exact hstep
      · simp only [if_neg hkey] at hfit ⊢
        have hother := @candidates_record_ne δ sort db _ _ _ _ _ _ (Ne.symm hkey) r
        refine (ih _ (by rw [hother]; exact hfit)).trans ?_
        rw [hother]

/-- What a table holds after some records: for each key up to 32 entries in order, each
recorded under the key. -/
structure Holds (le : TuneResult δ → TuneResult δ → Prop)
    (calls : List (TuneKey × TuneResult δ)) (db : TuneDatabase δ) : Prop where
  limit : ∀ m n k, (db.candidates m n k).length ≤ 32
  ordered : ∀ m n k, (db.candidates m n k).Pairwise le
  recorded : ∀ m n k, ∀ r ∈ db.candidates m n k,
    ∃ call ∈ calls, call.1 = (m, n, k) ∧ r = { call.2 with valid := true }

variable {le : TuneResult δ → TuneResult δ → Prop} {calls : List (TuneKey × TuneResult δ)}

/-- One more record. -/
theorem Holds.record (hperm : ∀ xs, (sort xs).Perm xs) (hordered : ∀ xs, (sort xs).Pairwise le)
    (h : Holds le calls db) (m n k : Nat) (r : TuneResult δ) :
    Holds le (calls ++ [((m, n, k), r)]) (db.record sort m n k r) := by
  have hself := @candidates_record_self δ sort db m n k r
  refine ⟨?_, ?_, ?_⟩
  · intro m' n' k'
    by_cases hkey : (m', n', k') = (m, n, k)
    · cases hkey
      rw [hself, List.length_take]
      omega
    · rw [candidates_record_ne hkey]
      exact h.limit m' n' k'
  · intro m' n' k'
    by_cases hkey : (m', n', k') = (m, n, k)
    · cases hkey
      rw [hself]
      exact (hordered _).sublist (List.take_sublist _ _)
    · rw [candidates_record_ne hkey]
      exact h.ordered m' n' k'
  · intro m' n' k' r' hr'
    by_cases hkey : (m', n', k') = (m, n, k)
    · cases hkey
      rw [hself] at hr'
      rcases List.mem_append.mp ((hperm _).mem_iff.mp (List.mem_of_mem_take hr')) with hold | hnew
      · obtain ⟨call, hcall, hmarked⟩ := h.recorded m n k r' hold
        exact ⟨call, List.mem_append_left _ hcall, hmarked⟩
      · exact ⟨((m, n, k), r), by simp, rfl, List.mem_singleton.mp hnew⟩
    · rw [candidates_record_ne hkey] at hr'
      obtain ⟨call, hcall, hmarked⟩ := h.recorded m' n' k' r' hr'
      exact ⟨call, List.mem_append_left _ hcall, hmarked⟩

/-- **A table holds some of what was recorded**, in every run of records. -/
theorem holds_recordAll (hperm : ∀ xs, (sort xs).Perm xs)
    (hordered : ∀ xs, (sort xs).Pairwise le) (calls : List (TuneKey × TuneResult δ)) :
    Holds le calls (recordAll sort {} calls) := by
  induction calls using List.reverseRecOn with
  | nil =>
      have hempty : ∀ m n k, (recordAll sort {} []).candidates m n k = [] := fun _ _ _ => rfl
      exact ⟨by simp [hempty], by simp [hempty], by simp [hempty]⟩
  | append_singleton calls call ih =>
      obtain ⟨⟨m, n, k⟩, r⟩ := call
      rw [recordAll_concat]
      exact ih.record hperm hordered m n k r

end TuneDatabase

end table

/-! ## The autotuner -/

section tuner

variable {δ : Type}

/-- The loop of `run` over the measured rows. -/
def tuneRows (sort : List (TuneResult δ) → List (TuneResult δ)) (lt : δ → δ → Bool)
    (measure : GemmConfig → δ × δ) (m n k : Nat) :
    List GemmConfig → TuneResult δ → TuneDatabase δ → TuneResult δ × TuneDatabase δ
  | [], best, db => (best, db)
  | c :: rest, best, db =>
      let r : TuneResult δ := ⟨c, (measure c).1, (measure c).2, true⟩
      let best := if best.valid = false ∨ lt r.latencyMs best.latencyMs = true then r else best
      tuneRows sort lt measure m n k rest best (db.record sort m n k r)

variable {sort : List (TuneResult δ) → List (TuneResult δ)} {lt : δ → δ → Bool}
  {measure : GemmConfig → δ × δ}

/-- The rows are recorded under one key. -/
theorem tuneRows_candidates_ne {m n k m' n' k' : Nat} (hne : (m', n', k') ≠ (m, n, k))
    (configs : List GemmConfig) (best : TuneResult δ) (db : TuneDatabase δ) :
    (tuneRows sort lt measure m n k configs best db).2.candidates m' n' k' =
      db.candidates m' n' k' := by
  induction configs generalizing best db with
  | nil => rfl
  | cons c rest ih =>
      rw [tuneRows, ih]
      exact TuneDatabase.candidates_record_ne hne _

variable [Zero δ]

/-- `GemmAutoTuner::run`, given the shapes of its operands. -/
def autoTune (sort : List (TuneResult δ) → List (TuneResult δ)) (lt : δ → δ → Bool)
    (measure : GemmConfig → δ × δ) (db : TuneDatabase δ) (a b : List Nat) :
    Except Exn (TuneResult δ × TuneDatabase δ) :=
  match a, b with
  | [m, k], [k', n] =>
      if k ≠ k' then .error .invalidArgument
      else
        let cached := db.best m n k
        if cached.valid = true then .ok (cached, db)
        else
          match gemmSpace m n k with
          | [] => .error .invalidArgument
          | configs => .ok (tuneRows sort lt measure m n k configs .initial db)
  | _, _ => .error .invalidArgument

/-- With a row the key gets a valid best entry. -/
theorem tuneRows_best_valid (hsort : ∀ xs, (sort xs).Perm xs) (m n k : Nat)
    (configs : List GemmConfig) : ∀ (best : TuneResult δ) (db : TuneDatabase δ), db.AllValid →
      configs ≠ [] ∨ (db.best m n k).valid = true →
      ((tuneRows sort lt measure m n k configs best db).2.best m n k).valid = true := by
  induction configs with
  | nil =>
      intro best db _ h
      exact h.resolve_left fun hne => hne rfl
  | cons c rest ih =>
      intro best db hdb _
      rw [tuneRows]
      exact ih _ _ (hdb.record hsort m n k _)
        (Or.inr (TuneDatabase.best_record_valid hsort hdb m n k _))

/-- **The autotuner's key.**  A run on an `m x k` and a `k x n` operand that
returns leaves a valid best entry under `(m, n, k)` and the other keys as they
were. -/
theorem autoTune_key {db db' : TuneDatabase δ} (hsort : ∀ xs, (sort xs).Perm xs)
    (hdb : db.AllValid) {m k n : Nat} {result : TuneResult δ}
    (h : autoTune sort lt measure db [m, k] [k, n] = .ok (result, db')) :
    (db'.best m n k).valid = true ∧
      ∀ m' n' k', (m', n', k') ≠ (m, n, k) →
        db'.candidates m' n' k' = db.candidates m' n' k' := by
  simp only [autoTune, ne_eq, not_true_eq_false, if_false] at h
  split at h
  · rename_i hcached
    cases h
    exact ⟨hcached, fun _ _ _ _ => rfl⟩
  · split at h
    · cases h
    · rename_i hconfigs
      have hres := Except.ok.inj h
      have hdb' : db' = (tuneRows sort lt measure m n k (gemmSpace m n k) .initial db).2 := by
        rw [hres]
      rw [hdb']
      exact ⟨tuneRows_best_valid hsort m n k _ _ _ hdb (Or.inl hconfigs),
        fun _ _ _ hne => tuneRows_candidates_ne hne _ _ _⟩

end tuner

end Gpuforge

import Mathlib.Algebra.Order.Ring.Int
import Mathlib.Logic.Function.Basic
import Gpuforge.LabelledRun
import Gpuforge.TraceRecorder

/-!
# Scopes of many threads (`telemetry.cpp`)

A `ScopedTrace` begins an event when it is made and ends its name when it goes out of
scope, so the scopes of one thread are nested.  Threads share the recorder, and the
stack of a name knows nothing of threads: an end closes the latest open event of the
name.  That is the event of the scope as long as no scope of the same name that was
opened later is still open (`scopes_measured`).  Two threads that trace the same kernel
at the same time already close each other's events (`scopes_swapped`).
-/

namespace Gpuforge

open LabelledRun TraceRecorder

/-- A scope, with the clock at its begin and, once closed, at its end. -/
structure Scope (θ τ : Type) where
  thread : θ
  name : String
  cat : String
  opened : τ
  closed : Option τ := none
  deriving DecidableEq, Repr

/-! ## Open scopes of a name -/

variable {θ τ : Type}

/-- The open scopes of a name, in the order of their opening. -/
def openOf (scopes : List (Scope θ τ)) (name : String) : List Nat :=
  (List.range scopes.length).filter fun i =>
    (scopes[i]?).any fun scope => scope.name = name ∧ scope.closed = none

/-- The members of the list. -/
theorem mem_openOf {scopes : List (Scope θ τ)} {name : String} {i : Nat} :
    i ∈ openOf scopes name ↔
      ∃ scope, scopes[i]? = some scope ∧ scope.name = name ∧ scope.closed = none := by
  unfold openOf
  rw [List.mem_filter, List.mem_range]
  constructor
  · intro h
    obtain ⟨hlt, hopen⟩ := h
    rw [List.getElem?_eq_getElem hlt, Option.any_some, decide_eq_true_iff] at hopen
    exact ⟨scopes[i], List.getElem?_eq_getElem hlt, hopen⟩
  · intro h
    obtain ⟨scope, hscope, hname⟩ := h
    exact ⟨(List.getElem?_eq_some_iff.mp hscope).1, by simpa [hscope] using hname⟩

/-- The list increases. -/
theorem openOf_sorted (scopes : List (Scope θ τ)) (name : String) :
    (openOf scopes name).Pairwise (· < ·) :=
  List.pairwise_lt_range.filter _

/-- Two increasing lists with the same members are the same. -/
theorem eq_of_sorted {xs ys : List Nat} (hxs : xs.Pairwise (· < ·)) (hys : ys.Pairwise (· < ·))
    (h : ∀ i, i ∈ xs ↔ i ∈ ys) : xs = ys := by
  have hperm : xs.Perm ys := (List.perm_ext_iff_of_nodup (hxs.imp Nat.ne_of_lt)
    (hys.imp Nat.ne_of_lt)).mpr h
  exact hperm.eq_of_pairwise (fun a b _ _ hab hba => absurd hab (Nat.lt_asymm hba)) hxs hys

/-- An opened scope is the last open one of its name. -/
theorem openOf_enter (scopes : List (Scope θ τ)) (scope : Scope θ τ) (hopen : scope.closed = none)
    (name : String) : openOf (scopes ++ [scope]) name =
      openOf scopes name ++ if scope.name = name then [scopes.length] else [] := by
  refine eq_of_sorted (openOf_sorted _ _) ?_ ?_
  · refine List.pairwise_append.mpr ⟨openOf_sorted _ _, by split <;> simp, ?_⟩
    intro i hi j hj
    obtain ⟨old, hold, _⟩ := mem_openOf.mp hi
    have hlt := (List.getElem?_eq_some_iff.mp hold).1
    split at hj
    · rw [List.mem_singleton.mp hj]
      exact hlt
    · cases hj
  · intro i
    have hlast : i ∈ (if scope.name = name then [scopes.length] else []) ↔
        scope.name = name ∧ i = scopes.length := by
      split <;> simp_all
    rw [List.mem_append, hlast, mem_openOf, mem_openOf]
    rcases Nat.lt_trichotomy i scopes.length with hlt | rfl | hgt
    · rw [List.getElem?_append_left hlt]
      simp [Nat.ne_of_lt hlt]
    · rw [List.getElem?_concat_length, List.getElem?_eq_none (Nat.le_refl _)]
      simp [hopen]
    · rw [List.getElem?_eq_none (by simp; omega), List.getElem?_eq_none (by omega)]
      simp [Nat.ne_of_gt hgt]

/-- A closed scope leaves the open ones of its name. -/
theorem openOf_leave {scopes : List (Scope θ τ)} {i : Nat} {scope : Scope θ τ}
    (hscope : scopes[i]? = some scope) (now : τ) (name : String) :
    openOf (scopes.set i { scope with closed := some now }) name =
      (openOf scopes name).filter fun j => j ≠ i := by
  refine eq_of_sorted (openOf_sorted _ _) ((openOf_sorted _ _).filter _) ?_
  intro j
  rw [List.mem_filter, mem_openOf, mem_openOf]
  by_cases hij : j = i
  · subst hij
    have hlt := (List.getElem?_eq_some_iff.mp hscope).1
    rw [List.getElem?_set_self hlt]
    simp
  · rw [List.getElem?_set_ne (Ne.symm hij)]
    simp [hij]

/-- The largest entry of an increasing list stands at its end. -/
theorem dropLast_of_largest {xs : List Nat} {i : Nat} (hsorted : xs.Pairwise (· < ·))
    (hmem : i ∈ xs) (hlargest : ∀ j ∈ xs, j ≤ i) :
    xs.getLast? = some i ∧ xs.dropLast = xs.filter fun j => j ≠ i := by
  obtain ⟨before, after, rfl⟩ := List.append_of_mem hmem
  obtain ⟨_, hafter, hbefore⟩ := List.pairwise_append.mp hsorted
  have hnil : after = [] := by
    cases after with
    | nil => rfl
    | cons j rest =>
        have hlt := (List.pairwise_cons.mp hafter).1 j (List.mem_cons_self ..)
        have hle := hlargest j (by simp)
        omega
  subst hnil
  have hkept : before.filter (fun j => j ≠ i) = before := by
    refine List.filter_eq_self.mpr ?_
    intro j hj
    have hlt := hbefore j hj i (List.mem_singleton_self i)
    exact decide_eq_true (Nat.ne_of_lt hlt)
  constructor
  · exact List.getLast?_concat ..
  · rw [List.dropLast_concat, List.filter_append, hkept]
    simp

/-! ## Scopes on one recorder -/

/-- A recorder, the clock, all scopes in the order of their opening, and for each
thread its open scopes, innermost first. -/
structure Tracing (θ τ : Type) where
  recorder : TraceRecorder τ := {}
  clock : τ
  scopes : List (Scope θ τ) := []
  nested : θ → List Nat := fun _ => []

inductive ScopeCall (θ τ : Type) where
  | enter (thread : θ) (name cat : String) (now : τ)
  | leave (thread : θ) (now : τ)

variable [Zero τ] [Sub τ] {hash : θ → UInt64}

/-- A thread opens a scope, or closes its innermost one. -/
inductive ScopeStep [DecidableEq θ] [LE τ] (hash : θ → UInt64) :
    Tracing θ τ → ScopeCall θ τ → Tracing θ τ → Prop
  | enter {s : Tracing θ τ} {thread : θ} {name cat : String} {now : τ} (hclock : s.clock ≤ now) :
      ScopeStep hash s (.enter thread name cat now)
        { recorder := s.recorder.begin name cat now (hash thread)
          clock := now
          scopes := s.scopes ++ [{ thread := thread, name := name, cat := cat, opened := now }]
          nested := Function.update s.nested thread (s.scopes.length :: s.nested thread) }
  | leave {s : Tracing θ τ} {thread : θ} {now : τ} {i : Nat} {rest : List Nat}
      {scope : Scope θ τ} {r' : TraceRecorder τ} (hclock : s.clock ≤ now)
      (hstack : s.nested thread = i :: rest) (hscope : s.scopes[i]? = some scope)
      (hend : s.recorder.end scope.name now = some r') :
      ScopeStep hash s (.leave thread now)
        { recorder := r'
          clock := now
          scopes := s.scopes.set i { scope with closed := some now }
          nested := Function.update s.nested thread rest }

/-- The event that measures a scope. -/
def eventOf (hash : θ → UInt64) (scope : Scope θ τ) : TraceEvent τ :=
  { name := scope.name
    cat := scope.cat
    startMs := scope.opened
    durationMs := match scope.closed with
      | none => 0
      | some now => now - scope.opened
    tid := hash scope.thread }

/-- **Every event measures its scope.**  Once all scopes are closed, the events are
those of the scopes. -/
def EachMeasured (hash : θ → UInt64) (s : Tracing θ τ) : Prop :=
  (∀ scope ∈ s.scopes, scope.closed ≠ none) →
    s.recorder.events.Perm (s.scopes.map (eventOf hash))

/-- A thread closes a scope only when no scope of its name that was opened later is
still open. -/
def LatestOfName (s : Tracing θ τ) : ScopeCall θ τ → Prop
  | .enter .. => True
  | .leave thread _ => ∀ i rest scope, s.nested thread = i :: rest → s.scopes[i]? = some scope →
      ∀ j later, i < j → s.scopes[j]? = some later → later.name = scope.name →
        later.closed ≠ none

/-! ## Runs -/

variable {s s' : Tracing θ τ} {call : ScopeCall θ τ}

/-- What holds while threads close the latest scope of a name: events measure scopes,
the stack of a name lists its open scopes, and threads hold open scopes of their own. -/
structure Tracked (hash : θ → UInt64) (s : Tracing θ τ) : Prop where
  events : s.recorder.events = s.scopes.map (eventOf hash)
  named : ∀ name, s.recorder.stack name = openOf s.scopes name
  held : ∀ thread, ∀ i ∈ s.nested thread, ∃ scope, s.scopes[i]? = some scope ∧
    scope.thread = thread ∧ scope.closed = none
  distinct : ∀ thread, (s.nested thread).Nodup

/-- The event of a scope. -/
theorem Tracked.event (h : Tracked hash s) {i : Nat} {scope : Scope θ τ}
    (hscope : s.scopes[i]? = some scope) :
    s.recorder.events[i]? = some (eventOf hash scope) := by
  rw [h.events, List.getElem?_map, hscope, Option.map_some]

/-- The latest open scope of a name is on top of the stack of the name. -/
theorem Tracked.top (h : Tracked hash s) {i : Nat} {scope : Scope θ τ}
    (hscope : s.scopes[i]? = some scope) (hopen : scope.closed = none)
    (hlatest : ∀ j later, i < j → s.scopes[j]? = some later → later.name = scope.name →
      later.closed ≠ none) :
    (s.recorder.stack scope.name).getLast? = some i ∧ (s.recorder.stack scope.name).dropLast =
      (openOf s.scopes scope.name).filter fun j => j ≠ i := by
  rw [h.named]
  refine dropLast_of_largest (openOf_sorted _ _) (mem_openOf.mpr ⟨scope, hscope, rfl, hopen⟩) ?_
  intro j hj
  obtain ⟨later, hlater, hname, hstill⟩ := mem_openOf.mp hj
  by_contra hgt
  exact hlatest j later (by omega) hlater hname hstill

variable [DecidableEq θ]

/-- Opening a scope. -/
theorem Tracked.enter (h : Tracked hash s) (thread : θ) (name cat : String) (now : τ) :
    Tracked hash
      { recorder := s.recorder.begin name cat now (hash thread)
        clock := now
        scopes := s.scopes ++ [{ thread := thread, name := name, cat := cat, opened := now }]
        nested := Function.update s.nested thread (s.scopes.length :: s.nested thread) } := by
  have hlength : s.recorder.events.length = s.scopes.length := by
    rw [h.events, List.length_map]
  refine ⟨?_, ?_, ?_, ?_⟩
  · show s.recorder.events ++ _ = _
    rw [List.map_append, h.events]
    rfl
  · intro name'
    show (s.recorder.begin name cat now (hash thread)).stack name' = _
    rw [stack_begin, openOf_enter _ _ rfl, h.named, hlength]
  · intro thread' i hi
    dsimp only at hi ⊢
    have hold : ∀ t, i ∈ s.nested t → ∃ scope,
        (s.scopes ++ [{ thread := thread, name := name, cat := cat, opened := now }])[i]? =
          some scope ∧ scope.thread = t ∧ scope.closed = none := by
      intro t ht
      obtain ⟨scope, hscope, hthread⟩ := h.held t i ht
      have hlt := (List.getElem?_eq_some_iff.mp hscope).1
      exact ⟨scope, (List.getElem?_append_left hlt).trans hscope, hthread⟩
    by_cases hthread : thread' = thread
    · subst hthread
      rw [Function.update_self, List.mem_cons] at hi
      rcases hi with rfl | hi
      · exact ⟨_, List.getElem?_concat_length .., rfl, rfl⟩
      · exact hold thread' hi
    · rw [Function.update_of_ne hthread] at hi
      exact hold thread' hi
  · intro thread'
    dsimp only
    by_cases hthread : thread' = thread
    · subst hthread
      rw [Function.update_self, List.nodup_cons]
      refine ⟨?_, h.distinct thread'⟩
      intro hmem
      obtain ⟨scope, hscope, _⟩ := h.held thread' _ hmem
      exact Nat.lt_irrefl _ (List.getElem?_eq_some_iff.mp hscope).1
    · rw [Function.update_of_ne hthread]
      exact h.distinct thread'

/-- The scopes that the threads hold once one thread has left its innermost one. -/
theorem Tracked.held_after (h : Tracked hash s) {thread : θ} {i : Nat} {rest : List Nat}
    (hstack : s.nested thread = i :: rest) {thread' : θ} {j : Nat}
    (hj : j ∈ Function.update s.nested thread rest thread') : j ∈ s.nested thread' ∧ j ≠ i := by
  have hnodup := h.distinct thread
  rw [hstack, List.nodup_cons] at hnodup
  by_cases hthread : thread' = thread
  · subst hthread
    rw [Function.update_self] at hj
    exact ⟨by rw [hstack]; exact List.mem_cons_of_mem _ hj, fun hji => hnodup.1 (hji ▸ hj)⟩
  · rw [Function.update_of_ne hthread] at hj
    refine ⟨hj, ?_⟩
    intro hji
    obtain ⟨scope, hscope, howner, _⟩ := h.held thread i (by simp [hstack])
    obtain ⟨other, hother, hotherowner, _⟩ := h.held thread' j hj
    rw [hji, hscope, Option.some.injEq] at hother
    exact hthread (by rw [← hotherowner, ← hother, howner])

/-- Closing a scope that is the latest open one of its name. -/
theorem Tracked.leave (h : Tracked hash s) {thread : θ} {i : Nat} {rest : List Nat}
    {scope : Scope θ τ} {r' : TraceRecorder τ} (now : τ) (hstack : s.nested thread = i :: rest)
    (hscope : s.scopes[i]? = some scope) (hend : s.recorder.end scope.name now = some r')
    (hlatest : LatestOfName s (.leave thread now)) :
    Tracked hash
      { recorder := r'
        clock := now
        scopes := s.scopes.set i { scope with closed := some now }
        nested := Function.update s.nested thread rest } := by
  obtain ⟨scope', hscope', _, hopen⟩ := h.held thread i (by simp [hstack])
  rw [hscope, Option.some.injEq] at hscope'
  subst hscope'
  obtain ⟨htop, hdrop⟩ := h.top hscope hopen (hlatest i rest scope hstack hscope)
  obtain ⟨r, hr, hevents, hnamed⟩ := end_of_top htop (h.event hscope) now
  rw [hend, Option.some.injEq] at hr
  subst hr
  refine ⟨?_, ?_, ?_, ?_⟩
  · show r'.events = _
    rw [hevents, h.events, List.map_set]
    rfl
  · intro name
    show r'.stack name = _
    rw [hnamed, openOf_leave hscope]
    split
    · next hname =>
        rw [hdrop, hname]
    · next hname =>
        rw [h.named]
        refine (List.filter_eq_self.mpr ?_).symm
        intro j hj
        obtain ⟨other, hother, hothername, _⟩ := mem_openOf.mp hj
        refine decide_eq_true ?_
        intro hji
        rw [hji, hscope, Option.some.injEq] at hother
        exact hname (by rw [hother, hothername])
  · intro thread' j hj
    obtain ⟨hold, hne⟩ := h.held_after hstack hj
    obtain ⟨other, hother, hheld⟩ := h.held thread' j hold
    exact ⟨other, (List.getElem?_set_ne (Ne.symm hne)).trans hother, hheld⟩
  · intro thread'
    dsimp only
    by_cases hthread : thread' = thread
    · subst hthread
      rw [Function.update_self]
      have hnodup := h.distinct thread'
      rw [hstack, List.nodup_cons] at hnodup
      exact hnodup.2
    · rw [Function.update_of_ne hthread]
      exact h.distinct thread'

/-- **Scopes are measured.**  In every run in which threads close a scope only when it
is the latest open one of its name, in every state every event measures its scope: an
open one has duration 0 and a closed one the difference of its own two times.  No end
is out of range. -/
theorem scopes_measured [LE τ] {clock : τ} {calls : List (ScopeCall θ τ)}
    (hrun : Run (fun s call s' => ScopeStep hash s call s' ∧ LatestOfName s call)
      { clock := clock } calls s) :
    s.recorder.events = s.scopes.map (eventOf hash) ∧ EachMeasured hash s ∧
      ∀ name now, s.recorder.end name now ≠ none := by
  have htracked : Tracked hash s := by
    refine Run.invariant (Tracked hash) ?_ ?_ hrun
    · exact ⟨rfl, fun _ => rfl, fun _ _ hi => absurd hi List.not_mem_nil,
        fun _ => List.nodup_nil⟩
    · intro s call s' h hstep
      obtain ⟨hstep, hlatest⟩ := hstep
      cases hstep with
      | enter hclock => exact h.enter _ _ _ _
      | leave hclock hstack hscope hend => exact h.leave _ hstack hscope hend hlatest
  refine ⟨htracked.events, fun _ => .of_eq htracked.events, ?_⟩
  intro name now
  cases htop : (s.recorder.stack name).getLast? with
  | none => simp [TraceRecorder.end, htop]
  | some i =>
      have hmem := List.mem_of_getLast? htop
      rw [htracked.named] at hmem
      obtain ⟨scope, hscope, _⟩ := mem_openOf.mp hmem
      obtain ⟨r, hr, _⟩ := end_of_top htop (htracked.event hscope) now
      rw [hr]
      exact Option.some_ne_none r

/-- A run of two threads.  The second one opens and closes a scope of a name that the first
one has open, inside of a scope that it leaves last. -/
theorem scopes_measured_example :
    let start : Tracing Nat Int := { clock := 0 }
    ∃ s, Run (fun s call s' => ScopeStep UInt64.ofNat s call s' ∧ LatestOfName s call) start
      [.enter 1 "k" "" 0, .enter 2 "io" "" 2, .enter 2 "k" "" 3, .leave 2 4, .leave 1 9,
        .leave 2 11] s ∧
    s.recorder.events = [⟨"k", "", 0, 9, 1⟩, ⟨"io", "", 2, 9, 2⟩, ⟨"k", "", 3, 1, 2⟩] ∧
    EachMeasured UInt64.ofNat s := by
  intro start
  have hrun : ∃ s, Run (fun s call s' => ScopeStep UInt64.ofNat s call s' ∧ LatestOfName s call)
      start [.enter 1 "k" "" 0, .enter 2 "io" "" 2, .enter 2 "k" "" 3, .leave 2 4, .leave 1 9,
        .leave 2 11] s ∧
      s.recorder.events = [⟨"k", "", 0, 9, 1⟩, ⟨"io", "", 2, 9, 2⟩, ⟨"k", "", 3, 1, 2⟩] := by
    refine ⟨_, .extend (.extend (.extend (.extend (.extend (.extend .start
      ⟨.enter (by decide), trivial⟩) ⟨.enter (by decide), trivial⟩)
      ⟨.enter (by decide), trivial⟩) ⟨.leave (by decide) rfl rfl rfl, ?inner⟩)
      ⟨.leave (by decide) rfl rfl rfl, ?first⟩) ⟨.leave (by decide) rfl rfl rfl, ?outer⟩, rfl⟩
    case inner =>
      intro i rest scope hnested _ j later hij hlater _
      have hstack : [2, 1] = i :: rest := hnested
      have hlt : j < 3 := (List.getElem?_eq_some_iff.mp hlater).1
      cases hstack
      omega
    case first =>
      intro i rest scope hnested hscope j later hij hlater hname
      have hstack : [0] = i :: rest := hnested
      have hlt : j < 3 := (List.getElem?_eq_some_iff.mp hlater).1
      cases hstack
      cases hscope
      match j, hlater with
      | 1, hlater =>
          cases hlater
          exact absurd hname (by decide)
      | 2, hlater =>
          cases hlater
          exact Option.some_ne_none _
    case outer =>
      intro i rest scope hnested _ j later hij hlater _
      have hstack : [1] = i :: rest := hnested
      have hlt : j < 3 := (List.getElem?_eq_some_iff.mp hlater).1
      cases hstack
      obtain rfl : j = 2 := by omega
      cases hlater
      exact Option.some_ne_none _
  obtain ⟨s, hs, hevents⟩ := hrun
  exact ⟨s, hs, hevents, (scopes_measured hs).2.1⟩

/-- **Two threads swap their events.**  Scopes of one name run from 0 to 10 and from 1
to 11; the first end closes the event of the second thread. -/
theorem scopes_swapped :
    let start : Tracing Nat Int := { clock := 0 }
    ∃ s, Run (ScopeStep UInt64.ofNat) start
      [.enter 1 "k" "" 0, .enter 2 "k" "" 1, .leave 1 10, .leave 2 11] s ∧
    (∀ scope ∈ s.scopes, scope.closed ≠ none) ∧
    s.recorder.events = [⟨"k", "", 0, 11, 1⟩, ⟨"k", "", 1, 9, 2⟩] ∧
    ¬ EachMeasured UInt64.ofNat s := by
  refine ⟨_, .extend (.extend (.extend (.extend .start (.enter (by decide))) (.enter (by decide)))
    (.leave (by decide) rfl rfl rfl)) (.leave (by decide) rfl rfl rfl), ?_, ?_, ?_⟩
  · decide
  · rfl
  · intro hmeasured
    exact absurd (hmeasured (by decide)) (by decide +kernel)

end Gpuforge

import Gpuforge.LabelledRun
import Gpuforge.TraceRecorder

/-!
# Open events (`telemetry.cpp`)

An `end` finds its event through the stack of its name, which holds indices into the
list of events.  The indices outlive any number of later calls, and `clear` drops both
containers at once.  In every state each stored index is that of an event of its name
that is still open, and no index is stored twice (`Bookkept`).  So an `end` finds the
event it is to close (`EndsOpenEvent`), and what it has closed is closed for good
(`ClosesForGood`).
-/

namespace Gpuforge

open LabelledRun

namespace TraceRecorder

variable {τ : Type}

/-- All indices that `active_` stores. -/
def stored (r : TraceRecorder τ) : List Nat := r.active.entries.flatMap fun entry => entry.2

/-- **Sound bookkeeping.**  A stored index is that of an open event of its name, none
is stored twice, and stacks increase. -/
structure Bookkept [Zero τ] (r : TraceRecorder τ) : Prop where
  opened : ∀ name, ∀ i ∈ r.stack name, ∃ h : i < r.events.length,
    r.events[i].name = name ∧ r.events[i].durationMs = 0
  distinct : r.stored.Nodup
  increasing : ∀ name, (r.stack name).Pairwise (· < ·)

/-- What an end does: it closes the open event on top of the stack of its name, whose
index leaves all stacks, and nothing if there is none. -/
def EndsOpenEvent [Zero τ] [Sub τ] (r : TraceRecorder τ) (name : String) (now : τ) : Prop :=
  match (r.stack name).getLast? with
  | none => r.end name now = some r
  | some i => ∃ event r', r.events[i]? = some event ∧ event.name = name ∧
      event.durationMs = 0 ∧ r.end name now = some r' ∧
      r'.events = r.events.set i { event with durationMs := now - event.startMs } ∧
      ∀ name', i ∉ r'.stack name'

/-- Before the next clear no stack holds an index again that an end took from one. -/
def ClosesForGood [Zero τ] [Sub τ] (r : TraceRecorder τ) : Prop :=
  ∀ name now i r', (r.stack name).getLast? = some i → r.end name now = some r' →
    ∀ later r'', Run CallStep r' later r'' → TraceCall.clear ∉ later →
      ∀ name', i ∉ r''.stack name'

/-- The begins of a name that wait for an end, after one more call. -/
def pendingAfter (name : String) (count : Nat) : TraceCall τ → Nat
  | .begin name' _ _ _ => if name' = name then count + 1 else count
  | .end name' _ => if name' = name then count - 1 else count
  | .instant _ _ _ _ => count
  | .clear => 0

/-- The begins of a name since the last clear that wait for an end; an end too many is
one without an open begin. -/
def pending (name : String) (calls : List (TraceCall τ)) : Nat :=
  calls.foldl (pendingAfter name) 0

variable {r r' : TraceRecorder τ}

/-! ## Stored indices -/

/-- The entry of a name is its stack. -/
theorem stack_of_entry {entry : Sigma fun _ : String => List Nat}
    (hentry : entry ∈ r.active.entries) : r.stack entry.1 = entry.2 := by
  rw [stack, AList.mem_lookup_iff.mpr hentry, Option.getD_some]

/-- Stacks of open events of their names share no index. -/
theorem stored_nodup [Zero τ]
    (hopened : ∀ name, ∀ i ∈ r.stack name, ∃ h : i < r.events.length,
      r.events[i].name = name ∧ r.events[i].durationMs = 0)
    (hincreasing : ∀ name, (r.stack name).Pairwise (· < ·)) : r.stored.Nodup := by
  refine List.nodup_flatMap.mpr ⟨?_, ?_⟩
  · intro entry hentry
    rw [← stack_of_entry hentry]
    exact (hincreasing entry.1).imp Nat.ne_of_lt
  · have hkeys := List.nodupKeys_iff_pairwise.mp r.active.nodupKeys
    refine List.Pairwise.imp_of_mem ?_ hkeys
    intro entry other hentry hother hne i hi hj
    have hstack : i ∈ r.stack entry.1 := by rw [stack_of_entry hentry]; exact hi
    have hstack' : i ∈ r.stack other.1 := by rw [stack_of_entry hother]; exact hj
    obtain ⟨_, hname, _⟩ := hopened _ _ hstack
    obtain ⟨_, hname', _⟩ := hopened _ _ hstack'
    exact hne (hname.symm.trans hname')

/-! ## Calls -/

/-- Open events of a name stand in the stack of no other name. -/
theorem Bookkept.name_eq [Zero τ] (h : Bookkept r) {name name' : String} {i : Nat}
    (hi : i ∈ r.stack name) (hi' : i ∈ r.stack name') : name = name' := by
  obtain ⟨_, hname, _⟩ := h.opened name i hi
  obtain ⟨_, hname', _⟩ := h.opened name' i hi'
  exact hname.symm.trans hname'

/-- A new recorder stores nothing. -/
theorem Bookkept.empty [Zero τ] : Bookkept ({} : TraceRecorder τ) :=
  ⟨fun _ _ hi => absurd hi List.not_mem_nil, List.nodup_nil, fun _ => List.Pairwise.nil⟩

/-- An appended event leaves the open ones as they are. -/
theorem Bookkept.opened_append [Zero τ] (h : Bookkept r) (event : TraceEvent τ) {name : String}
    {i : Nat} (hi : i ∈ r.stack name) : ∃ hlt : i < (r.events ++ [event]).length,
      (r.events ++ [event])[i].name = name ∧ (r.events ++ [event])[i].durationMs = 0 := by
  obtain ⟨hlt, hevent⟩ := h.opened name i hi
  refine ⟨by rw [List.length_append]; omega, ?_⟩
  rw [List.getElem_append_left hlt]
  exact hevent

/-- `begin` keeps the books. -/
theorem Bookkept.begin [Zero τ] (h : Bookkept r) (name cat : String) (now : τ) (tid : UInt64) :
    Bookkept (r.begin name cat now tid) := by
  have hopened : ∀ name', ∀ i ∈ (r.begin name cat now tid).stack name',
      ∃ hlt : i < (r.begin name cat now tid).events.length,
        (r.begin name cat now tid).events[i].name = name' ∧
          (r.begin name cat now tid).events[i].durationMs = 0 := by
    intro name' i hi
    rw [stack_begin, List.mem_append] at hi
    rcases hi with hold | hnew
    · exact h.opened_append _ hold
    · split at hnew
      · next hname =>
          obtain rfl := List.mem_singleton.mp hnew
          refine ⟨by simp [TraceRecorder.begin], ?_⟩
          simp [TraceRecorder.begin, hname]
      · cases hnew
  have hincreasing : ∀ name', ((r.begin name cat now tid).stack name').Pairwise (· < ·) := by
    intro name'
    rw [stack_begin]
    refine List.pairwise_append.mpr ⟨h.increasing name', by split <;> simp, ?_⟩
    intro i hi j hj
    obtain ⟨hlt, _⟩ := h.opened name' i hi
    split at hj
    · rw [List.mem_singleton.mp hj]
      exact hlt
    · cases hj
  exact ⟨hopened, stored_nodup hopened hincreasing, hincreasing⟩

/-- `instant` keeps the books. -/
theorem Bookkept.instant [Zero τ] (h : Bookkept r) (name cat : String) (now : τ)
    (tid : UInt64) : Bookkept (r.instant name cat now tid) :=
  ⟨fun _ _ hi => h.opened_append _ hi, h.distinct, h.increasing⟩

variable [Zero τ] [Sub τ]

omit [Zero τ] in
/-- An end with nothing open under its name changes nothing. -/
theorem end_of_none {name : String} (h : (r.stack name).getLast? = none) (now : τ) :
    r.end name now = some r := by
  rw [TraceRecorder.end, h]

/-- An end with an open event on top of the stack of its name. -/
theorem Bookkept.end_of_some (h : Bookkept r) {name : String} {i : Nat}
    (htop : (r.stack name).getLast? = some i) (now : τ) :
    ∃ event r', r.events[i]? = some event ∧ event.name = name ∧ event.durationMs = 0 ∧
      r.end name now = some r' ∧
      r'.events = r.events.set i { event with durationMs := now - event.startMs } ∧
      (∀ name', r'.stack name' =
        if name = name' then (r.stack name).dropLast else r.stack name') ∧
      ∀ name', ∀ j ∈ r'.stack name', j ∈ r.stack name' ∧ j ≠ i := by
  have hmem := List.mem_of_getLast? htop
  obtain ⟨hlt, hname, hduration⟩ := h.opened name i hmem
  have hevent := List.getElem?_eq_getElem hlt
  obtain ⟨r', hend, hevents, hstack⟩ := end_of_top htop hevent now
  refine ⟨_, r', hevent, hname, hduration, hend, hevents, hstack, ?_⟩
  intro name' j hj
  rw [hstack] at hj
  split at hj
  · next heq =>
      subst heq
      have hne := List.dropLast_append_getLast? i htop
      have hsorted := h.increasing name
      rw [← hne] at hsorted
      have hless := (List.pairwise_append.mp hsorted).2.2 j hj i (List.mem_singleton_self i)
      exact ⟨(List.dropLast_sublist _).subset hj, Nat.ne_of_lt hless⟩
  · next hne =>
      refine ⟨hj, ?_⟩
      intro heq
      exact hne (h.name_eq hmem (heq ▸ hj))

/-- `end` finds the event it is to close. -/
theorem Bookkept.ends (h : Bookkept r) (name : String) (now : τ) : EndsOpenEvent r name now := by
  unfold EndsOpenEvent
  split
  · next hnone => exact end_of_none hnone now
  · next i htop =>
      obtain ⟨event, r', hevent, hname, hduration, hend, hevents, _, hgone⟩ :=
        h.end_of_some htop now
      exact ⟨event, r', hevent, hname, hduration, hend, hevents,
        fun name' hi => (hgone name' i hi).2 rfl⟩

/-- `end` keeps the books. -/
theorem Bookkept.end (h : Bookkept r) {name : String} {now : τ}
    (hend : r.end name now = some r') : Bookkept r' := by
  cases htop : (r.stack name).getLast? with
  | none =>
      rw [end_of_none htop, Option.some.injEq] at hend
      exact hend ▸ h
  | some i =>
      obtain ⟨event, r'', _, _, _, hclosed, hevents, hstack, hgone⟩ := h.end_of_some htop now
      rw [hend, Option.some.injEq] at hclosed
      subst hclosed
      have hopened : ∀ name', ∀ j ∈ r'.stack name', ∃ hlt : j < r'.events.length,
          r'.events[j].name = name' ∧ r'.events[j].durationMs = 0 := by
        intro name' j hj
        obtain ⟨hold, hne⟩ := hgone name' j hj
        obtain ⟨hlt, hevent⟩ := h.opened name' j hold
        refine ⟨by rw [hevents, List.length_set]; exact hlt, ?_⟩
        simp only [hevents, List.getElem_set_ne (Ne.symm hne)]
        exact hevent
      have hincreasing : ∀ name', (r'.stack name').Pairwise (· < ·) := by
        intro name'
        rw [hstack]
        split
        · exact (h.increasing name).sublist (List.dropLast_sublist _)
        · exact h.increasing name'
      exact ⟨hopened, stored_nodup hopened hincreasing, hincreasing⟩

/-- **One call.**  Every call keeps the books. -/
theorem Bookkept.step (h : Bookkept r) {call : TraceCall τ} (hstep : CallStep r call r') :
    Bookkept r' := by
  cases call with
  | begin name cat now tid =>
      cases hstep
      exact h.begin name cat now tid
  | «end» name now => exact h.end hstep
  | instant name cat now tid =>
      cases hstep
      exact h.instant name cat now tid
  | clear =>
      cases hstep
      exact .empty

/-- Every call is carried out. -/
theorem Bookkept.total (h : Bookkept r) (call : TraceCall τ) : ∃ r', CallStep r call r' := by
  cases call with
  | begin name cat now tid => exact ⟨_, rfl⟩
  | «end» name now =>
      cases htop : (r.stack name).getLast? with
      | none => exact ⟨r, end_of_none htop now⟩
      | some i =>
          obtain ⟨_, r', _, _, _, hend, _⟩ := h.end_of_some htop now
          exact ⟨r', hend⟩
  | instant name cat now tid => exact ⟨_, rfl⟩
  | clear => exact ⟨_, rfl⟩

/-! ## Closed events -/

/-- An index of an event that no stack holds. -/
structure Retired (r : TraceRecorder τ) (i : Nat) : Prop where
  recorded : i < r.events.length
  gone : ∀ name, i ∉ r.stack name

/-- Only a clear gives an index a new event. -/
theorem Retired.step (h : Bookkept r) {i : Nat} (hretired : Retired r i) {call : TraceCall τ}
    (hkeeps : call ≠ .clear) (hstep : CallStep r call r') : Retired r' i := by
  cases call with
  | begin name cat now tid =>
      cases hstep
      refine ⟨Nat.lt_of_lt_of_le hretired.recorded (by simp [TraceRecorder.begin]), ?_⟩
      intro name' hi
      rw [stack_begin, List.mem_append] at hi
      rcases hi with hold | hnew
      · exact hretired.gone name' hold
      · split at hnew
        · exact Nat.ne_of_lt hretired.recorded (List.mem_singleton.mp hnew)
        · cases hnew
  | «end» name now =>
      have hend : r.end name now = some r' := hstep
      cases htop : (r.stack name).getLast? with
      | none =>
          rw [end_of_none htop, Option.some.injEq] at hend
          exact hend ▸ hretired
      | some j =>
          obtain ⟨_, r'', _, _, _, hclosed, hevents, _, hgone⟩ := h.end_of_some htop now
          rw [hend, Option.some.injEq] at hclosed
          subst hclosed
          refine ⟨by rw [hevents, List.length_set]; exact hretired.recorded, ?_⟩
          exact fun name' hi => hretired.gone name' (hgone name' i hi).1
  | instant name cat now tid =>
      cases hstep
      exact ⟨Nat.lt_of_lt_of_le hretired.recorded (by simp [TraceRecorder.instant]),
        hretired.gone⟩
  | clear => exact absurd rfl hkeeps

/-- What an end has closed stays closed until the next clear. -/
theorem Bookkept.closes (h : Bookkept r) : ClosesForGood r := by
  intro name now i r' htop hend later r'' hlater hkeeps
  obtain ⟨_, r₁, hevent, _, _, hclosed, hevents, _, hgone⟩ := h.end_of_some htop now
  rw [hend, Option.some.injEq] at hclosed
  subst hclosed
  have hretired : Retired r' i := by
    refine ⟨?_, fun name' hi => (hgone name' i hi).2 rfl⟩
    rw [hevents, List.length_set]
    exact (List.getElem?_eq_some_iff.mp hevent).1
  have hlast : Bookkept r'' ∧ Retired r'' i :=
    Run.invariant_on (fun call => call ≠ .clear) (fun s => Bookkept s ∧ Retired s i)
      ⟨h.end hend, hretired⟩
      (fun _ _ _ hcall hs hstep => ⟨hs.1.step hstep, hs.2.step hs.1 hcall hstep⟩) hlater
      (fun _ hcall heq => hkeeps (heq ▸ hcall))
  exact hlast.2.gone

/-! ## Runs -/

/-- The number of open events of a name after a call. -/
theorem Bookkept.length_stack (h : Bookkept r) {call : TraceCall τ} (hstep : CallStep r call r')
    (name : String) :
    (r'.stack name).length = pendingAfter name (r.stack name).length call := by
  cases call with
  | begin name' cat now tid =>
      cases hstep
      rw [stack_begin, List.length_append, pendingAfter]
      split <;> rfl
  | «end» name' now =>
      have hend : r.end name' now = some r' := hstep
      rw [pendingAfter]
      cases htop : (r.stack name').getLast? with
      | none =>
          rw [end_of_none htop, Option.some.injEq] at hend
          subst hend
          split
          · next hname =>
              rw [← hname, List.getLast?_eq_none_iff.mp htop]
              rfl
          · rfl
      | some i =>
          obtain ⟨_, r'', _, _, _, hclosed, _, hstack, _⟩ := h.end_of_some htop now
          rw [hend, Option.some.injEq] at hclosed
          subst hclosed
          rw [hstack]
          split
          · next hname => rw [List.length_dropLast, hname]
          · rfl
  | instant name' cat now tid =>
      cases hstep
      rfl
  | clear =>
      cases hstep
      rfl

variable {calls : List (TraceCall τ)}

/-- The books are kept in every run. -/
theorem bookkept_of_run (hrun : Run CallStep {} calls r) : Bookkept r :=
  hrun.invariant Bookkept .empty fun _ _ _ h hstep => h.step hstep

/-- As many events of a name are open as begins of the name wait for an end. -/
theorem length_stack_of_run (hrun : Run CallStep {} calls r) (name : String) :
    (r.stack name).length = pending name calls := by
  induction hrun with
  | start => rfl
  | extend hbefore hstep ih =>
      rw [(bookkept_of_run hbefore).length_stack hstep, ih, pending, pending, List.foldl_concat]

/-- **Open events are tracked soundly.**  Every sequence of calls is carried out, with
no subscript out of range.  Whatever the calls were, the books are kept, an end closes
an open event of its own name for good, and an end without an open begin changes
nothing. -/
theorem open_events_tracked (calls : List (TraceCall τ)) :
    (∃ r : TraceRecorder τ, Run CallStep {} calls r) ∧
      ∀ r : TraceRecorder τ, Run CallStep {} calls r →
        Bookkept r ∧ (∀ name now, EndsOpenEvent r name now) ∧ ClosesForGood r ∧
          (∀ name, (r.stack name).length = pending name calls) ∧
          ∀ name now, pending name calls = 0 → r.end name now = some r := by
  refine ⟨Run.exists_of_total Bookkept (fun _ _ _ h hstep => h.step hstep)
    (fun _ call h => h.total call) calls .empty, ?_⟩
  intro r hrun
  have hbooks := bookkept_of_run hrun
  have hlength := length_stack_of_run hrun
  refine ⟨hbooks, hbooks.ends, hbooks.closes, hlength, ?_⟩
  intro name now hnone
  have hempty := List.eq_nil_of_length_eq_zero ((hlength name).trans hnone)
  exact end_of_none (by rw [hempty]; rfl) now

/-- The second end is one too many. -/
example : pending "copy" ([.begin "copy" "io" 0 1, .end "copy" 2, .end "copy" 3,
    .begin "copy" "io" 4 1] : List (TraceCall Int)) = 1 := rfl

end TraceRecorder

end Gpuforge

import Mathlib.Data.List.Nodup
import Gpuforge.LabelledRun
import Gpuforge.RequestScheduler

/-!
# Clients and executors around one scheduler

Clients submit requests under fresh ids and cancel ids; executors receive
batches from `next` and complete ids of batches they have received, as late as
they like.  Every call is one atomic step, so an interleaving of any number of
clients and executors is one sequence of moves.

An executor can hold a batch that is long out of date.  What keeps it harmless
is that phases only advance: a request leaves phase Prefill only when an
executor completes it, which needs a batch that carried it, and the first such
batch was a Prefill batch.  A request that has ended is in neither list, so no
later batch carries it and a late `complete` finds nothing
(`prefill_before_decode`).
-/

namespace Gpuforge

open Scheduler LabelledRun

/-- The scheduler with what its callers have seen: the ids submitted, the
batches each executor received, and all batches in the order of issue. -/
structure Exchange where
  scheduler : Scheduler
  submitted : List UInt64
  received : Nat → List Batch
  issued : List Batch

/-- One call, with the executor that makes it where that matters. -/
inductive Move where
  | submit (request : Request)
  | cancel (requestId : UInt64)
  | next (executor : Nat)
  | complete (executor : Nat) (requestId tokens : UInt64)

namespace Exchange

def start (maxBatch : Nat) : Exchange := ⟨Scheduler.create maxBatch, [], fun _ => [], []⟩

/-- Submitted ids are fresh; an executor completes only ids of batches it has
received. -/
def Allowed (w : Exchange) : Move → Prop
  | .submit request => request.id ∉ w.submitted
  | .complete executor requestId _ => ∃ batch ∈ w.received executor, requestId ∈ batch.ids
  | _ => True

def exec (w : Exchange) : Move → Exchange
  | .submit request =>
      { w with
        scheduler := w.scheduler.submit request
        submitted := request.id :: w.submitted }
  | .cancel requestId => { w with scheduler := w.scheduler.cancel requestId }
  | .next executor =>
      { w with
        scheduler := w.scheduler.next.2
        received := fun e =>
          if e = executor then w.received e ++ [w.scheduler.next.1] else w.received e
        issued := w.issued ++ [w.scheduler.next.1] }
  | .complete _ requestId tokens =>
      { w with scheduler := w.scheduler.complete requestId tokens }

def Step (w : Exchange) (move : Move) (w' : Exchange) : Prop :=
  w.Allowed move ∧ w' = w.exec move

/-- The id has been in a Prefill batch. -/
def Prefilled (issued : List Batch) (requestId : UInt64) : Prop :=
  ∃ batch ∈ issued, batch.phase = .prefill ∧ requestId ∈ batch.ids

/-- Every id of a Decode batch was in an earlier Prefill batch. -/
def DecodeAfterPrefill (issued : List Batch) : Prop :=
  ∀ i batch, issued[i]? = some batch → batch.phase = .decode →
    ∀ requestId ∈ batch.ids, Prefilled (issued.take i) requestId

/-- What holds between any two moves. -/
structure Coherent (w : Exchange) : Prop where
  distinct : ((requests w.scheduler).map Request.id).Nodup
  known : ∀ request ∈ requests w.scheduler, request.id ∈ w.submitted
  waiting : ∀ request ∈ w.scheduler.queue, request.phase = .prefill
  unfinished : ∀ request ∈ w.scheduler.active, request.phase ≠ .finished
  decoding : ∀ request ∈ w.scheduler.active, request.phase = .decode →
    Prefilled w.issued request.id
  served : ∀ batch ∈ w.issued, ∀ requestId ∈ batch.ids, Prefilled w.issued requestId
  handedOut : ∀ executor, ∀ batch ∈ w.received executor, batch ∈ w.issued
  ordered : DecodeAfterPrefill w.issued

variable {w w' : Exchange} {move : Move} {moves : List Move} {requestId : UInt64}

/-! ## One step -/

/-- A later Prefill batch is not needed. -/
theorem Prefilled.append {issued : List Batch} (h : Prefilled issued requestId)
    (batch : Batch) : Prefilled (issued ++ [batch]) requestId := by
  obtain ⟨earlier, hmem, hrest⟩ := h
  exact ⟨earlier, List.mem_append_left _ hmem, hrest⟩

/-- An admitted request was active, or waited in phase Prefill. -/
theorem Coherent.mem_admitted (h : Coherent w) {request : Request}
    (hmem : request ∈ w.scheduler.admitted.active) :
    request ∈ w.scheduler.active ∨ request.phase = .prefill := by
  obtain ⟨moved, hactive, hqueue⟩ :=
    fillActive_prefix w.scheduler.maxBatch w.scheduler.queue w.scheduler.active
  have hmem' : request ∈ w.scheduler.active ++ moved := hactive ▸ hmem
  rcases List.mem_append.mp hmem' with hold | hmoved
  · exact Or.inl hold
  · exact Or.inr (h.waiting request (hqueue ▸ List.mem_append_left _ hmoved))

/-- The ids of a Decode batch have been in a Prefill batch before. -/
theorem Coherent.next_decode (h : Coherent w) (hphase : w.scheduler.next.1.phase = .decode)
    (hmem : requestId ∈ w.scheduler.next.1.ids) : Prefilled w.issued requestId := by
  obtain ⟨request, hactive, rfl, hsame⟩ := mem_next_ids hmem
  rcases h.mem_admitted hactive with hold | hfresh
  · exact h.decoding request hold (hsame.trans hphase)
  · rw [hsame, hphase] at hfresh
    cases hfresh

/-- A batch with an id has phase Prefill or Decode. -/
theorem Coherent.next_phase (h : Coherent w) (hmem : requestId ∈ w.scheduler.next.1.ids) :
    w.scheduler.next.1.phase = .prefill ∨ w.scheduler.next.1.phase = .decode := by
  obtain ⟨request, hactive, _, hsame⟩ := mem_next_ids hmem
  have hgoing : request.phase ≠ .finished := by
    rcases h.mem_admitted hactive with hold | hfresh
    · exact h.unfinished request hold
    · simp [hfresh]
  rw [hsame] at hgoing
  cases hphase : w.scheduler.next.1.phase with
  | prefill => exact Or.inl rfl
  | decode => exact Or.inr rfl
  | finished => exact absurd hphase hgoing

/-- Handing out the next batch keeps Decode batches behind Prefill batches. -/
theorem Coherent.ordered_next (h : Coherent w) :
    DecodeAfterPrefill (w.issued ++ [w.scheduler.next.1]) := by
  intro i batch hbatch hphase requestId hmem
  by_cases hold : i < w.issued.length
  · rw [List.getElem?_append_left hold] at hbatch
    rw [List.take_append_of_le_length (Nat.le_of_lt hold)]
    exact h.ordered i batch hbatch hphase requestId hmem
  · have hbound := (List.getElem?_eq_some_iff.mp hbatch).1
    have hlast : i = w.issued.length := by
      rw [List.length_append, List.length_singleton] at hbound
      omega
    subst hlast
    rw [List.getElem?_concat_length] at hbatch
    cases hbatch
    rw [List.take_left]
    exact h.next_decode hphase hmem

/-- Nothing has happened yet. -/
theorem coherent_start (n : Nat) : Coherent (start n) :=
  ⟨by simp [requests, start, create], by simp [requests, start, create],
    by simp [start, create], by simp [start, create], by simp [start, create],
    by simp [start], by simp [start], by simp [DecodeAfterPrefill, start]⟩

/-- `submit` under a fresh id. -/
theorem Coherent.submit (h : Coherent w) {request : Request}
    (hfresh : request.id ∉ w.submitted) : Coherent (w.exec (.submit request)) := by
  have hrequests : requests (w.scheduler.submit request) =
      requests w.scheduler ++ [request.queued] := (List.append_assoc _ _ _).symm
  refine ⟨?_, ?_, ?_, h.unfinished, h.decoding, h.served, h.handedOut, h.ordered⟩
  · show ((requests (w.scheduler.submit request)).map Request.id).Nodup
    rw [hrequests, List.map_append, List.nodup_append]
    refine ⟨h.distinct, by simp, ?_⟩
    rintro _ hid _ hlast rfl
    obtain ⟨other, hmem, hother⟩ := List.mem_map.mp hid
    rw [List.map_singleton, List.mem_singleton, Request.queued_id] at hlast
    exact hfresh (hlast ▸ hother ▸ h.known other hmem)
  · intro other hmem
    have hmem' : other ∈ requests w.scheduler ++ [request.queued] := hrequests ▸ hmem
    rcases List.mem_append.mp hmem' with hold | hnew
    · exact List.mem_cons_of_mem _ (h.known other hold)
    · rw [List.mem_singleton.mp hnew]
      exact List.mem_cons_self
  · intro other hmem
    rcases List.mem_append.mp hmem with hold | hnew
    · exact h.waiting other hold
    · rw [List.mem_singleton.mp hnew]
      rfl

/-- `cancel`. -/
theorem Coherent.cancel (h : Coherent w) (requestId : UInt64) :
    Coherent (w.exec (.cancel requestId)) := by
  have hrequests : requests (w.scheduler.cancel requestId) =
      (requests w.scheduler).filter (fun request => request.id ≠ requestId) :=
    (List.filter_append _ _).symm
  refine ⟨?_, ?_, ?_, ?_, ?_, h.served, h.handedOut, h.ordered⟩
  · show ((requests (w.scheduler.cancel requestId)).map Request.id).Nodup
    rw [hrequests]
    exact h.distinct.sublist (List.filter_sublist.map _)
  · intro request hmem
    have hmem' : request ∈ (requests w.scheduler).filter
        (fun request => request.id ≠ requestId) := hrequests ▸ hmem
    exact h.known request (List.mem_filter.mp hmem').1
  · exact fun request hmem => h.waiting request (List.mem_filter.mp hmem).1
  · exact fun request hmem => h.unfinished request (List.mem_filter.mp hmem).1
  · exact fun request hmem => h.decoding request (List.mem_filter.mp hmem).1

/-- `next`. -/
theorem Coherent.next (h : Coherent w) (executor : Nat) :
    Coherent (w.exec (.next executor)) := by
  have hrequests : requests w.scheduler.next.2 = requests w.scheduler := by
    rw [next_snd, requests_admitted]
  refine ⟨?_, ?_, ?_, ?_, ?_, ?_, ?_, h.ordered_next⟩
  · show ((requests w.scheduler.next.2).map Request.id).Nodup
    rw [hrequests]
    exact h.distinct
  · intro request hmem
    exact h.known request (hrequests ▸ hmem)
  · intro request hmem
    obtain ⟨moved, _, hqueue⟩ :=
      fillActive_prefix w.scheduler.maxBatch w.scheduler.queue w.scheduler.active
    have hmem' : request ∈ w.scheduler.admitted.queue := next_snd w.scheduler ▸ hmem
    exact h.waiting request (hqueue ▸ List.mem_append_right _ hmem')
  · intro request hmem
    have hmem' : request ∈ w.scheduler.admitted.active := next_snd w.scheduler ▸ hmem
    rcases h.mem_admitted hmem' with hold | hfresh
    · exact h.unfinished request hold
    · simp [hfresh]
  · intro request hmem hphase
    have hmem' : request ∈ w.scheduler.admitted.active := next_snd w.scheduler ▸ hmem
    rcases h.mem_admitted hmem' with hold | hfresh
    · exact (h.decoding request hold hphase).append _
    · rw [hphase] at hfresh
      cases hfresh
  · intro batch hbatch requestId hmem
    rcases List.mem_append.mp hbatch with hold | hnew
    · exact (h.served batch hold requestId hmem).append _
    · rw [List.mem_singleton.mp hnew] at hmem
      rcases h.next_phase hmem with hprefill | hdecode
      · exact ⟨_, List.mem_append_right _ List.mem_cons_self, hprefill, hmem⟩
      · exact (h.next_decode hdecode hmem).append _
  · intro e batch hbatch
    simp only [exec] at hbatch
    split at hbatch
    · rcases List.mem_append.mp hbatch with hold | hnew
      · exact List.mem_append_left _ (h.handedOut e batch hold)
      · exact List.mem_append_right _ hnew
    · exact List.mem_append_left _ (h.handedOut e batch hbatch)

/-- `complete` by an executor that has received the id. -/
theorem Coherent.complete (h : Coherent w) {executor : Nat} {tokens : UInt64}
    (hheld : ∃ batch ∈ w.received executor, requestId ∈ batch.ids) :
    Coherent (w.exec (.complete executor requestId tokens)) := by
  have hids := ids_complete w.scheduler requestId tokens
  refine ⟨h.distinct.sublist hids, ?_, h.waiting, ?_, ?_, h.served, h.handedOut, h.ordered⟩
  · intro request hmem
    obtain ⟨before, hbefore, heq⟩ := List.mem_map.mp (hids.subset (List.mem_map_of_mem hmem))
    exact heq ▸ h.known before hbefore
  · intro request hmem
    obtain ⟨_, _, _, hphase⟩ := mem_complete hmem
    exact hphase
  · intro request hmem hphase
    obtain ⟨before, hbefore, rfl, _⟩ := mem_complete hmem
    by_cases hid : before.id = requestId
    · obtain ⟨batch, hbatch, hin⟩ := hheld
      rw [hit_id, hid]
      exact h.served batch (h.handedOut executor batch hbatch) requestId hin
    · rw [hit, if_pos hid] at hphase ⊢
      exact h.decoding before hbefore hphase

/-- **One move keeps the exchange coherent.** -/
theorem Coherent.step (h : Coherent w) (hstep : Step w move w') : Coherent w' := by
  obtain ⟨hallowed, rfl⟩ := hstep
  cases move with
  | submit request => exact h.submit hallowed
  | cancel requestId => exact h.cancel requestId
  | next executor => exact h.next executor
  | complete executor requestId tokens => exact h.complete hallowed

/-! ## Ended requests -/

/-- The move ends a request: it cancels a submitted id, or finishes an active
request with the id. -/
def Ends (w : Exchange) (requestId : UInt64) : Move → Prop
  | .cancel i => i = requestId ∧ requestId ∈ w.submitted
  | .complete _ i tokens => i = requestId ∧ ∃ request ∈ w.scheduler.active,
      request.id = requestId ∧ (request.advance tokens).phase = .finished
  | _ => False

/-- The id was submitted and its request is no longer there. -/
def Gone (w : Exchange) (requestId : UInt64) : Prop :=
  requestId ∈ w.submitted ∧ requestId ∉ (requests w.scheduler).map Request.id

/-- An ended request is gone. -/
theorem Coherent.gone_of_ends (h : Coherent w) (hends : Ends w requestId move) :
    Gone (w.exec move) requestId := by
  cases move with
  | cancel i =>
      obtain ⟨rfl, hknown⟩ := hends
      refine ⟨hknown, ?_⟩
      simp [requests, exec, Scheduler.cancel]
  | complete executor i tokens =>
      obtain ⟨rfl, request, hactive, hid, hfinished⟩ := hends
      have hmem : request ∈ requests w.scheduler := List.mem_append_left _ hactive
      refine ⟨hid ▸ h.known request hmem, ?_⟩
      intro hleft
      obtain ⟨after, hafter, hafterId⟩ := List.mem_map.mp hleft
      -- an entry with this id is the finished request itself
      rcases List.mem_append.mp hafter with hactive' | hqueue
      · obtain ⟨before, hbefore, rfl, hphase⟩ := mem_complete hactive'
        rw [hit_id] at hafterId
        have hsame : before = request := List.inj_on_of_nodup_map h.distinct
          (List.mem_append_left _ hbefore) hmem (hafterId.trans hid.symm)
        subst hsame
        rw [hit, if_neg (by simpa using hid)] at hphase
        exact hphase hfinished
      · have hnd := h.distinct
        rw [requests, List.map_append] at hnd
        exact (List.nodup_append.mp hnd).2.2 _ (List.mem_map_of_mem hactive) _
          (List.mem_map_of_mem hqueue) (hid.trans hafterId.symm)
  | submit request => exact hends.elim
  | next executor => exact hends.elim

/-- A gone request stays gone. -/
theorem Gone.step (hgone : Gone w requestId) (hstep : Step w move w') :
    Gone w' requestId := by
  obtain ⟨hknown, habsent⟩ := hgone
  obtain ⟨hallowed, rfl⟩ := hstep
  cases move with
  | submit request =>
      refine ⟨List.mem_cons_of_mem _ hknown, ?_⟩
      have hother : requestId ≠ request.id := fun heq => hallowed (heq ▸ hknown)
      simpa [requests, exec, Scheduler.submit, hother] using habsent
  | cancel i =>
      refine ⟨hknown, fun hmem => habsent ?_⟩
      have hsub : ((requests (w.scheduler.cancel i)).map Request.id).Sublist
          ((requests w.scheduler).map Request.id) :=
        (List.filter_sublist.append List.filter_sublist).map _
      exact hsub.subset hmem
  | next executor =>
      refine ⟨hknown, ?_⟩
      simpa only [exec, next_snd, requests_admitted] using habsent
  | complete executor i tokens =>
      exact ⟨hknown, fun hmem => habsent ((ids_complete w.scheduler i tokens).subset hmem)⟩

/-- The next batch does not carry a gone id. -/
theorem Gone.not_mem_next (hgone : Gone w requestId) :
    requestId ∉ w.scheduler.next.1.ids := by
  intro hmem
  obtain ⟨request, hactive, rfl, _⟩ := mem_next_ids hmem
  refine hgone.2 (List.mem_map_of_mem ?_)
  rw [← requests_admitted]
  exact List.mem_append_left _ hactive

/-- A late `complete` of a gone id changes nothing. -/
theorem Coherent.complete_gone (h : Coherent w) (hgone : Gone w requestId) (tokens : UInt64) :
    w.scheduler.complete requestId tokens = w.scheduler := by
  have hother : ∀ request ∈ w.scheduler.active, request.id ≠ requestId := by
    rintro request hmem rfl
    exact hgone.2 (List.mem_map_of_mem (List.mem_append_left _ hmem))
  have hmap : w.scheduler.active.map (hit requestId tokens) = w.scheduler.active := by
    conv => rhs; rw [← List.map_id w.scheduler.active]
    apply List.map_congr_left
    intro request hmem
    rw [hit, if_pos (hother request hmem), id]
  have hfilter : w.scheduler.active.filter (fun request => request.phase ≠ .finished) =
      w.scheduler.active := by
    rw [List.filter_eq_self]
    intro request hmem
    simpa using h.unfinished request hmem
  rw [Scheduler.complete, hmap, hfilter]

/-- One move issues at most one batch. -/
theorem issued_step (hstep : Step w move w') :
    w'.issued = w.issued ∨ w'.issued = w.issued ++ [w.scheduler.next.1] := by
  obtain ⟨_, rfl⟩ := hstep
  cases move with
  | next executor => exact Or.inr rfl
  | _ => exact Or.inl rfl

/-- Every reached exchange is coherent. -/
theorem coherent_run {n : Nat} (hrun : Run Step (start n) moves w) : Coherent w :=
  hrun.invariant Coherent (coherent_start n) (fun _ _ _ h hstep => h.step hstep)

/-- From a state in which an id is gone no batch carries it. -/
theorem gone_run (hgone : Gone w requestId) (hrun : Run Step w moves w') :
    Gone w' requestId ∧ ∃ later, w'.issued = w.issued ++ later ∧
      ∀ batch ∈ later, requestId ∉ batch.ids := by
  refine hrun.invariant (fun v => Gone v requestId ∧ ∃ later, v.issued = w.issued ++ later ∧
    ∀ batch ∈ later, requestId ∉ batch.ids) ⟨hgone, [], by simp, by simp⟩ ?_
  intro v move v' hinv hstep
  obtain ⟨hv, later, hissued, hfree⟩ := hinv
  refine ⟨hv.step hstep, ?_⟩
  rcases issued_step hstep with hsame | hmore
  · exact ⟨later, hsame.trans hissued, hfree⟩
  · refine ⟨later ++ [v.scheduler.next.1], by rw [hmore, hissued, List.append_assoc], ?_⟩
    intro batch hmem
    rcases List.mem_append.mp hmem with hold | hnew
    · exact hfree batch hold
    · rw [List.mem_singleton.mp hnew]
      exact hv.not_mem_next

/-- **Prefill before Decode, and nothing after the end.**  In every state that
any interleaving of clients and executors reaches: each id of a Decode batch
was in an earlier Prefill batch; the requests of the batch handed out next are
active and in its phase; and once a move has ended a request, no later batch
carries its id and completing it changes nothing. -/
theorem prefill_before_decode {n : Nat} (hrun : Run Step (start n) moves w) :
    DecodeAfterPrefill w.issued ∧
    (∀ executor w', Step w (.next executor) w' →
      ∃ batch, w'.issued = w.issued ++ [batch] ∧ ∀ requestId ∈ batch.ids,
        (∃ request ∈ w'.scheduler.active, request.id = requestId) ∧
        ∀ request ∈ w'.scheduler.active, request.id = requestId →
          request.phase = batch.phase) ∧
    (∀ requestId move w₁ later w₂, Ends w requestId move → Step w move w₁ →
      Run Step w₁ later w₂ →
      (∀ batch ∈ w₂.issued.drop w₁.issued.length, requestId ∉ batch.ids) ∧
      ∀ tokens, w₂.scheduler.complete requestId tokens = w₂.scheduler) := by
  have h := coherent_run hrun
  refine ⟨h.ordered, ?_, ?_⟩
  · intro executor w' hstep
    have h' := h.step hstep
    obtain ⟨_, rfl⟩ := hstep
    refine ⟨w.scheduler.next.1, rfl, fun requestId hmem => ?_⟩
    obtain ⟨request, hactive, hid, hphase⟩ := mem_next_ids hmem
    have hactive' : request ∈ (w.exec (.next executor)).scheduler.active := by
      show request ∈ w.scheduler.next.2.active
      rw [next_snd]
      exact hactive
    refine ⟨⟨request, hactive', hid⟩, fun other hother hotherId => ?_⟩
    have hsame : other = request := List.inj_on_of_nodup_map h'.distinct
      (List.mem_append_left _ hother) (List.mem_append_left _ hactive')
      (hotherId.trans hid.symm)
    rw [hsame, hphase]
  · intro requestId move w₁ later w₂ hends hstep hlater
    have hgone : Gone w₁ requestId := by
      rw [hstep.2]
      exact h.gone_of_ends hends
    obtain ⟨hgone₂, batches, hissued, hfree⟩ := gone_run hgone hlater
    refine ⟨?_, fun tokens => ?_⟩
    · rw [hissued, List.drop_left]
      exact hfree
    · have h₂ := hlater.invariant Coherent (h.step hstep)
        (fun _ _ _ hv hv' => hv.step hv')
      exact h₂.complete_gone hgone₂ tokens

/-- Two executors around one slot: the first gets the Prefill batch, completes
it, and the second gets the Decode batch of the same request. -/
theorem prefill_before_decode_example : ∃ w,
    Run Step (start 1) [.submit { id := 7, prompt := 1, total := 4 }, .next 0,
      .complete 0 7 1, .next 1] w ∧
    w.issued = [⟨[7], .prefill, 1⟩, ⟨[7], .decode, 1⟩] ∧ DecodeAfterPrefill w.issued := by
  let request : Request := { id := 7, prompt := 1, total := 4 }
  let w₁ := (start 1).exec (.submit request)
  let w₂ := w₁.exec (.next 0)
  let w₃ := w₂.exec (.complete 0 7 1)
  have hsubmit : Step (start 1) (.submit request) w₁ := ⟨List.not_mem_nil, rfl⟩
  have hfirst : Step w₁ (.next 0) w₂ := ⟨trivial, rfl⟩
  have hcomplete : Step w₂ (.complete 0 7 1) w₃ :=
    ⟨⟨⟨[7], .prefill, 1⟩, List.mem_cons_self, by decide⟩, rfl⟩
  have hsecond : Step w₃ (.next 1) (w₃.exec (.next 1)) := ⟨trivial, rfl⟩
  have hrun := (((Run.single hsubmit).extend hfirst).extend hcomplete).extend hsecond
  exact ⟨_, hrun, rfl, (prefill_before_decode (n := 1) hrun).1⟩

end Exchange

end Gpuforge

import Mathlib.Data.List.Induction
import Gpuforge.RequestScheduler

/-!
# Nothing is lost, duplicated or reordered

To say which submission an entry of the scheduler is, the ledger runs the same
calls on tickets: a request together with its position in the submission order
and the tokens it has been served.  Erasing the tickets gives the scheduler
back after every call (`erase_exec`), so the ledger adds names and changes
nothing.

Along every run the positions of active and queued tickets increase strictly,
each ticket is its submission with the served tokens added, and a submission
without a ticket was cancelled or finished after it had been made
(`scheduler_conserves`).
-/

namespace Gpuforge

open Scheduler

/-- A request with its position in the submission order and the tokens that
`complete` has added to it. -/
structure Ticket where
  position : Nat
  request : Request
  served : Nat := 0

/-- `complete` on a ticket. -/
def Ticket.hit (requestId tokens : UInt64) (ticket : Ticket) : Ticket :=
  if ticket.request.id ≠ requestId then ticket
  else
    { ticket with
      request := ticket.request.advance tokens
      served := ticket.served + tokens.toNat }

/-- The ticket belongs to this submission: the request has its id and limits,
and the served tokens have been added in `size_t`. -/
structure Ticket.Records (ticket : Ticket) (submission : Request) : Prop where
  id : ticket.request.id = submission.id
  prompt : ticket.request.prompt = submission.prompt
  total : ticket.request.total = submission.total
  generated : ticket.request.generated = submission.generated + UInt64.ofNat ticket.served

/-- A scheduler of tickets, with all submissions so far. -/
structure Ledger where
  maxBatch : Nat
  submissions : List Request
  queue : List Ticket
  active : List Ticket

namespace Ledger

def create (maxBatch : Nat) : Ledger := ⟨max 1 maxBatch, [], [], []⟩

/-- The calls of the scheduler on tickets. -/
def exec (l : Ledger) : Op → Ledger
  | .submit request =>
      { l with
        submissions := l.submissions ++ [request]
        queue := l.queue ++ [{ position := l.submissions.length, request := request.queued }] }
  | .cancel requestId =>
      { l with
        queue := l.queue.filter (fun ticket => ticket.request.id ≠ requestId)
        active := l.active.filter (fun ticket => ticket.request.id ≠ requestId) }
  | .next =>
      { l with
        active := (fillActive l.maxBatch l.active l.queue).1
        queue := (fillActive l.maxBatch l.active l.queue).2 }
  | .complete requestId tokens =>
      { l with
        active := (l.active.map (Ticket.hit requestId tokens)).filter
          (fun ticket => ticket.request.phase ≠ .finished) }

/-- The ledger of a run. -/
def after (maxBatch : Nat) (ops : List Op) : Ledger := ops.foldl exec (create maxBatch)

/-- The scheduler of which this is the ledger. -/
def erase (l : Ledger) : Scheduler :=
  ⟨l.maxBatch, l.queue.map Ticket.request, l.active.map Ticket.request⟩

/-- The tickets of active requests, then those of queued ones. -/
def tickets (l : Ledger) : List Ticket := l.active ++ l.queue

variable {l : Ledger} {n : Nat} {ops : List Op} {op : Op}

/-- A ledger with one more call. -/
theorem after_concat (n : Nat) (ops : List Op) (op : Op) :
    after n (ops ++ [op]) = (after n ops).exec op := by
  simp [after]

@[simp] theorem hit_position (requestId tokens : UInt64) (ticket : Ticket) :
    (ticket.hit requestId tokens).position = ticket.position := by
  unfold Ticket.hit
  split <;> rfl

@[simp] theorem hit_request (requestId tokens : UInt64) (ticket : Ticket) :
    (ticket.hit requestId tokens).request = hit requestId tokens ticket.request := by
  unfold Ticket.hit hit
  split <;> rfl

/-- **The ledger is the scheduler with names.**  Erasing the tickets commutes
with every call. -/
theorem erase_exec (l : Ledger) (op : Op) : (l.exec op).erase = l.erase.exec op := by
  cases op with
  | submit request => simp [erase, exec, Scheduler.exec, submit]
  | cancel requestId =>
      simp [erase, exec, Scheduler.exec, cancel, List.filter_map, Function.comp_def]
  | next =>
      simp only [erase, exec, Scheduler.exec, next_snd, admitted,
        fillActive_map Ticket.request l.maxBatch l.queue l.active]
  | complete requestId tokens =>
      simp only [erase, exec, Scheduler.exec, complete, List.map_map, List.filter_map]
      congr 1
      simp [Function.comp_def]

/-- The ledger of a run erases to the scheduler after the run. -/
theorem erase_after (n : Nat) (ops : List Op) :
    (after n ops).erase = (Scheduler.create n).run ops := by
  induction ops using List.reverseRecOn with
  | nil => rfl
  | append_singleton ops op ih => rw [after_concat, run_concat, erase_exec, ih]

/-! ## The ledger along a run -/

/-- What holds of the tickets after every call. -/
structure Orderly (l : Ledger) : Prop where
  slots : l.active.length ≤ l.maxBatch
  ordered : (l.tickets.map Ticket.position).Pairwise (· < ·)
  recorded : ∀ ticket ∈ l.tickets, ∃ submission,
    l.submissions[ticket.position]? = some submission ∧ ticket.Records submission
  unfinished : ∀ ticket ∈ l.tickets, ticket.request.phase ≠ .finished

/-- Every ticket has a position below the number of submissions. -/
theorem Orderly.position_lt (h : Orderly l) {ticket : Ticket} (hmem : ticket ∈ l.tickets) :
    ticket.position < l.submissions.length := by
  obtain ⟨submission, hsub, _⟩ := h.recorded ticket hmem
  exact (List.getElem?_eq_some_iff.mp hsub).1

/-- A served ticket belongs to the same submission. -/
theorem records_hit {ticket : Ticket} {submission : Request} (requestId tokens : UInt64)
    (h : ticket.Records submission) : (ticket.hit requestId tokens).Records submission := by
  unfold Ticket.hit
  split
  · exact h
  · refine ⟨h.id, h.prompt, h.total, ?_⟩
    show ticket.request.generated + tokens = _
    rw [h.generated, UInt64.ofNat_add, UInt64.ofNat_toNat, UInt64.add_assoc]

/-- A cancelled id loses its tickets, and the others stay in order. -/
theorem tickets_cancel (l : Ledger) (requestId : UInt64) :
    (l.exec (.cancel requestId)).tickets =
      l.tickets.filter (fun ticket => ticket.request.id ≠ requestId) := by
  simp only [exec, tickets, List.filter_append]

/-- Admission keeps the sequence of tickets. -/
theorem tickets_next (l : Ledger) : (l.exec .next).tickets = l.tickets :=
  fillActive_append l.maxBatch l.queue l.active

/-- A submission puts its ticket at the end. -/
theorem tickets_submit (l : Ledger) (request : Request) :
    (l.exec (.submit request)).tickets = l.tickets ++
      [{ position := l.submissions.length, request := request.queued }] := by
  simp only [exec, tickets, List.append_assoc]

/-- A ticket after `complete` is a served or an untouched one. -/
theorem mem_tickets_complete {requestId tokens : UInt64} {ticket : Ticket}
    (h : ticket ∈ (l.exec (.complete requestId tokens)).tickets) :
    (∃ before ∈ l.active, ticket = before.hit requestId tokens ∧
      ticket.request.phase ≠ .finished) ∨ ticket ∈ l.queue := by
  simp only [exec, tickets, List.mem_append, List.mem_filter, List.mem_map] at h
  rcases h with ⟨⟨before, hmem, rfl⟩, hphase⟩ | hqueue
  · exact Or.inl ⟨before, hmem, rfl, by simpa using hphase⟩
  · exact Or.inr hqueue

/-- The empty ledger is orderly. -/
theorem orderly_create (n : Nat) : Orderly (create n) :=
  ⟨Nat.zero_le _, by simp [tickets, create], by simp [tickets, create],
    by simp [tickets, create]⟩

/-- A submission gets the next position. -/
theorem Orderly.submit (h : Orderly l) (request : Request) :
    Orderly (l.exec (.submit request)) := by
  refine ⟨h.slots, ?_, ?_, ?_⟩
  · rw [tickets_submit, List.map_append, List.pairwise_append]
    refine ⟨h.ordered, by simp, ?_⟩
    intro position hposition last hlast
    obtain ⟨ticket, hmem, rfl⟩ := List.mem_map.mp hposition
    rw [List.map_singleton, List.mem_singleton] at hlast
    rw [hlast]
    exact h.position_lt hmem
  · intro ticket hmem
    rw [tickets_submit, List.mem_append, List.mem_singleton] at hmem
    rcases hmem with hmem | rfl
    · obtain ⟨submission, hsub, hrecords⟩ := h.recorded ticket hmem
      refine ⟨submission, ?_, hrecords⟩
      exact (List.getElem?_append_left (h.position_lt hmem)).trans hsub
    · exact ⟨request, by simp [Ledger.exec], rfl, rfl, rfl, by simp [Request.queued]⟩
  · intro ticket hmem
    rw [tickets_submit, List.mem_append, List.mem_singleton] at hmem
    rcases hmem with hmem | rfl
    · exact h.unfinished ticket hmem
    · simp [Request.queued]

/-- A cancellation leaves a part of the tickets. -/
theorem Orderly.cancel (h : Orderly l) (requestId : UInt64) :
    Orderly (l.exec (.cancel requestId)) := by
  refine ⟨Nat.le_trans (List.length_filter_le _ _) h.slots, ?_, ?_, ?_⟩
  · rw [tickets_cancel]
    exact h.ordered.sublist (List.filter_sublist.map _)
  · intro ticket hmem
    rw [tickets_cancel] at hmem
    exact h.recorded ticket (List.mem_filter.mp hmem).1
  · intro ticket hmem
    rw [tickets_cancel] at hmem
    exact h.unfinished ticket (List.mem_filter.mp hmem).1

/-- Admission fills the slots and keeps the tickets. -/
theorem Orderly.next (h : Orderly l) : Orderly (l.exec .next) := by
  refine ⟨fillActive_length_le l.queue l.active h.slots, ?_, ?_, ?_⟩
  · rw [tickets_next]
    exact h.ordered
  · intro ticket hmem
    rw [tickets_next] at hmem
    exact h.recorded ticket hmem
  · intro ticket hmem
    rw [tickets_next] at hmem
    exact h.unfinished ticket hmem

/-- A completion serves active tickets and drops the finished ones. -/
theorem Orderly.complete (h : Orderly l) (requestId tokens : UInt64) :
    Orderly (l.exec (.complete requestId tokens)) := by
  refine ⟨?_, ?_, ?_, ?_⟩
  · apply Nat.le_trans (List.length_filter_le _ _)
    rw [List.length_map]
    exact h.slots
  · refine h.ordered.sublist ?_
    simp only [tickets, List.map_append, Ledger.exec]
    refine List.Sublist.append_right ?_ _
    have hsub := (List.filter_sublist (l := l.active.map (Ticket.hit requestId tokens))
      (p := fun ticket => ticket.request.phase ≠ .finished)).map Ticket.position
    rwa [List.map_map, show Ticket.position ∘ Ticket.hit requestId tokens = Ticket.position
      from funext (hit_position requestId tokens)] at hsub
  · intro ticket hmem
    rcases mem_tickets_complete hmem with ⟨before, hactive, rfl, _⟩ | hqueue
    · obtain ⟨submission, hsub, hrecords⟩ :=
        h.recorded before (List.mem_append_left _ hactive)
      exact ⟨submission, by rw [hit_position]; exact hsub, records_hit _ _ hrecords⟩
    · exact h.recorded ticket (List.mem_append_right _ hqueue)
  · intro ticket hmem
    rcases mem_tickets_complete hmem with ⟨before, hactive, rfl, hphase⟩ | hqueue
    · exact hphase
    · exact h.unfinished ticket (List.mem_append_right _ hqueue)

/-- One call keeps the ledger orderly. -/
theorem Orderly.exec (h : Orderly l) (op : Op) : Orderly (l.exec op) := by
  cases op with
  | submit request => exact h.submit request
  | cancel requestId => exact h.cancel requestId
  | next => exact h.next
  | complete requestId tokens => exact h.complete requestId tokens

/-- The ledger is orderly after every run. -/
theorem orderly_after (n : Nat) (ops : List Op) : Orderly (after n ops) := by
  induction ops using List.reverseRecOn with
  | nil => exact orderly_create n
  | append_singleton ops op ih =>
      rw [after_concat]
      exact ih.exec op

/-! ## What can remove a submission -/

/-- The call takes submission `i` out of the ledger: it cancels its id, or it
completes its id and finishes it while it is active. -/
def Removes (l : Ledger) (op : Op) (i : Nat) : Prop :=
  ∃ submission, l.submissions[i]? = some submission ∧
    (op = .cancel submission.id ∨
      ∃ tokens, op = .complete submission.id tokens ∧
        ∃ ticket ∈ l.active, ticket.position = i ∧
          (ticket.request.advance tokens).phase = .finished)

/-- Submission `i` was removed by a call after it had been made. -/
def Lost (n : Nat) (ops : List Op) (i : Nat) : Prop :=
  ∃ before op later, ops = before ++ op :: later ∧ Removes (after n before) op i

/-- A call that a ticket does not survive removes its submission. -/
theorem Orderly.removes (h : Orderly l) {ticket : Ticket} (hmem : ticket ∈ l.tickets)
    (hgone : ∀ t ∈ (l.exec op).tickets, t.position ≠ ticket.position) :
    Removes l op ticket.position := by
  obtain ⟨submission, hsub, hrecords⟩ := h.recorded ticket hmem
  refine ⟨submission, hsub, ?_⟩
  cases op with
  | submit request =>
      exact absurd rfl (hgone ticket (by rw [tickets_submit]; exact List.mem_append_left _ hmem))
  | cancel requestId =>
      apply Or.inl
      by_contra hother
      have hkept : ticket.request.id ≠ requestId := by
        rintro rfl
        exact hother (by rw [hrecords.id])
      refine hgone ticket ?_ rfl
      rw [tickets_cancel, List.mem_filter]
      exact ⟨hmem, by simpa using hkept⟩
  | next => exact absurd rfl (hgone ticket (by rw [tickets_next]; exact hmem))
  | complete requestId tokens =>
      rcases List.mem_append.mp hmem with hactive | hqueue
      · have hphase : (ticket.hit requestId tokens).request.phase = .finished := by
          by_contra hgoing
          refine hgone (ticket.hit requestId tokens) (List.mem_append_left _ ?_)
            (hit_position requestId tokens ticket)
          exact List.mem_filter.mpr ⟨List.mem_map_of_mem hactive, by simpa using hgoing⟩
        have hid : ticket.request.id = requestId := by
          by_contra hother
          rw [hit_request, hit, if_pos hother] at hphase
          exact h.unfinished ticket hmem hphase
        refine Or.inr ⟨tokens, by rw [← hrecords.id, hid], ticket, hactive, rfl, ?_⟩
        rwa [hit_request, hit, if_neg (by simpa using hid)] at hphase
      · exact absurd rfl (hgone ticket (List.mem_append_right _ hqueue))

/-- The calls made before removals stay made. -/
theorem Lost.concat {i : Nat} (h : Lost n ops i) (op : Op) : Lost n (ops ++ [op]) i := by
  obtain ⟨before, op', later, rfl, hremoves⟩ := h
  exact ⟨before, op', later ++ [op], by simp, hremoves⟩

/-- The submissions only grow, by the one made. -/
theorem submissions_exec (l : Ledger) (op : Op) :
    (l.exec op).submissions =
      l.submissions ++ match op with | .submit request => [request] | _ => [] := by
  cases op <;> simp [exec]

/-- Every submission has a ticket or was lost. -/
theorem present_or_lost (n : Nat) (ops : List Op) :
    ∀ i < (after n ops).submissions.length,
      (∃ ticket ∈ (after n ops).tickets, ticket.position = i) ∨ Lost n ops i := by
  induction ops using List.reverseRecOn with
  | nil => intro i hi; simp [after, create] at hi
  | append_singleton ops op ih =>
      intro i hi
      rw [after_concat] at hi ⊢
      by_cases hold : i < (after n ops).submissions.length
      · rcases ih i hold with ⟨ticket, hmem, rfl⟩ | hlost
        · by_cases hkept : ∃ t ∈ ((after n ops).exec op).tickets, t.position = ticket.position
          · exact Or.inl hkept
          · refine Or.inr ⟨ops, op, [], rfl, (orderly_after n ops).removes hmem ?_⟩
            exact fun t ht heq => hkept ⟨t, ht, heq⟩
        · exact Or.inr (hlost.concat op)
      · -- the submission has just been made
        cases op with
        | submit request =>
            refine Or.inl ⟨{ position := i, request := request.queued }, ?_, rfl⟩
            have hlast : i = (after n ops).submissions.length := by
              simp only [exec, List.length_append, List.length_singleton] at hi
              omega
            rw [tickets_submit, hlast]
            simp
        | _ => simp only [exec] at hi; exact absurd hi hold

end Ledger

open Ledger in
/-- A scheduler after a run, with its ledger: the batch bound, the submission
order, the record of every entry, and the reason for every absence. -/
structure Conserved (n : Nat) (ops : List Op) : Prop where
  erases : (after n ops).erase = (Scheduler.create n).run ops
  submitted : (after n ops).submissions = ops.filterMap fun op =>
    match op with | .submit request => some request | _ => none
  slots : ((Scheduler.create n).run ops).active.length ≤ max 1 n
  ordered : ((after n ops).tickets.map Ticket.position).Pairwise (· < ·)
  recorded : ∀ ticket ∈ (after n ops).tickets, ∃ submission,
    (after n ops).submissions[ticket.position]? = some submission ∧ ticket.Records submission
  absent : ∀ i < (after n ops).submissions.length,
    (∀ ticket ∈ (after n ops).tickets, ticket.position ≠ i) → Lost n ops i
  queueKept : ∀ requestId tokens,
    (((Scheduler.create n).run ops).complete requestId tokens).queue =
      ((Scheduler.create n).run ops).queue

namespace Ledger

/-- The submissions of the ledger are those of the run. -/
theorem submissions_after (n : Nat) (ops : List Op) :
    (after n ops).submissions = ops.filterMap fun op =>
      match op with | .submit request => some request | _ => none := by
  induction ops using List.reverseRecOn with
  | nil => rfl
  | append_singleton ops op ih =>
      rw [after_concat, submissions_exec, ih, List.filterMap_append]
      cases op <;> rfl

/-- The number of slots never changes. -/
theorem maxBatch_after (n : Nat) (ops : List Op) : (after n ops).maxBatch = max 1 n := by
  induction ops using List.reverseRecOn with
  | nil => rfl
  | append_singleton ops op ih => cases op <;> rw [after_concat] <;> exact ih

/-- The number of slots is the one the scheduler was made with. -/
theorem maxBatch_run (n : Nat) (ops : List Op) :
    ((Scheduler.create n).run ops).maxBatch = max 1 n := by
  rw [← erase_after]
  exact maxBatch_after n ops

/-- No reached scheduler keeps a finished request. -/
theorem unfinished_run (n : Nat) (ops : List Op) :
    ∀ request ∈ requests ((Scheduler.create n).run ops), request.phase ≠ .finished := by
  intro request hmem
  rw [← erase_after, requests, erase, ← List.map_append] at hmem
  obtain ⟨ticket, hticket, rfl⟩ := List.mem_map.mp hmem
  exact (orderly_after n ops).unfinished ticket hticket

/-- **Nothing is lost, duplicated or reordered.**  After any calls with any
arguments the active requests are at most `max 1 n`; active and queued
requests together are submissions in submission order, none twice; and a
submission that is no longer among them was cancelled, or finished by a
`complete` while active, after it had been made. -/
theorem scheduler_conserves (n : Nat) (ops : List Op) : Conserved n ops where
  erases := erase_after n ops
  submitted := submissions_after n ops
  slots := by
    have hslots := (orderly_after n ops).slots
    rw [maxBatch_after] at hslots
    rw [← erase_after]
    simpa [erase] using hslots
  ordered := (orderly_after n ops).ordered
  recorded := (orderly_after n ops).recorded
  absent := by
    intro i hi habsent
    rcases present_or_lost n ops i hi with ⟨ticket, hmem, heq⟩ | hlost
    · exact absurd heq (habsent ticket hmem)
    · exact hlost
  queueKept := fun _ _ => rfl

end Ledger

end Gpuforge

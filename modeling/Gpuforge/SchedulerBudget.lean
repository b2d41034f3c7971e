import Mathlib.Algebra.Order.Ring.Nat
import Mathlib.Data.List.Nodup
import Gpuforge.SchedulerLedger

/-!
# When a token budget is spent

`complete` adds tokens to a request and drops it once `generated + prompt` has
reached `total`.  Both sums are `size_t`.  The tickets of the ledger count the served
tokens without a bound, so they tell when the budget is really spent.  The code is
right as long as the exact sum fits, or its remainder is still at least `total`
(`finishes_on_budget_iff`); a sum just above `2^64` starts the budget again
(`budget_starts_again`).
-/

namespace Gpuforge

open Scheduler

namespace Ledger

variable {l : Ledger} {n : Nat} {ops : List Op}

/-- The tokens a request has spent with this call: those it came with, those of all
completions so far, those of this one, and its prompt. -/
def spent (submission : Request) (ticket : Ticket) (tokens : UInt64) : Nat :=
  submission.generated.toNat + ticket.served + tokens.toNat + submission.prompt.toNat

/-- **The budget rule.**  A completion removes the request of a ticket exactly if its
budget is spent, and else keeps it active in phase `Decode`. -/
def EndsOnBudget (l : Ledger) (submission : Request) (ticket : Ticket) (tokens : UInt64) : Prop :=
  ((∀ t ∈ (l.exec (.complete ticket.request.id tokens)).tickets,
      t.position ≠ ticket.position) ↔ submission.total.toNat ≤ spent submission ticket tokens) ∧
    (spent submission ticket tokens < submission.total.toNat →
      ∃ t ∈ (l.exec (.complete ticket.request.id tokens)).active,
        t.position = ticket.position ∧ t.request.phase = .decode)

/-- The exact sum fits in a `size_t`, or what is left of it reaches the total. -/
def BudgetFits (submission : Request) (ticket : Ticket) (tokens : UInt64) : Prop :=
  spent submission ticket tokens < 2 ^ 64 ∨
    submission.total.toNat ≤ spent submission ticket tokens % 2 ^ 64

/-- Tickets are told apart by their positions. -/
theorem Orderly.eq_of_position (h : Orderly l) {t ticket : Ticket} (ht : t ∈ l.tickets)
    (hticket : ticket ∈ l.tickets) (heq : t.position = ticket.position) : t = ticket := by
  have hnodup : (l.tickets.map Ticket.position).Nodup :=
    h.ordered.imp fun hlt => Nat.ne_of_lt hlt
  exact List.inj_on_of_nodup_map hnodup ht hticket heq

/-- No ticket is active and queued. -/
theorem Orderly.not_queued (h : Orderly l) {ticket : Ticket} (hactive : ticket ∈ l.active) :
    ticket ∉ l.queue := by
  intro hqueue
  have hordered := h.ordered
  rw [tickets, List.map_append, List.pairwise_append] at hordered
  have hlt := hordered.2.2 _ (List.mem_map_of_mem hactive) _ (List.mem_map_of_mem hqueue)
  omega

/-- The sum that `complete` compares is the exact one in `size_t`. -/
theorem records_advance {submission : Request} {ticket : Ticket}
    (h : ticket.Records submission) (tokens : UInt64) :
    (ticket.request.advance tokens).phase =
      if submission.total.toNat ≤ spent submission ticket tokens % 2 ^ 64 then .finished
      else .decode := by
  have hsum : (ticket.request.generated + tokens + ticket.request.prompt).toNat =
      spent submission ticket tokens % 2 ^ 64 := by
    rw [h.generated, h.prompt]
    simp only [UInt64.toNat_add, UInt64.toNat_ofNat', spent]
    omega
  simp only [Request.advance, UInt64.le_iff_toNat_le, hsum, h.total]

/-- The request of a ticket that is hit. -/
theorem hit_self (ticket : Ticket) (tokens : UInt64) :
    (ticket.hit ticket.request.id tokens).request = ticket.request.advance tokens := by
  rw [hit_request, hit, if_neg (by simp)]

/-- A ticket that is hit and not finished stays active. -/
theorem hit_mem_active {ticket : Ticket} {tokens : UInt64} (hactive : ticket ∈ l.active)
    (hgoing : (ticket.request.advance tokens).phase ≠ .finished) :
    ticket.hit ticket.request.id tokens ∈
      (l.exec (.complete ticket.request.id tokens)).active := by
  refine List.mem_filter.mpr ⟨List.mem_map_of_mem hactive, ?_⟩
  rw [hit_self]
  simpa using hgoing

/-- A completion removes an active ticket exactly if it finishes the request. -/
theorem Orderly.removed_iff (h : Orderly l) {ticket : Ticket} (hactive : ticket ∈ l.active)
    (tokens : UInt64) :
    (∀ t ∈ (l.exec (.complete ticket.request.id tokens)).tickets,
        t.position ≠ ticket.position) ↔
      (ticket.request.advance tokens).phase = .finished := by
  have hmem : ticket ∈ l.tickets := List.mem_append_left _ hactive
  constructor
  · intro hgone
    by_contra hgoing
    exact hgone _ (List.mem_append_left _ (hit_mem_active hactive hgoing))
      (hit_position _ _ ticket)
  · intro hfinished t ht heq
    rcases mem_tickets_complete ht with ⟨before, hbefore, rfl, hphase⟩ | hqueue
    · rw [hit_position] at heq
      have hsame := h.eq_of_position (List.mem_append_left _ hbefore) hmem heq
      rw [hsame, hit_self] at hphase
      exact hphase hfinished
    · have hsame := h.eq_of_position (List.mem_append_right _ hqueue) hmem heq
      exact h.not_queued hactive (hsame ▸ hqueue)

/-- **When requests finish on budget.**  After every run of calls and for every request
active then, whatever its submission: a completion that hits it obeys the budget rule
if and only if the exact sum fits or its remainder reaches the total. -/
theorem finishes_on_budget_iff (n : Nat) (ops : List Op) :
    (after n ops).erase = (Scheduler.create n).run ops ∧
      ∀ ticket ∈ (after n ops).active, ∃ submission,
        (after n ops).submissions[ticket.position]? = some submission ∧
          ∀ tokens, EndsOnBudget (after n ops) submission ticket tokens ↔
            BudgetFits submission ticket tokens := by
  refine ⟨erase_after n ops, ?_⟩
  intro ticket hactive
  have h := orderly_after n ops
  obtain ⟨submission, hsub, hrecords⟩ := h.recorded ticket (List.mem_append_left _ hactive)
  refine ⟨submission, hsub, ?_⟩
  intro tokens
  have hphase := records_advance hrecords tokens
  have htotal : submission.total.toNat < 2 ^ 64 := submission.total.toNat_lt
  have hmod : spent submission ticket tokens % 2 ^ 64 ≤ spent submission ticket tokens :=
    Nat.mod_le _ _
  rw [EndsOnBudget, BudgetFits, h.removed_iff hactive, hphase]
  constructor
  · intro hends
    by_cases hfits : spent submission ticket tokens < 2 ^ 64
    · exact Or.inl hfits
    · refine Or.inr ?_
      have hfinished := hends.1.mpr (by omega)
      by_contra hless
      rw [if_neg hless] at hfinished
      cases hfinished
  · intro hfits
    have hagree : submission.total.toNat ≤ spent submission ticket tokens % 2 ^ 64 ↔
        submission.total.toNat ≤ spent submission ticket tokens := by
      rcases hfits with hfits | hreached
      · rw [Nat.mod_eq_of_lt hfits]
      · exact ⟨fun _ => by omega, fun _ => hreached⟩
    rw [← hagree]
    refine ⟨by split <;> simp_all, ?_⟩
    intro hless
    have hdecode : (ticket.request.advance tokens).phase = .decode := by
      rw [hphase, if_neg (by omega)]
    refine ⟨ticket.hit ticket.request.id tokens, ?_, hit_position _ _ ticket, ?_⟩
    · exact hit_mem_active hactive (by rw [hdecode]; decide)
    · rw [hit_self, hdecode]

/-- A prompt of 2 and one token reach a total of 3. -/
theorem finishes_on_budget_iff_example :
    let request : Request := { id := 7, prompt := 2, total := 3 }
    EndsOnBudget (after 1 [.submit request, .next]) request
      { position := 0, request := request.queued } 1 := by
  intro request
  obtain ⟨_, hall⟩ := finishes_on_budget_iff 1 [.submit request, .next]
  obtain ⟨submission, hsub, hiff⟩ := hall { position := 0, request := request.queued }
    (List.mem_singleton_self _)
  cases hsub
  exact (hiff 1).mpr (Or.inl (by decide +kernel))

/-- **A budget that starts again.**  A request with a prompt of `2^64 - 1` and as many
tokens in total is over its budget from the start; the first token makes the sum 0, and
it stays active. -/
theorem budget_starts_again :
    let huge : UInt64 := 18446744073709551615
    let request : Request := { id := 7, prompt := huge, total := huge }
    ∃ ticket ∈ (after 1 [.submit request, .next]).active,
      ticket.request.id = 7 ∧ (after 1 [.submit request, .next]).submissions = [request] ∧
        ticket.position = 0 ∧ request.total.toNat ≤ spent request ticket 1 ∧
          ¬ EndsOnBudget (after 1 [.submit request, .next]) request ticket 1 := by
  intro huge request
  have hactive : ({ position := 0, request := request.queued } : Ticket) ∈
      (after 1 [.submit request, .next]).active := List.mem_singleton_self _
  refine ⟨_, hactive, rfl, rfl, rfl, by decide +kernel, ?_⟩
  intro hends
  have hfinished := ((orderly_after _ _).removed_iff hactive 1).mp
    (hends.1.mpr (by decide +kernel))
  revert hfinished
  decide +kernel

end Ledger

end Gpuforge

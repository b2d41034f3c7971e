import Mathlib.Algebra.Order.Ring.Nat
import Mathlib.Data.List.Perm.Basic
import Gpuforge.BoundedLoop
import Gpuforge.SchedulerLedger

/-!
# Draining a scheduler

An executor that serves every batch one token at a time drains the scheduler:
`next`, then `complete(id, 1)` for every id of the batch, until a batch is
empty.  A request needs `max 1 (total - prompt - generated)` such completions.
Each non-empty round makes at least one, so the sum over all requests bounds
the number of rounds, however batches wait for one another
(`drain_terminates`).
-/

namespace Gpuforge

open Scheduler BoundedLoop

/-- The loop's scheduler, the non-empty rounds so far, and the ids that a
`complete` has finished. -/
structure Drain where
  scheduler : Scheduler
  rounds : Nat := 0
  finished : List UInt64 := []

namespace Drain

/-- The ids of the active requests that this `complete` finishes. -/
def finishedBy (σ : Scheduler) (requestId tokens : UInt64) : List UInt64 :=
  (σ.active.filter fun request =>
    request.id = requestId ∧ (request.advance tokens).phase = .finished).map Request.id

/-- `complete(id, 1)`. -/
def serve (st : Drain) (requestId : UInt64) : Drain :=
  { st with
    scheduler := st.scheduler.complete requestId 1
    finished := st.finished ++ finishedBy st.scheduler requestId 1 }

/-- One turn of the loop. -/
def turn (st : Drain) : Turn Drain Drain :=
  if st.scheduler.next.1.ids = [] then .leave { st with scheduler := st.scheduler.next.2 }
  else .again (st.scheduler.next.1.ids.foldl serve
    { st with scheduler := st.scheduler.next.2, rounds := st.rounds + 1 })

/-- The loop, for at most `budget` turns. -/
def drain (σ : Scheduler) (budget : Nat) : Option Drain :=
  BoundedLoop.run turn budget { scheduler := σ }

/-! ## The completions a request needs -/

/-- One-token completions until the request is finished. -/
def remaining (request : Request) : Nat :=
  max 1 (request.total.toNat - request.prompt.toNat - request.generated.toNat)

/-- The completions all requests of a list need together. -/
def work (requests : List Request) : Nat := (requests.map remaining).sum

/-- One more token does not wrap the token count. -/
def Fits (request : Request) : Prop :=
  request.prompt.toNat + request.generated.toNat + 1 < 2 ^ 64

instance : DecidablePred Fits := fun _ => inferInstanceAs (Decidable (_ < _))

/-- A one-token completion finishes a request or brings it one closer. -/
theorem advance_one {request : Request} (hfits : Fits request) :
    (request.advance 1).phase = .finished ∨
    (Fits (request.advance 1) ∧ remaining (request.advance 1) + 1 = remaining request) := by
  have hsum : (request.generated + 1).toNat = request.generated.toNat + 1 := by
    rw [UInt64.toNat_add]
    unfold Fits at hfits
    simp only [UInt64.reduceToNat]
    omega
  have hall : (request.generated + 1 + request.prompt).toNat =
      request.generated.toNat + 1 + request.prompt.toNat := by
    rw [UInt64.toNat_add, hsum]
    unfold Fits at hfits
    omega
  by_cases hdone : request.total ≤ request.generated + 1 + request.prompt
  · exact Or.inl (by simp [Request.advance, hdone])
  · apply Or.inr
    rw [UInt64.le_iff_toNat_le, hall] at hdone
    have htotal := request.total.toNat_lt
    simp only [Fits, remaining, Request.advance, hsum]
    omega

/-- What a one-token completion leaves of a list needs as much less as
requests were hit. -/
theorem work_hit (requestId : UInt64) (requests : List Request)
    (hfits : ∀ request ∈ requests, Fits request) :
    work ((requests.map (hit requestId 1)).filter fun request => request.phase ≠ .finished) +
      requests.countP (fun request => request.id = requestId) ≤ work requests := by
  induction requests with
  | nil => simp [work]
  | cons request rest ih =>
      have hrest := ih fun other hmem => hfits other (List.mem_cons_of_mem _ hmem)
      have hpos : 1 ≤ remaining request := Nat.le_max_left _ _
      simp only [work] at hrest ⊢
      rw [List.map_cons, List.countP_cons, List.map_cons, List.sum_cons, List.filter_cons]
      by_cases hid : request.id = requestId
      · have hhit : hit requestId 1 request = request.advance 1 := if_neg (by simpa using hid)
        rw [hhit]
        rcases advance_one (hfits request List.mem_cons_self) with hdone | ⟨_, hless⟩
        · rw [if_neg (by simpa using hdone)]
          simp only [hid, decide_true, if_true]
          omega
        · split
          · rw [List.map_cons, List.sum_cons]
            simp only [hid, decide_true, if_true]
            omega
          · simp only [hid, decide_true, if_true]
            omega
      · have hhit : hit requestId 1 request = request := if_pos hid
        rw [hhit]
        split
        · rw [List.map_cons, List.sum_cons]
          simp only [hid, decide_false, Bool.false_eq_true, if_false]
          omega
        · simp only [hid, decide_false, Bool.false_eq_true, if_false]
          omega

/-! ## One completion -/

/-- What a `complete` finishes and what it leaves are the requests before. -/
theorem tally_complete {σ : Scheduler} (requestId tokens : UInt64)
    (hgoing : ∀ request ∈ requests σ, request.phase ≠ .finished) :
    (finishedBy σ requestId tokens ++
      (requests (σ.complete requestId tokens)).map Request.id).Perm
      ((requests σ).map Request.id) := by
  have hleft : (σ.complete requestId tokens).active.map Request.id =
      (σ.active.filter fun request => !decide (request.id = requestId ∧
        (request.advance tokens).phase = .finished)).map Request.id := by
    have hids : Request.id ∘ hit requestId tokens = Request.id :=
      funext (hit_id requestId tokens)
    rw [Scheduler.complete, List.filter_map, List.map_map, hids]
    congr 1
    apply List.filter_congr
    intro request hmem
    have hphase := hgoing request (List.mem_append_left _ hmem)
    by_cases hid : request.id = requestId <;> simp [hit, hid, hphase]
  rw [requests, requests, List.map_append, List.map_append, ← List.append_assoc, hleft,
    finishedBy, ← List.map_append]
  exact ((List.filter_append_perm _ σ.active).map _).append_right _

/-- What holds before every turn and every completion: nothing is finished or
about to wrap, and the requests are those not yet finished. -/
structure Draining (ids : List UInt64) (st : Drain) : Prop where
  slot : 1 ≤ st.scheduler.maxBatch
  going : ∀ request ∈ requests st.scheduler, request.phase ≠ .finished
  fits : ∀ request ∈ requests st.scheduler, Fits request
  tally : (st.finished ++ (requests st.scheduler).map Request.id).Perm ids

variable {ids : List UInt64} {st : Drain}

/-- **One completion.**  The invariant survives, and the work shrinks by one
for each active request hit. -/
theorem Draining.serve (h : Draining ids st) (requestId : UInt64) :
    Draining ids (st.serve requestId) ∧
    work (requests (st.serve requestId).scheduler) +
      st.scheduler.active.countP (fun request => request.id = requestId) ≤
      work (requests st.scheduler) := by
  refine ⟨⟨h.slot, ?_, ?_, ?_⟩, ?_⟩
  · intro request hmem
    rcases List.mem_append.mp hmem with hactive | hqueue
    · obtain ⟨_, _, _, hphase⟩ := mem_complete hactive
      exact hphase
    · exact h.going request (List.mem_append_right _ hqueue)
  · intro request hmem
    rcases List.mem_append.mp hmem with hactive | hqueue
    · obtain ⟨before, hbefore, rfl, hphase⟩ := mem_complete hactive
      have hfits := h.fits before (List.mem_append_left _ hbefore)
      by_cases hid : before.id = requestId
      · rw [hit, if_neg (by simpa using hid)] at hphase ⊢
        exact ((advance_one hfits).resolve_left hphase).1
      · rwa [hit, if_pos hid]
    · exact h.fits request (List.mem_append_right _ hqueue)
  · show (st.finished ++ finishedBy st.scheduler requestId 1 ++ _).Perm ids
    rw [List.append_assoc]
    exact ((tally_complete requestId 1 h.going).append_left _).trans h.tally
  · have hactive := work_hit requestId st.scheduler.active
      fun request hmem => h.fits request (List.mem_append_left _ hmem)
    have hsplit : ∀ xs ys : List Request, work (xs ++ ys) = work xs + work ys := by
      intro xs ys
      rw [work, List.map_append, List.sum_append]
      rfl
    have hqueue : (st.serve requestId).scheduler.queue = st.scheduler.queue := rfl
    rw [requests, requests, hsplit, hsplit, hqueue]
    have hleft : (st.serve requestId).scheduler.active =
        (st.scheduler.active.map (hit requestId 1)).filter
          (fun request => request.phase ≠ .finished) := rfl
    rw [hleft]
    omega

/-- Completions never add work and make no round. -/
theorem Draining.serves (batch : List UInt64) : ∀ st : Drain, Draining ids st →
    Draining ids (batch.foldl Drain.serve st) ∧
    work (requests (batch.foldl Drain.serve st).scheduler) ≤ work (requests st.scheduler) ∧
    (batch.foldl Drain.serve st).rounds = st.rounds := by
  induction batch with
  | nil => exact fun st h => ⟨h, Nat.le_refl _, rfl⟩
  | cons requestId rest ih =>
      intro st h
      obtain ⟨hnext, hwork⟩ := h.serve requestId
      obtain ⟨hlast, hmore, hrounds⟩ := ih (st.serve requestId) hnext
      exact ⟨hlast, by rw [List.foldl_cons]; omega, hrounds⟩

/-! ## One turn -/

/-- The admission of `next` keeps the invariant. -/
theorem Draining.admitted (h : Draining ids st) (rounds : Nat) :
    Draining ids { st with scheduler := st.scheduler.next.2, rounds := rounds } := by
  have hsame : requests st.scheduler.next.2 = requests st.scheduler := by
    rw [next_snd, requests_admitted]
  have hslots : st.scheduler.next.2.maxBatch = st.scheduler.maxBatch := by
    rw [next_snd]
    rfl
  exact ⟨by rw [hslots]; exact h.slot, by rw [hsame]; exact h.going,
    by rw [hsame]; exact h.fits, by rw [hsame]; exact h.tally⟩

/-- **A round makes progress.**  A turn that goes round again has served a
batch: one more round, and less work. -/
theorem Draining.turn_again (h : Draining ids st) {st' : Drain} (hturn : st.turn = .again st') :
    Draining ids st' ∧ st'.rounds = st.rounds + 1 ∧
    work (requests st'.scheduler) < work (requests st.scheduler) := by
  unfold turn at hturn
  split at hturn
  · cases hturn
  · rename_i hbatch
    cases hturn
    obtain ⟨first, rest, hids⟩ := List.exists_cons_of_ne_nil hbatch
    have hstart := h.admitted (st.rounds + 1)
    obtain ⟨hserved, hless⟩ := hstart.serve first
    obtain ⟨hlast, hmore, hrounds⟩ := Draining.serves rest _ hserved
    -- the first id of the batch is that of an active request
    have hhit : 1 ≤ st.scheduler.next.2.active.countP
        (fun request => request.id = first) := by
      obtain ⟨request, hactive, hid, _⟩ :=
        mem_next_ids (show first ∈ st.scheduler.next.1.ids by simp [hids])
      rw [next_snd]
      exact List.countP_pos_iff.mpr ⟨request, hactive, by simpa using hid⟩
    have hsame : work (requests st.scheduler.next.2) = work (requests st.scheduler) := by
      rw [next_snd, requests_admitted]
    rw [hids, List.foldl_cons]
    refine ⟨hlast, hrounds, ?_⟩
    simp only at hless
    omega

/-- A turn leaves the loop only when no request is left. -/
theorem Draining.turn_leave (h : Draining ids st) {st' : Drain} (hturn : st.turn = .leave st') :
    st'.rounds = st.rounds ∧ st'.finished = st.finished ∧ requests st.scheduler = [] ∧
    requests st'.scheduler = [] := by
  unfold turn at hturn
  split at hturn
  · rename_i hbatch
    cases hturn
    have hnone : st.scheduler.admitted.active = [] := by
      rcases next_cases st.scheduler with ⟨hnil, _⟩ | ⟨front, rest, hactive, _, hids⟩
      · exact hnil
      · rw [hbatch, hactive, List.filter_cons_of_pos (by simp)] at hids
        cases hids
    obtain ⟨moved, hmoved, _⟩ :=
      fillActive_prefix st.scheduler.maxBatch st.scheduler.queue st.scheduler.active
    have hactive : st.scheduler.active = [] :=
      (List.append_eq_nil_iff.mp (hmoved.symm.trans hnone)).1
    have hfill : (fillActive st.scheduler.maxBatch st.scheduler.active st.scheduler.queue).1 = [] :=
      hnone
    rw [hactive] at hfill
    have hqueue := fillActive_eq_nil h.slot st.scheduler.queue hfill
    have hempty : requests st.scheduler = [] := by rw [requests, hactive, hqueue]; rfl
    refine ⟨rfl, rfl, hempty, ?_⟩
    rw [next_snd, requests_admitted, hempty]
  · cases hturn

/-- A drained scheduler: within the bound, nothing pending, nothing active, and
all ids finished. -/
structure Drained (ids : List UInt64) (bound : Nat) (result : Drain) : Prop where
  rounds : result.rounds ≤ bound
  pending : result.scheduler.pending = 0
  active : result.scheduler.activeCount = 0
  finished : result.finished.Perm ids

/-- The loop drains every scheduler that meets the invariant. -/
theorem Draining.drains {σ : Scheduler} (h : Draining ids { scheduler := σ }) :
    ∃ result, drain σ (work (requests σ) + 1) = some result ∧
      Drained ids (work (requests σ)) result := by
  refine run_total
    (fun st => Draining ids st ∧ st.rounds + work (requests st.scheduler) ≤ work (requests σ))
    (Drained ids (work (requests σ))) (fun st => work (requests st.scheduler)) ?_ ?_ _ _
    (Nat.lt_succ_self _) ⟨h, by simp⟩
  · intro st st' hinv hturn
    obtain ⟨hst, hbound⟩ := hinv
    obtain ⟨hst', hrounds, hless⟩ := hst.turn_again hturn
    exact ⟨⟨hst', by omega⟩, hless⟩
  · intro st result hinv hturn
    obtain ⟨hst, hbound⟩ := hinv
    obtain ⟨hrounds, hfinished, hbefore, hafter⟩ := hst.turn_leave hturn
    obtain ⟨hactive, hqueue⟩ := List.append_eq_nil_iff.mp hafter
    have htally := hst.tally
    rw [hbefore, List.map_nil, List.append_nil, ← hfinished] at htally
    exact ⟨by omega, by rw [pending, hqueue, List.length_nil],
      by rw [activeCount, hactive, List.length_nil], htally⟩

/-- Submitting a list of requests queues them in order. -/
theorem requests_submits (reqs : List Request) : ∀ σ : Scheduler,
    requests (σ.run (reqs.map .submit)) = requests σ ++ reqs.map Request.queued ∧
    (σ.run (reqs.map .submit)).maxBatch = σ.maxBatch := by
  induction reqs with
  | nil => intro σ; simp [Scheduler.run]
  | cons request rest ih =>
      intro σ
      obtain ⟨hrequests, hslots⟩ := ih (σ.submit request)
      refine ⟨?_, hslots⟩
      apply Eq.trans hrequests
      simp [requests, Scheduler.submit]

/-- A queued request needs what it needed when submitted. -/
theorem work_queued (xs ys : List Request) :
    work (xs ++ ys.map Request.queued) = work (xs ++ ys) := by
  have hsame : remaining ∘ Request.queued = remaining := rfl
  rw [work, work, List.map_append, List.map_append, List.map_map, hsame]

/-- **Draining terminates within the bound.**  Take any scheduler that earlier
calls left behind, and submit any requests, such that no token count is about
to wrap.  The loop then stops after at most as many rounds as all these
requests need completions, with nothing pending or active, and every one of
them has been finished by a `complete`. -/
theorem drain_terminates (n : Nat) (ops : List Op) (reqs : List Request)
    (hfits : ∀ request ∈ requests ((Scheduler.create n).run ops) ++ reqs, Fits request) :
    ∃ result,
      drain (((Scheduler.create n).run ops).run (reqs.map .submit))
        (work (requests ((Scheduler.create n).run ops) ++ reqs) + 1) = some result ∧
      Drained ((requests ((Scheduler.create n).run ops) ++ reqs).map Request.id)
        (work (requests ((Scheduler.create n).run ops) ++ reqs)) result := by
  obtain ⟨hrequests, hslots⟩ := requests_submits reqs ((Scheduler.create n).run ops)
  have hids : (requests (((Scheduler.create n).run ops).run (reqs.map .submit))).map Request.id =
      (requests ((Scheduler.create n).run ops) ++ reqs).map Request.id := by
    rw [hrequests]
    simp
  have hstart : Draining ((requests ((Scheduler.create n).run ops) ++ reqs).map Request.id)
      { scheduler := ((Scheduler.create n).run ops).run (reqs.map .submit) } := by
    refine ⟨?_, ?_, ?_, ?_⟩
    · rw [hslots, Ledger.maxBatch_run]
      exact Nat.le_max_left 1 n
    · intro request hmem
      rw [hrequests] at hmem
      rcases List.mem_append.mp hmem with hold | hnew
      · exact Ledger.unfinished_run n ops request hold
      · obtain ⟨submitted, _, rfl⟩ := List.mem_map.mp hnew
        simp [Request.queued]
    · intro request hmem
      rw [hrequests] at hmem
      rcases List.mem_append.mp hmem with hold | hnew
      · exact hfits request (List.mem_append_left _ hold)
      · obtain ⟨submitted, hmem', rfl⟩ := List.mem_map.mp hnew
        exact hfits submitted (List.mem_append_right _ hmem')
    · rw [List.nil_append, hids]
  have hdrained := hstart.drains
  rwa [hrequests, work_queued] at hdrained

/-- One slot, a request of two completions and one whose budget is spent
already: three rounds. -/
theorem drain_terminates_example : ∃ result,
    drain ((Scheduler.create 1).run
      [.submit { id := 1, prompt := 1, total := 3 },
        .submit { id := 2, prompt := 5, total := 4 }]) 4 = some result ∧ Drained [1, 2] 3 result :=
  drain_terminates 1 []
    [{ id := 1, prompt := 1, total := 3 }, { id := 2, prompt := 5, total := 4 }] (by decide)

end Drain

end Gpuforge

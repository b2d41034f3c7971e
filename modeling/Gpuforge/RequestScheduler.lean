/-!
# The request scheduler (`scheduler.hpp`, `scheduler.cpp`)

Submitted requests wait in a queue.  `next` admits them in order while there
are free slots and hands out the requests that share the phase of the oldest
active one; `complete` adds tokens to the active requests with an id and drops
those whose token budget is spent; `cancel` drops an id wherever it is.  Every
call holds the scheduler's mutex, so a call is one step.

`std::deque` and `std::vector` are lists, and the fixed-width fields are
`UInt64`, with its wrapping addition.
-/

namespace Gpuforge

inductive Phase where
  | prefill
  | decode
  | finished
  deriving DecidableEq, Repr

structure Request where
  id : UInt64 := 0
  prompt : UInt64 := 0
  total : UInt64 := 0
  generated : UInt64 := 0
  phase : Phase := .prefill
  deriving DecidableEq, Repr

structure Batch where
  ids : List UInt64 := []
  phase : Phase := .decode
  tokens : UInt64 := 0
  deriving DecidableEq, Repr

/-- `submit` overwrites the phase it is given. -/
def Request.queued (request : Request) : Request :=
  { request with phase := .prefill }

/-- What `complete` does to a request with the completed id. -/
def Request.advance (request : Request) (tokens : UInt64) : Request :=
  { request with
    generated := request.generated + tokens
    phase :=
      if request.total ≤ request.generated + tokens + request.prompt then .finished
      else .decode }

@[simp] theorem Request.queued_id (request : Request) : request.queued.id = request.id := rfl

structure Scheduler where
  maxBatch : Nat
  queue : List Request
  active : List Request
  deriving DecidableEq, Repr

namespace Scheduler

/-- The constructor. -/
def create (maxBatch : Nat := 8) : Scheduler := ⟨max 1 maxBatch, [], []⟩

def submit (σ : Scheduler) (request : Request) : Scheduler :=
  { σ with queue := σ.queue ++ [request.queued] }

def cancel (σ : Scheduler) (requestId : UInt64) : Scheduler :=
  { σ with
    queue := σ.queue.filter (fun request => request.id ≠ requestId)
    active := σ.active.filter (fun request => request.id ≠ requestId) }

/-- The admission loop of `next`: the front of the queue moves to the end of
the active list while there is a free slot. -/
def fillActive {α : Type} (maxBatch : Nat) : List α → List α → List α × List α
  | active, [] => (active, [])
  | active, front :: rest =>
      if active.length < maxBatch then fillActive maxBatch (active ++ [front]) rest
      else (active, front :: rest)

/-- The body of the batch loop of `next`. -/
def collect (batch : Batch) (request : Request) : Batch :=
  if request.phase ≠ batch.phase then batch
  else
    { batch with
      ids := batch.ids ++ [request.id]
      tokens := batch.tokens + if request.phase = .prefill then request.prompt else 1 }

/-- The scheduler after the admission loop. -/
def admitted (σ : Scheduler) : Scheduler :=
  { σ with
    active := (fillActive σ.maxBatch σ.active σ.queue).1
    queue := (fillActive σ.maxBatch σ.active σ.queue).2 }

def next (σ : Scheduler) : Batch × Scheduler :=
  match σ.admitted.active with
  | [] => ({}, σ.admitted)
  | front :: _ => (σ.admitted.active.foldl collect { phase := front.phase }, σ.admitted)

/-- The body of the first loop of `complete`. -/
def hit (requestId tokens : UInt64) (request : Request) : Request :=
  if request.id ≠ requestId then request else request.advance tokens

/-- The two loops of `complete`: advance the requests with the id, then erase
what is finished. -/
def complete (σ : Scheduler) (requestId tokens : UInt64) : Scheduler :=
  { σ with
    active := (σ.active.map (hit requestId tokens)).filter
      (fun request => request.phase ≠ .finished) }

def pending (σ : Scheduler) : Nat := σ.queue.length

def activeCount (σ : Scheduler) : Nat := σ.active.length

/-- The requests the scheduler still has. -/
def requests (σ : Scheduler) : List Request := σ.active ++ σ.queue

/-- The calls that change a scheduler. -/
inductive Op where
  | submit (request : Request)
  | cancel (requestId : UInt64)
  | next
  | complete (requestId tokens : UInt64)
  deriving DecidableEq, Repr

/-- The scheduler after a call. -/
def exec (σ : Scheduler) : Op → Scheduler
  | .submit request => σ.submit request
  | .cancel requestId => σ.cancel requestId
  | .next => σ.next.2
  | .complete requestId tokens => σ.complete requestId tokens

/-- The scheduler after a run of calls. -/
def run (σ : Scheduler) (ops : List Op) : Scheduler := ops.foldl exec σ

/-! ## What each call does -/

variable {α : Type} {σ : Scheduler}

/-- `next` changes the scheduler by its admission loop only. -/
theorem next_snd (σ : Scheduler) : σ.next.2 = σ.admitted := by
  unfold next
  split <;> rfl

/-- Admission moves requests over the border of the two lists and keeps their
order. -/
theorem fillActive_append (maxBatch : Nat) (queue : List α) : ∀ active : List α,
    (fillActive maxBatch active queue).1 ++ (fillActive maxBatch active queue).2 =
      active ++ queue := by
  induction queue with
  | nil => simp [fillActive]
  | cons front rest ih =>
      intro active
      rw [fillActive]
      split
      · rw [ih, List.append_assoc, List.singleton_append]
      · rfl

/-- Admission moves requests and changes none. -/
theorem requests_admitted (σ : Scheduler) : requests σ.admitted = requests σ :=
  fillActive_append σ.maxBatch σ.queue σ.active

/-- The active list only grows at its end. -/
theorem fillActive_prefix (maxBatch : Nat) (queue : List α) : ∀ active : List α,
    ∃ moved, (fillActive maxBatch active queue).1 = active ++ moved ∧
      queue = moved ++ (fillActive maxBatch active queue).2 := by
  induction queue with
  | nil => exact fun active => ⟨[], by simp [fillActive]⟩
  | cons front rest ih =>
      intro active
      rw [fillActive]
      split
      · obtain ⟨moved, hactive, hqueue⟩ := ih (active ++ [front])
        exact ⟨front :: moved, by simp [hactive], by rw [List.cons_append, ← hqueue]⟩
      · exact ⟨[], by simp, rfl⟩

/-- Admission respects the number of slots. -/
theorem fillActive_length_le {maxBatch : Nat} (queue : List α) : ∀ active : List α,
    active.length ≤ maxBatch → (fillActive maxBatch active queue).1.length ≤ maxBatch := by
  induction queue with
  | nil => exact fun active hle => hle
  | cons front rest ih =>
      intro active hle
      rw [fillActive]
      split
      · rename_i hfree
        exact ih _ (by simp only [List.length_append, List.length_singleton]; omega)
      · exact hle

/-- With a slot at all, nobody waits behind an empty active list. -/
theorem fillActive_eq_nil {maxBatch : Nat} (hslot : 1 ≤ maxBatch) (queue : List α)
    (hnil : (fillActive maxBatch [] queue).1 = []) : queue = [] := by
  cases queue with
  | nil => rfl
  | cons front rest =>
      obtain ⟨moved, hactive, _⟩ := fillActive_prefix maxBatch rest [front]
      rw [fillActive, if_pos (show ([] : List α).length < maxBatch from hslot)] at hnil
      rw [List.nil_append, hactive] at hnil
      cases hnil

/-- Admission commutes with a relabelling of the requests. -/
theorem fillActive_map {β : Type} (f : α → β) (maxBatch : Nat) (queue : List α) :
    ∀ active : List α, fillActive maxBatch (active.map f) (queue.map f) =
      ((fillActive maxBatch active queue).1.map f, (fillActive maxBatch active queue).2.map f) := by
  induction queue with
  | nil => intro active; rfl
  | cons front rest ih =>
      intro active
      rw [List.map_cons, fillActive, fillActive, List.length_map]
      split
      · have hstep := ih (active ++ [front])
        rwa [List.map_append, List.map_singleton] at hstep
      · rfl

/-- The batch loop lists the ids of the requests in the batch's phase. -/
theorem foldl_collect (requests : List Request) : ∀ batch : Batch,
    (requests.foldl collect batch).phase = batch.phase ∧
    (requests.foldl collect batch).ids =
      batch.ids ++ (requests.filter fun request => request.phase = batch.phase).map
        Request.id := by
  induction requests with
  | nil => simp
  | cons request rest ih =>
      intro batch
      have hcollect : (collect batch request).phase = batch.phase := by
        unfold collect
        split <;> rfl
      obtain ⟨hphase, hids⟩ := ih (collect batch request)
      rw [hcollect] at hphase hids
      refine ⟨hphase, ?_⟩
      rw [List.foldl_cons, hids]
      by_cases hsame : request.phase = batch.phase
      · simp [collect, hsame]
      · simp [collect, hsame]

/-- **The batch of `next`.**  Either nobody is active and the batch is empty,
or the batch lists the active requests in the phase of the oldest one. -/
theorem next_cases (σ : Scheduler) :
    (σ.admitted.active = [] ∧ σ.next.1 = {}) ∨
    ∃ front rest, σ.admitted.active = front :: rest ∧ σ.next.1.phase = front.phase ∧
      σ.next.1.ids = (σ.admitted.active.filter fun request =>
        request.phase = front.phase).map Request.id := by
  unfold next
  split
  · rename_i hnil
    exact Or.inl ⟨hnil, rfl⟩
  · rename_i front rest hactive
    obtain ⟨hphase, hids⟩ := foldl_collect σ.admitted.active { phase := front.phase }
    exact Or.inr ⟨front, rest, hactive, hphase, by simpa using hids⟩

/-- An id in the batch of `next` is that of an active request in the phase of
the batch. -/
theorem mem_next_ids {requestId : UInt64} (h : requestId ∈ σ.next.1.ids) :
    ∃ request ∈ σ.admitted.active, request.id = requestId ∧
      request.phase = σ.next.1.phase := by
  rcases next_cases σ with ⟨_, hbatch⟩ | ⟨front, rest, _, hphase, hids⟩
  · simp [hbatch] at h
  · rw [hids] at h
    obtain ⟨request, hmem, hid⟩ := List.mem_map.mp h
    obtain ⟨hactive, hsame⟩ := List.mem_filter.mp hmem
    exact ⟨request, hactive, hid, by rw [hphase]; simpa using hsame⟩

/-- The first loop of `complete` changes no id. -/
@[simp] theorem hit_id (requestId tokens : UInt64) (request : Request) :
    (hit requestId tokens request).id = request.id := by
  unfold hit
  split <;> rfl

/-- The ids of the requests left by `complete` are ids from before, in
order. -/
theorem ids_complete (σ : Scheduler) (requestId tokens : UInt64) :
    ((requests (σ.complete requestId tokens)).map Request.id).Sublist
      ((requests σ).map Request.id) := by
  have hids : (σ.active.map (hit requestId tokens)).map Request.id =
      σ.active.map Request.id := by
    rw [List.map_map]
    exact List.map_congr_left fun request _ => hit_id requestId tokens request
  rw [requests, requests, List.map_append, List.map_append, ← hids]
  exact (List.filter_sublist.map _).append_right _

/-- A request left active by `complete` is an unfinished hit of one active
before. -/
theorem mem_complete {requestId tokens : UInt64} {request : Request}
    (hmem : request ∈ (σ.complete requestId tokens).active) :
    ∃ before ∈ σ.active, request = hit requestId tokens before ∧
      request.phase ≠ .finished := by
  obtain ⟨hmap, hphase⟩ := List.mem_filter.mp hmem
  obtain ⟨before, hbefore, rfl⟩ := List.mem_map.mp hmap
  exact ⟨before, hbefore, rfl, by simpa using hphase⟩

/-- A run that ends with one more call. -/
theorem run_concat (σ : Scheduler) (ops : List Op) (op : Op) :
    σ.run (ops ++ [op]) = (σ.run ops).exec op := by
  simp [run]

end Scheduler

end Gpuforge

import Gpuforge.ThreadCache
import Gpuforge.LabelledRun

/-!
# Threads that share the pool (`vendor_memorypool/v3/src/MemoryPool.cpp`)

Any number of threads call the pool.  A call is a sequence of atomic steps: what
a thread does to its own cache together with one turn of a loop of the central
cache, or one call to the page cache.  Between the steps of one call, other
threads take theirs.  The locks of the code make a turn atomic, and keep some
turns from interleaving that may interleave here.

What a call that is not finished has in hand, a batch it is fetching or a chain
it is giving back, is part of the state.  The lists `small` and `large` are an
observer's: the blocks that callers hold, with the bytes they asked for.  They
say what a caller may free, and no step depends on them otherwise.
-/

namespace Gpuforge.Kama

open LabelledRun

/-- The counters of `MemoryPool.cpp`. -/
structure Stats where
  allocCount : ℕ := 0
  freeCount : ℕ := 0
  smallAllocCount : ℕ := 0
  largeAllocCount : ℕ := 0
  sizedFreeCount : ℕ := 0
  unsizedFreeCount : ℕ := 0
  centralRefillCount : ℕ := 0
  centralFlushCount : ℕ := 0
  deriving DecidableEq, Repr

namespace Stats

def recordAllocation (s : Stats) (size : ℕ) : Stats :=
  let s := { s with allocCount := addSize s.allocCount 1 }
  if maxBytes < size then { s with largeAllocCount := addSize s.largeAllocCount 1 }
  else { s with smallAllocCount := addSize s.smallAllocCount 1 }

def recordFree (s : Stats) (sized : Bool) : Stats :=
  let s := { s with freeCount := addSize s.freeCount 1 }
  if sized then { s with sizedFreeCount := addSize s.sizedFreeCount 1 }
  else { s with unsizedFreeCount := addSize s.unsizedFreeCount 1 }

def recordCentralRefill (s : Stats) (count : ℕ) : Stats :=
  { s with centralRefillCount := addSize s.centralRefillCount count }

def recordCentralFlush (s : Stats) (count : ℕ) : Stats :=
  { s with centralFlushCount := addSize s.centralFlushCount count }

end Stats

/-- What a thread is doing between two steps. -/
inductive Activity where
  | idle
  /-- In `fetchRange`, for a call with this request. -/
  | fetching (request size : ℕ) (got : List ℕ)
  /-- In `returnRange`, for a call to `deallocate`, sized or not, or for `flushAll`. -/
  | returning (index : ℕ) (chain : List ℕ) (freed : Option Bool)
  deriving DecidableEq, Repr

/-- The blocks in hand. -/
def Activity.blocks : Activity → List ℕ
  | .idle => []
  | .fetching _ _ got => got
  | .returning _ chain _ => chain

/-- The process: the shared caches, each thread's cache and what it is doing, and
the observer's lists. -/
structure Pool (T : Type) where
  heap : Heap
  caches : T → ThreadCache
  doing : T → Activity
  small : List (ℕ × ℕ)
  large : List (ℕ × ℕ)
  stats : Stats

/-- A step of a thread. -/
inductive Event (T : Type) where
  /-- `allocate` is called; the answer is the system's in case it is asked. -/
  | allocate (t : T) (size answer : ℕ)
  | allocateAligned (t : T) (size align answer : ℕ)
  /-- A turn of `fetchRange`, or the end of its call. -/
  | fetch (t : T) (answer : ℕ)
  | deallocate (t : T) (ptr : ℕ)
  | deallocateSized (t : T) (ptr size : ℕ)
  /-- A turn of `returnRange`, or the end of its call. -/
  | giveBack (t : T)
  /-- `flushAll` comes to a class whose list is not empty. -/
  | flush (t : T) (index : ℕ)
  deriving DecidableEq, Repr

namespace Pool

variable {T : Type} [DecidableEq T]

/-- The process when it starts. -/
def start : Pool T where
  heap := .new
  caches := fun _ => .new
  doing := fun _ => .idle
  small := []
  large := []
  stats := {}

/-- The blocks callers hold. -/
def live (st : Pool T) : List (ℕ × ℕ) := st.small ++ st.large

def setHeap (st : Pool T) (heap : Heap) : Pool T := { st with heap := heap }

def setCache (st : Pool T) (t : T) (tc : ThreadCache) : Pool T :=
  { st with caches := fun u => if u = t then tc else st.caches u }

def setDoing (st : Pool T) (t : T) (a : Activity) : Pool T :=
  { st with doing := fun u => if u = t then a else st.doing u }

/-- A caller has a block. -/
def grantSmall (st : Pool T) (request size ptr : ℕ) : Pool T :=
  { st with small := (ptr, size) :: st.small, stats := st.stats.recordAllocation request }

def grantLarge (st : Pool T) (request size ptr : ℕ) : Pool T :=
  { st with large := (ptr, size) :: st.large, stats := st.stats.recordAllocation request }

/-- A caller has given a block up. -/
def dropSmall (st : Pool T) (ptr : ℕ) : Pool T :=
  { st with small := st.small.eraseP fun b => b.1 = ptr }

def dropLarge (st : Pool T) (ptr : ℕ) : Pool T :=
  { st with large := st.large.eraseP fun b => b.1 = ptr }

def recordFree (st : Pool T) (freed : Option Bool) : Pool T :=
  match freed with
  | none => st
  | some sized => { st with stats := st.stats.recordFree sized }

variable (pf : Platform)

/-- `allocate` of `need` bytes for a request, up to its first loop. -/
def allocate (st : Pool T) (t : T) (request need answer : ℕ) : Option (Pool T) :=
  let size := neededBytes need
  if maxBytes < size then
    (allocateLarge pf answer st.heap size).map fun (ptr, heap) =>
      if ptr = 0 then st.setHeap heap else (st.setHeap heap).grantLarge request size ptr
  else
    match (st.caches t).pop (getIndex size) with
    | some (ptr, tc) => some ((st.setCache t tc).grantSmall request size ptr)
    | none => some (st.setDoing t (.fetching request size []))

/-- The end of `fetchFromCentralCache`. -/
def finish (st : Pool T) (t : T) (request size : ℕ) (got : List ℕ) : Pool T :=
  let refilled := (st.caches t).refill (getIndex size) got
  let st := (st.setCache t refilled.2).setDoing t .idle
  if got = [] then st
  else
    { st with stats := st.stats.recordCentralRefill got.length }.grantSmall request size refilled.1

/-- A turn of `fetchRange`, or its end. -/
def fetch (st : Pool T) (t : T) (answer : ℕ) : Option (Pool T) :=
  match st.doing t with
  | .fetching request size got =>
      if got.length < getBatchNum (getSize (getIndex size)) then
        (st.heap.fetchTurn pf answer (getIndex size)).map fun (obj, heap) =>
          match obj with
          | none => (st.setHeap heap).finish t request size got
          | some obj => (st.setHeap heap).setDoing t (.fetching request size (got ++ [obj]))
      else some (st.finish t request size got)
  | _ => some st

/-- `deallocate` of a small block, up to its loop. -/
def giveUp (st : Pool T) (t : T) (index ptr : ℕ) (sized : Bool) : Pool T :=
  let given := (st.caches t).giveUp index ptr
  let st' := (st.setCache t given.2).dropSmall ptr
  if given.1 = [] then st'.recordFree (some sized)
  else
    let flushed := (st.caches t).freeListSize index + 1 - given.2.freeListSize index
    { st' with stats := st'.stats.recordCentralFlush flushed }.setDoing t
      (.returning index given.1 (some sized))

/-- `deallocate(ptr)`, up to its loop. -/
def deallocate (st : Pool T) (t : T) (ptr : ℕ) (sized : Bool) : Option (Pool T) :=
  match st.heap.pages.findSpan pf ptr with
  | none => some st
  | some id =>
      match st.heap.pages.spans.get id with
      | none => none
      | some span =>
          if span.isLarge then
            (st.heap.pages.deallocateSpan pf id).map fun pages =>
              ((st.setHeap { st.heap with pages := pages }).dropLarge ptr).recordFree (some sized)
          else if classCount ≤ span.sizeClass then some st
          else some (st.giveUp t span.sizeClass ptr sized)

/-- `deallocate(ptr, size)`, up to its loop. -/
def deallocateSized (st : Pool T) (t : T) (ptr size : ℕ) : Option (Pool T) :=
  if ptr = 0 then some st
  else if maxBytes < neededBytes size then st.deallocate pf t ptr true
  else if classCount ≤ getIndex (roundUp (neededBytes size)) then st.deallocate pf t ptr true
  else some (st.giveUp t (getIndex (roundUp (neededBytes size))) ptr true)

/-- A turn of `returnRange`, or its end. -/
def giveBack (st : Pool T) (t : T) : Option (Pool T) :=
  match st.doing t with
  | .returning index (cur :: chain) freed =>
      (st.heap.returnTurn pf index cur).map fun heap =>
        (st.setHeap heap).setDoing t (.returning index chain freed)
  | .returning _ [] freed => some ((st.setDoing t .idle).recordFree freed)
  | _ => some st

/-- `flushAll` at a class. -/
def flush (st : Pool T) (t : T) (index : ℕ) : Pool T :=
  let tc := st.caches t
  if tc.freeList index ≠ [] ∧ 0 < tc.freeListSize index then
    (st.setCache t (tc.setList index [] 0)).setDoing t
      (.returning index (tc.freeList index) none)
  else st

/-- What a step does; `none` is undefined behaviour. -/
def exec (st : Pool T) : Event T → Option (Pool T)
  | .allocate t size answer => st.allocate pf t size size answer
  | .allocateAligned t size align answer =>
      match alignedBytes size align with
      | none => some st
      | some need => st.allocate pf t size need answer
  | .fetch t answer => st.fetch pf t answer
  | .deallocate t ptr => if ptr = 0 then some st else st.deallocate pf t ptr false
  | .deallocateSized t ptr size => st.deallocateSized pf t ptr size
  | .giveBack t => st.giveBack pf t
  | .flush t index => some (st.flush t index)

/-! ## What callers and the system do -/

/-- The bytes a large request asks the system for. -/
def largeAsked (need : ℕ) : ℕ :=
  PageCache.askedBytes pf
    (PageCache.wantedPages ((neededBytes need + pf.systemPageSize - 1) / pf.systemPageSize))

/-- The bytes a span for a class asks the system for. -/
def spanAsked (index : ℕ) : ℕ :=
  PageCache.askedBytes pf (PageCache.wantedPages (spanPages pf index))

/-- When a step may be taken.  A thread is in one call at a time.  A caller frees
what it holds, or null; the size it gives is one of the block's class.  The system
answers with memory that is in no mapping, or not at all. -/
def Enabled (st : Pool T) : Event T → Prop
  | .allocate t size answer =>
      st.doing t = .idle ∧ PageCache.SystemGrants pf st.heap.pages answer (largeAsked pf size)
  | .allocateAligned t size align answer =>
      st.doing t = .idle ∧ ∀ need, alignedBytes size align = some need →
        PageCache.SystemGrants pf st.heap.pages answer (largeAsked pf need)
  | .fetch t answer =>
      ∃ request size got, st.doing t = .fetching request size got ∧
        PageCache.SystemGrants pf st.heap.pages answer (spanAsked pf (getIndex size))
  | .deallocate t ptr => st.doing t = .idle ∧ (ptr = 0 ∨ ∃ size, (ptr, size) ∈ st.live)
  | .deallocateSized t ptr size =>
      st.doing t = .idle ∧
        (ptr = 0 ∨ ∃ need, (ptr, need) ∈ st.live ∧ getIndex (neededBytes size) = getIndex need)
  | .giveBack t => ∃ index chain freed, st.doing t = .returning index chain freed
  | .flush t index => st.doing t = .idle ∧ index < classCount

/-- A step of the process. -/
def Moves (st : Pool T) (e : Event T) (st' : Pool T) : Prop :=
  st.Enabled pf e ∧ st.exec pf e = some st'

/-! ## The turns of loops -/

variable {pf : Platform} {st st' : Pool T} {t : T}

/-- A turn of `fetchRange` ends the fetch, or gets one block more. -/
theorem fetch_cases {request size answer : ℕ} {got : List ℕ}
    (hdoing : st.doing t = .fetching request size got)
    (hexec : st.fetch pf t answer = some st') :
    (∃ heap, (heap = st.heap ∨
          st.heap.fetchTurn pf answer (getIndex size) = some (none, heap)) ∧
        st' = (st.setHeap heap).finish t request size got) ∨
      ∃ obj heap, got.length < getBatchNum (getSize (getIndex size)) ∧
        st.heap.fetchTurn pf answer (getIndex size) = some (some obj, heap) ∧
        st' = (st.setHeap heap).setDoing t (.fetching request size (got ++ [obj])) := by
  unfold Pool.fetch at hexec
  simp only [hdoing] at hexec
  split at hexec
  · next hroom =>
    obtain ⟨⟨obj, heap⟩, hturn, rfl⟩ := Option.map_eq_some_iff.mp hexec
    cases obj with
    | none => exact .inl ⟨heap, .inr hturn, rfl⟩
    | some obj => exact .inr ⟨obj, heap, hroom, hturn, rfl⟩
  · obtain rfl := Option.some.inj hexec
    exact .inl ⟨st.heap, .inl rfl, rfl⟩

/-- A turn of `returnRange` ends the call, or gives one block back. -/
theorem giveBack_cases {index : ℕ} {chain : List ℕ} {freed : Option Bool}
    (hdoing : st.doing t = .returning index chain freed)
    (hexec : st.giveBack pf t = some st') :
    (chain = [] ∧ st' = (st.setDoing t .idle).recordFree freed) ∨
      ∃ cur rest heap, chain = cur :: rest ∧ st.heap.returnTurn pf index cur = some heap ∧
        st' = (st.setHeap heap).setDoing t (.returning index rest freed) := by
  unfold Pool.giveBack at hexec
  cases chain with
  | nil =>
      simp only [hdoing] at hexec
      exact .inl ⟨rfl, (Option.some.inj hexec).symm⟩
  | cons cur rest =>
      simp only [hdoing] at hexec
      obtain ⟨heap, hturn, rfl⟩ := Option.map_eq_some_iff.mp hexec
      exact .inr ⟨cur, rest, heap, rfl, hturn, rfl⟩

end Pool

end Gpuforge.Kama

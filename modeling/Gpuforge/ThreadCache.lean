import Gpuforge.CentralCache

/-!
# Thread caches (`vendor_memorypool/v3/src/ThreadCache.cpp`, `MemoryPool.cpp`)

Each thread keeps a list of blocks for each class and serves its calls from
them.  An empty list is refilled from the central cache, a batch at a time; a
list that grew too long gives half of its blocks back.  Requests above
`MAX_BYTES` have a span of their own.

The calls are cut at the places where they pass blocks to or take them from the
shared caches: what happens before and after is the thread's own.  Null is 0.
The checks of the debug build are compiled out and left out here.
-/

namespace Gpuforge.Kama

open ObjectTable

/-- The lists of one thread. -/
structure ThreadCache where
  freeList : ℕ → List ℕ
  freeListSize : ℕ → ℕ

/-- `maxCachedBlocks`. -/
def maxCachedBlocks (size : ℕ) : ℕ :=
  let n := max 1 (256 * 1024 / max size alignment)
  if size ≤ 32 then 4096
  else if size ≤ 64 then 2048
  else if size ≤ 256 then 1024
  else if size ≤ 1024 then 256
  else if size ≤ 4096 then 512
  else min n 128

/-- `getBatchNum`. -/
def getBatchNum (size : ℕ) : ℕ :=
  let n := max 1 (64 * 1024 / max size alignment)
  let n :=
    if size ≤ 32 then min n 512
    else if size ≤ 64 then min n 256
    else if size ≤ 256 then min n 128
    else if size ≤ 1024 then min n 32
    else min n 16
  max 1 n

/-- A request for nothing is one for the smallest block. -/
def neededBytes (size : ℕ) : ℕ := if size = 0 then alignment else size

/-- What `allocate` writes to the span of a large request. -/
def Span.large (size : ℕ) (s : Span) : Span :=
  { s with
    isLarge := true, blockSize := size, blockCount := 1, freeCount := 0, sizeClass := sizeMax }

namespace ThreadCache

/-- The cache of a new thread. -/
def new : ThreadCache := { freeList := fun _ => [], freeListSize := fun _ => 0 }

/-- Write one list and its size. -/
def setList (tc : ThreadCache) (index : ℕ) (list : List ℕ) (size : ℕ) : ThreadCache where
  freeList := fun i => if i = index then list else tc.freeList i
  freeListSize := fun i => if i = index then size else tc.freeListSize i

/-- `shouldReturnToCentralCache`. -/
def shouldReturn (tc : ThreadCache) (index : ℕ) : Prop :=
  maxCachedBlocks (getSize index) < tc.freeListSize index

instance (tc : ThreadCache) (index : ℕ) : Decidable (tc.shouldReturn index) :=
  inferInstanceAs (Decidable (_ < _))

/-- `allocate`, from the thread's list. -/
def pop (tc : ThreadCache) (index : ℕ) : Option (ℕ × ThreadCache) :=
  match tc.freeList index with
  | [] => none
  | ptr :: rest => some (ptr, tc.setList index rest (tc.freeListSize index - 1))

/-- `fetchFromCentralCache`, with the fetched batch: its first block is the
result, the others are the thread's list. -/
def refill (tc : ThreadCache) (index : ℕ) : List ℕ → ℕ × ThreadCache
  | [] => (0, tc)
  | ptr :: rest => (ptr, tc.setList index rest (tc.freeListSize index + rest.length))

/-- `deallocate`, to the thread's list. -/
def push (tc : ThreadCache) (index ptr : ℕ) : ThreadCache :=
  tc.setList index (ptr :: tc.freeList index) (tc.freeListSize index + 1)

/-- `returnToCentralCache`: the chain that goes back, and what stays. -/
def cut (tc : ThreadCache) (index : ℕ) : List ℕ × ThreadCache :=
  let batchNum := tc.freeListSize index
  if batchNum ≤ 1 then ([], tc)
  else
    let keepNum := min (max (batchNum / 2) 1) (maxCachedBlocks (getSize index))
    if batchNum ≤ keepNum then ([], tc)
    else if (tc.freeList index).length < keepNum then ([], tc)
    else
      ((tc.freeList index).drop keepNum,
        tc.setList index ((tc.freeList index).take keepNum) keepNum)

/-- `deallocate`, its end: the chain that goes back, and what stays. -/
def giveUp (tc : ThreadCache) (index ptr : ℕ) : List ℕ × ThreadCache :=
  let pushed := tc.push index ptr
  if pushed.shouldReturn index then pushed.cut index else ([], pushed)

end ThreadCache

variable (pf : Platform)

/-- `allocate`, for a request above `MAX_BYTES`: its address, or null. -/
def allocateLarge (answer : ℕ) (h : Heap) (size : ℕ) : Option (ℕ × Heap) :=
  if sizeMax - (pf.systemPageSize - 1) < size then some (0, h)
  else
    match h.pages.allocateSpan pf answer
        ((size + pf.systemPageSize - 1) / pf.systemPageSize) with
    | none => none
    | some (none, pages) => some (0, { h with pages := pages })
    | some (some id, pages) =>
        match pages.spans.get id with
        | none => none
        | some span =>
            some (span.pageAddr, { h with pages := pages.write id (Span.large size) })

/-- `allocateAligned`: the bytes it allocates, if the arguments pass its checks. -/
def alignedBytes (size align : ℕ) : Option ℕ :=
  if align = 0 ∨ align &&& (align - 1) ≠ 0 then none
  else if align ≤ alignment then some size
  else if sizeMax - (align - 1) < size then none
  else some (maskUp size align)

namespace ThreadCache

/-- `allocate`, with the answers of the system in case it is asked. -/
def allocate (answers : ℕ → ℕ) (tc : ThreadCache) (h : Heap) (request : ℕ) :
    Option (ℕ × ThreadCache × Heap) :=
  let size := neededBytes request
  if maxBytes < size then
    (allocateLarge pf (answers 0) h size).map fun (ptr, h) => (ptr, tc, h)
  else
    let index := getIndex size
    match tc.pop index with
    | some (ptr, tc) => some (ptr, tc, h)
    | none =>
        (h.fetchRange pf answers index (getBatchNum (getSize index))).map fun (batch, h) =>
          ((tc.refill index batch).1, (tc.refill index batch).2, h)

def allocateAligned (answers : ℕ → ℕ) (tc : ThreadCache) (h : Heap) (size align : ℕ) :
    Option (ℕ × ThreadCache × Heap) :=
  match alignedBytes size align with
  | none => some (0, tc, h)
  | some need => allocate pf answers tc h need

/-- `deallocate(ptr)`, with whether it took the block. -/
def deallocate (tc : ThreadCache) (h : Heap) (ptr : ℕ) : Option (Bool × ThreadCache × Heap) :=
  match h.pages.findSpan pf ptr with
  | none => some (false, tc, h)
  | some id =>
      match h.pages.spans.get id with
      | none => none
      | some span =>
          if span.isLarge then
            (h.pages.deallocateSpan pf id).map fun pages => (true, tc, { h with pages := pages })
          else if classCount ≤ span.sizeClass then some (false, tc, h)
          else
            let (chain, tc) := tc.giveUp span.sizeClass ptr
            (h.returnRange pf chain span.sizeClass).map fun h => (true, tc, h)

/-- `deallocate(ptr, size)`, with whether it took the block. -/
def deallocateSized (tc : ThreadCache) (h : Heap) (ptr size : ℕ) :
    Option (Bool × ThreadCache × Heap) :=
  if ptr = 0 then some (false, tc, h)
  else if maxBytes < neededBytes size then tc.deallocate pf h ptr
  else
    let index := getIndex (roundUp (neededBytes size))
    if classCount ≤ index then tc.deallocate pf h ptr
    else
      let (chain, tc) := tc.giveUp index ptr
      (h.returnRange pf chain index).map fun h => (true, tc, h)

/-- `flushAll`, when a thread ends, from a class on. -/
def flushFrom : ℕ → ℕ → ThreadCache → Heap → Option (ThreadCache × Heap)
  | 0, _, tc, h => some (tc, h)
  | left + 1, i, tc, h =>
      if tc.freeList i ≠ [] ∧ 0 < tc.freeListSize i then
        (h.returnRange pf (tc.freeList i) i).bind fun h =>
          flushFrom left (i + 1) (tc.setList i [] 0) h
      else flushFrom left (i + 1) tc h

end ThreadCache

end Gpuforge.Kama

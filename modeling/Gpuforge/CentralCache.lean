import Gpuforge.PageCacheCalls

/-!
# The central cache (`vendor_memorypool/v3/src/CentralCache.cpp`)

The central cache cuts spans into blocks of one size class and passes blocks to
and from the threads, a chain at a time.  Each class has a list of the spans
that have a block left.  A span whose last block was taken leaves its list, and
a span to which all blocks came back goes back to the page cache.

`fetchRange` and `returnRange` are loops whose turn is one block.  A turn is a
definition of its own; the loops repeat it.  Chains that the code threads
through the blocks are lists here, which is sound as long as no block is in two
of them.
-/

namespace Gpuforge.Kama

open ObjectTable

/-- The caches that all threads share. -/
structure Heap where
  pages : PageCache
  /-- `shards_[index].partial`. -/
  partialSpans : ℕ → List SpanId

/-- The caches when the program starts. -/
def Heap.new : Heap := { pages := .new, partialSpans := fun _ => [] }

/-- Write to a span's fields. -/
def PageCache.write (pc : PageCache) (id : SpanId) (f : Span → Span) : PageCache :=
  { pc with spans := pc.spans.modify id f }

/-- The spans of a class that have a block left. -/
def Heap.setPartial (h : Heap) (index : ℕ) (list : List SpanId) : Heap :=
  { h with partialSpans := fun i => if i = index then list else h.partialSpans i }

/-- The bytes `createSpan` wants for a block size. -/
def targetBytes (blockSize : ℕ) : ℕ :=
  if blockSize ≤ 256 then 32 * 1024
  else if blockSize ≤ 1024 then 128 * 1024
  else if blockSize ≤ 4096 then 512 * 1024
  else 2 * 1024 * 1024

/-- Blocks of one size from an address on. -/
def blocksFrom (start blockSize n : ℕ) : List ℕ :=
  (List.range n).map fun i => start + i * blockSize

/-- The blocks of a span. -/
def Span.blocks (s : Span) : List ℕ := blocksFrom s.pageAddr s.blockSize s.blockCount

/-- What `createSpan` writes to its span. -/
def Span.carved (index n : ℕ) (s : Span) : Span :=
  { s with
    blockSize := getSize index
    blockCount := n
    freeCount := n
    freeList := blocksFrom s.pageAddr (getSize index) n
    sizeClass := index
    isLarge := false }

variable (pf : Platform)

/-- The pages `createSpan` asks for. -/
def spanPages (index : ℕ) : ℕ :=
  let blockSize := getSize index
  let target := max pf.systemPageSize (targetBytes blockSize)
  let target :=
    if target < blockSize then
      (blockSize + pf.systemPageSize - 1) / pf.systemPageSize * pf.systemPageSize
    else target
  let numPages := target / pf.systemPageSize
  if numPages = 0 then 1 else numPages

namespace Heap

/-- `createSpan`. -/
def createSpan (answer : ℕ) (h : Heap) (index : ℕ) : Option (Option SpanId × Heap) :=
  match h.pages.allocateSpan pf answer (spanPages pf index) with
  | none => none
  | some (none, pages) => some (none, { h with pages := pages })
  | some (some id, pages) =>
      match pages.spans.get id with
      | none => none
      | some span =>
          let n := span.numPages * pf.systemPageSize / getSize index
          if n = 0 then
            (pages.deallocateSpan pf id).map fun pages => (none, { h with pages := pages })
          else some (some id, { h with pages := pages.write id (Span.carved index n) })

/-- A turn of `fetchRange` with a span that has a block left. -/
def takeBlock (h : Heap) (index : ℕ) (id : SpanId) : Option (Option ℕ × Heap) :=
  match h.pages.spans.get id with
  | none => none
  | some span =>
      match span.freeList with
      | [] => none
      | obj :: rest =>
          let pages := h.pages.write id fun s =>
            { s with freeList := rest, freeCount := s.freeCount - 1 }
          let h := { h with pages := pages }
          some (some obj,
            if span.freeCount - 1 = 0 then h.setPartial index (h.partialSpans index).tail else h)

/-- A turn of `fetchRange`: a block, or none where there is no memory. -/
def fetchTurn (answer : ℕ) (h : Heap) (index : ℕ) : Option (Option ℕ × Heap) :=
  match h.partialSpans index with
  | id :: _ => h.takeBlock index id
  | [] =>
      match h.createSpan pf answer index with
      | none => none
      | some (none, h) => some (none, h)
      | some (some id, h) => (h.setPartial index [id]).takeBlock index id

/-- The loop of `fetchRange`, with what the system answers in each turn. -/
def fetchLoop (index : ℕ) : List ℕ → Heap → Option (List ℕ × Heap)
  | [], h => some ([], h)
  | answer :: answers, h =>
      match h.fetchTurn pf answer index with
      | none => none
      | some (none, h) => some ([], h)
      | some (some obj, h) => (fetchLoop index answers h).map fun (objs, h) => (obj :: objs, h)

/-- `fetchRange`, with what the system answers in each turn. -/
def fetchRange (answers : ℕ → ℕ) (h : Heap) (index batchNum : ℕ) : Option (List ℕ × Heap) :=
  if classCount ≤ index then some ([], h)
  else fetchLoop pf index ((List.range batchNum).map answers) h

/-- A turn of `returnRange`. -/
def returnTurn (h : Heap) (index cur : ℕ) : Option Heap :=
  match h.pages.findSpan pf cur with
  | none => some h
  | some id =>
      match h.pages.spans.get id with
      | none => none
      | some span =>
          if span.sizeClass ≠ index then some h
          else
            let pages := h.pages.write id fun s =>
              { s with freeList := cur :: s.freeList, freeCount := s.freeCount + 1 }
            let written := { h with pages := pages }
            if span.freeCount + 1 = span.blockCount then
              (pages.deallocateSpan pf id).map fun pages =>
                { written.setPartial index ((h.partialSpans index).erase id) with pages := pages }
            else if span.freeCount = 0 then
              some (written.setPartial index (id :: h.partialSpans index))
            else some written

/-- The loop of `returnRange`. -/
def returnLoop (index : ℕ) : List ℕ → Heap → Option Heap
  | [], h => some h
  | cur :: chain, h => (h.returnTurn pf index cur).bind (returnLoop index chain)

def returnRange (h : Heap) (chain : List ℕ) (index : ℕ) : Option Heap :=
  if classCount ≤ index then some h else returnLoop pf index chain h

end Heap

end Gpuforge.Kama

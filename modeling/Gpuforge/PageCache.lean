import Gpuforge.SizeClasses
import Gpuforge.SortedBuckets
import Gpuforge.SegmentTable

/-!
# The page cache (`vendor_memorypool/v3/src/PageCache.cpp`)

The page cache takes memory from the operating system in whole pages and hands
it out in spans.  A request takes the smallest free span that is large enough
and leaves the rest free; a span that comes back is joined with its free
neighbours of the same mapping, and a mapping that is free as a whole goes back
to the system once enough free pages are kept.

Addresses are numbers of bytes, and null is 0.  `Span*` is a number that a table
of objects gives out, so a span that was
deleted is not found again: reading through such a pointer makes a call
undefined, which is `none` here.  The singly linked free lists are lists.  All
calls run under one mutex.

The system's memory is outside.  Its answer to `allocPages`, 0 for none, is a
parameter of a call that may ask it, and `mapped` are the mappings it has made
for the cache and not taken back.
-/

namespace Gpuforge.Kama

open ObjectTable SortedBuckets SegmentTable

/-- `Span*`. -/
abbrev SpanId := ℕ

/-- What `Platform.h` reads from the system. -/
structure Platform where
  systemPageSize : ℕ
  systemAllocGranularity : ℕ
  page_pow : ∃ k, systemPageSize = 2 ^ k
  granularity_pow : ∃ k, systemAllocGranularity = 2 ^ k
  alignment_le : alignment ≤ systemPageSize
  page_le : systemPageSize ≤ systemAllocGranularity
  granularity_lt : systemAllocGranularity < 2 ^ 64

structure Span where
  pageAddr : ℕ
  numPages : ℕ
  originAddr : ℕ
  originPages : ℕ
  blockSize : ℕ := 0
  blockCount : ℕ := 0
  freeCount : ℕ := 0
  sizeClass : ℕ := 0
  freeList : List ℕ := []
  inFreeList : Bool := false
  isLarge : Bool := false
  deriving DecidableEq, Repr

structure PageCache where
  freeSpans : Buckets ℕ SpanId
  pageMap : ℕ → Option SpanId
  systemAllocs : List (ℕ × ℕ)
  cachedFreePages : ℕ
  spans : Objects Span
  mapped : List (ℕ × ℕ)

/-- The cache when the program starts. -/
def PageCache.new : PageCache where
  freeSpans := .empty
  pageMap := fun _ => none
  systemAllocs := []
  cachedFreePages := 0
  spans := .empty
  mapped := []

variable (pf : Platform)

def pageId (ptr : ℕ) : ℕ := ptr / pf.systemPageSize

/-- The pages of a span. -/
def Span.segment (s : Span) : Segment := ⟨pageId pf s.pageAddr, s.numPages⟩

/-- The address after a span. -/
def Span.stop (s : Span) : ℕ := s.pageAddr + s.numPages * pf.systemPageSize

/-- The span is all of its mapping. -/
def Span.Whole (s : Span) : Prop := s.pageAddr = s.originAddr ∧ s.numPages = s.originPages

instance (s : Span) : Decidable s.Whole := inferInstanceAs (Decidable (_ ∧ _))

/-- The fields `deallocateSpan` resets. -/
def Span.cleared (s : Span) : Span :=
  { s with
    freeList := [], blockSize := 0, blockCount := 0, freeCount := 0, sizeClass := 0
    isLarge := false }

/-- `kMaxCachedBytes` in pages. -/
def maxCachedPages : ℕ := 64 * 1024 * 1024 / pf.systemPageSize

namespace PageCache

def findSpanLocked (pc : PageCache) (ptr : ℕ) : Option SpanId := pc.pageMap (pageId pf ptr)

def findSpan (pc : PageCache) (ptr : ℕ) : Option SpanId :=
  if ptr = 0 then none else pc.findSpanLocked pf ptr

def reservedBytes (pc : PageCache) : ℕ := (pc.systemAllocs.map Prod.snd).sum

def cachedPageBytes (pc : PageCache) : ℕ := pc.cachedFreePages * pf.systemPageSize

/-- How much memory `systemAlloc` asks for. -/
def askedBytes (numPages : ℕ) : ℕ :=
  maskUp (numPages * pf.systemPageSize) pf.systemAllocGranularity

/-- `systemAlloc`: the memory and its pages. -/
def systemAlloc (answer : ℕ) (pc : PageCache) (numPages : ℕ) :
    Option (ℕ × ℕ × PageCache) :=
  if sizeMax / pf.systemPageSize < numPages then none
  else if sizeMax - (pf.systemAllocGranularity - 1) < numPages * pf.systemPageSize then none
  else if answer = 0 then none
  else
    let bytes := askedBytes pf numPages
    some (answer, bytes / pf.systemPageSize,
      { pc with
        systemAllocs := pc.systemAllocs ++ [(answer, bytes)]
        mapped := pc.mapped ++ [(answer, bytes)] })

/-- `releaseOrigin` of a span that is all of its mapping. -/
def releaseOrigin (pc : PageCache) (id : SpanId) (span : Span) : PageCache :=
  { pc with
    pageMap := paint pc.pageMap (span.segment pf) none
    systemAllocs := pc.systemAllocs.eraseP fun item => item.1 = span.originAddr
    spans := pc.spans.delete id
    mapped := pc.mapped.erase (span.originAddr, span.originPages * pf.systemPageSize) }

/-- Take a span off the free list of a number of pages. -/
def takeSpan (pc : PageCache) (key : ℕ) (id : SpanId) (span : Span) : PageCache :=
  { pc with
    freeSpans := pc.freeSpans.erase key id
    cachedFreePages := pc.cachedFreePages - span.numPages
    spans := pc.spans.modify id fun s => { s with inFreeList := false } }

/-- Put a span on the free list of its number of pages. -/
def listSpan (pc : PageCache) (id : SpanId) (span : Span) : PageCache :=
  { pc with
    freeSpans := pc.freeSpans.push span.numPages id
    cachedFreePages := pc.cachedFreePages + span.numPages
    spans := pc.spans.modify id fun s => { s with inFreeList := true } }

/-- The rest of a span of which the first pages are used. -/
def restSpan (span : Span) (numPages : ℕ) : Span where
  pageAddr := span.pageAddr + numPages * pf.systemPageSize
  numPages := span.numPages - numPages
  originAddr := span.originAddr
  originPages := span.originPages
  inFreeList := true

/-- `allocateSpan`, where the span is larger than the request. -/
def splitSpan (pc : PageCache) (id : SpanId) (span : Span) (numPages : ℕ) : PageCache :=
  let rest := restSpan pf span numPages
  let restId := pc.spans.next
  { pc with
    freeSpans := pc.freeSpans.push rest.numPages restId
    cachedFreePages := pc.cachedFreePages + rest.numPages
    pageMap := paint (paint pc.pageMap (rest.segment pf) (some restId))
      ({ span with numPages := numPages }.segment pf) (some id)
    spans := (pc.spans.new rest).modify id fun s => { s with numPages := numPages } }

/-- `allocateSpan`, where the system has given memory. -/
def newOrigin (pc : PageCache) (memory : ℕ) (numPages : ℕ) : PageCache :=
  let span : Span :=
    { pageAddr := memory, numPages := numPages, originAddr := memory, originPages := numPages }
  { pc with
    pageMap := paint pc.pageMap (span.segment pf) (some pc.spans.next)
    spans := pc.spans.new span }

/-- `allocateSpan`: a span, or none where the system has no memory. -/
def allocateSpan (answer : ℕ) (pc : PageCache) (requested : ℕ) :
    Option (Option SpanId × PageCache) :=
  let numPages := if requested = 0 then 1 else requested
  match pc.freeSpans.lowerBound numPages with
  | some (key, id) =>
      match pc.spans.get id with
      | none => none
      | some span =>
          let pc := pc.takeSpan key id span
          some (some id,
            if numPages < span.numPages then pc.splitSpan pf id span numPages else pc)
  | none =>
      match pc.systemAlloc pf answer numPages with
      | none => some (none, pc)
      | some (memory, pages, pc) => some (some pc.spans.next, pc.newOrigin pf memory pages)

/-- `removeFromFreeList`; `none` where it returns false. -/
def removeFromFreeList (pc : PageCache) (id : SpanId) (span : Span) : Option PageCache :=
  if id ∈ pc.freeSpans.stack span.numPages then some (pc.takeSpan span.numPages id span) else none

/-- A span takes in the span that follows it. -/
def absorb (pc : PageCache) (id goneId : SpanId) (gone : Span) : PageCache :=
  { pc with
    pageMap := paint pc.pageMap (gone.segment pf) (some id)
    spans := (pc.spans.modify id fun s =>
      { s with numPages := s.numPages + gone.numPages }).delete goneId }

/-- `deallocateSpan`, the join with the next span. -/
def mergeNext (pc : PageCache) (id : SpanId) : Option PageCache :=
  match pc.spans.get id with
  | none => none
  | some span =>
      match pc.findSpanLocked pf (span.stop pf) with
      | none => some pc
      | some nextId =>
          match pc.spans.get nextId with
          | none => none
          | some next =>
              if nextId ≠ id ∧ next.inFreeList ∧ next.pageAddr = span.stop pf ∧
                  next.originAddr = span.originAddr then
                match pc.removeFromFreeList nextId next with
                | none => some pc
                | some pc => some (pc.absorb pf id nextId next)
              else some pc

/-- `deallocateSpan`, the join with the previous span, and the span that remains. -/
def mergePrev (pc : PageCache) (id : SpanId) : Option (SpanId × PageCache) :=
  match pc.spans.get id with
  | none => none
  | some span =>
      if span.pageAddr = span.originAddr then some (id, pc)
      else
        match pc.findSpanLocked pf (span.pageAddr - 1) with
        | none => some (id, pc)
        | some prevId =>
            match pc.spans.get prevId with
            | none => none
            | some prev =>
                if prevId ≠ id ∧ prev.inFreeList ∧ prev.originAddr = span.originAddr ∧
                    prev.stop pf = span.pageAddr then
                  match pc.removeFromFreeList prevId prev with
                  | none => some (id, pc)
                  | some pc => some (prevId, pc.absorb pf prevId id span)
                else some (id, pc)

/-- `deallocateSpan`, its end: a span that is all of its mapping is given up
when there are enough free pages without it. -/
def keepSpan (pc : PageCache) (id : SpanId) : Option PageCache :=
  match pc.spans.get id with
  | none => none
  | some span =>
      if span.Whole ∧ maxCachedPages pf < pc.cachedFreePages + span.numPages then
        some (pc.releaseOrigin pf id span)
      else some (pc.listSpan id span)

/-- `deallocateSpan`. -/
def deallocateSpan (pc : PageCache) (id : SpanId) : Option PageCache :=
  match pc.spans.get id with
  | none => none
  | some span =>
      let cleared := { pc with spans := pc.spans.modify id Span.cleared }
      if span.isLarge ∧ span.Whole then some (cleared.releaseOrigin pf id span.cleared)
      else
        (cleared.mergeNext pf id).bind fun pc =>
          (pc.mergePrev pf id).bind fun (id, pc) => pc.keepSpan pf id

end PageCache

end Gpuforge.Kama

import Gpuforge.BoundedLoop
import Gpuforge.CallOutcome

/-!
# The paged key-value cache (`memory.hpp`, `memory.cpp`)

`PagedKV` owns a fixed table of pages and hands them out in two ways:
`acquire` gives a raw page id to the caller, and `append` claims pages for a
sequence and copies bytes into them.  A page is found free by a first-fit scan
of the `allocated` flags in both cases; `release` and `release_sequence` give
pages back.  The object keeps no owner with a page.

Page ids are C++ `int`s, obtained from table indices by a narrowing
conversion.  Vectors are lists, and their growth is assumed to succeed, apart
from the page buffers: the constructor allocates `pages` distinct arrays of
`page_bytes` bytes, which cannot succeed when they exceed the address space.
-/

namespace Gpuforge

open BoundedLoop

/-- `PagedKV::Page`. -/
structure Page where
  data : List UInt8
  allocated : Bool := false
  writeOffset : Nat := 0
  deriving DecidableEq, Repr

/-- A page is marked taken and rewound. -/
def Page.claim (page : Page) : Page :=
  { page with allocated := true, writeOffset := 0 }

/-- A page is marked free and rewound; its bytes stay. -/
def Page.free (page : Page) : Page :=
  { page with allocated := false, writeOffset := 0 }

/-- Copy a chunk behind the bytes already written. -/
def Page.write (page : Page) (chunk : List UInt8) : Page :=
  { page with
    data := memcpy page.data page.writeOffset chunk
    writeOffset := page.writeOffset + chunk.length }

structure PagedKV where
  pageTokens : Nat
  pageBytes : Nat
  pages : List Page
  sequences : List (List Int)
  sequenceBytes : List Nat
  deriving DecidableEq, Repr

/-- The subscript `pages_[id]` with an `int` id: a negative id converts to an
index no table has. -/
def pageAt (pages : List Page) (id : Int) : Option Page :=
  if 0 ≤ id then pages[id.toNat]? else none

/-- Update the page with this id, if there is one. -/
def updatePage (pages : List Page) (id : Int) (f : Page → Page) : List Page :=
  if 0 ≤ id then pages.modify id.toNat f else pages

/-- The argument `(d, n)` of `append`: a null pointer with a length, or a
pointer to exactly `n` readable bytes. -/
inductive Source where
  | null (n : Nat)
  | buffer (bytes : List UInt8)
  deriving DecidableEq, Repr

/-- The length argument. -/
def Source.size : Source → Nat
  | .null n => n
  | .buffer bytes => bytes.length

/-- `PagedKV::Location`. -/
structure Location where
  page : Int := -1
  offset : Nat := 0
  valid : Bool := false
  deriving DecidableEq, Repr

namespace PagedKV

/-- The constructor (`layers` is unused in the source). -/
def construct (t b p : Nat) : Except Exn PagedKV :=
  if t = 0 ∨ b = 0 ∨ p = 0 then .error .invalidArgument
  -- `resize(b)` on each page: p live arrays of b bytes each
  else if 2 ^ 64 ≤ p * b then .error .badAlloc
  else .ok
    { pageTokens := t
      pageBytes := b
      pages := List.replicate p { data := List.replicate b 0 }
      sequences := []
      sequenceBytes := [] }

/-- The page list of a sequence; a sequence never mentioned has none. -/
def ids (kv : PagedKV) (s : Nat) : List Int := kv.sequences.getD s []

/-- The first-fit scan of `acquire` and `append`. -/
def firstFree (kv : PagedKV) : Option Nat :=
  kv.pages.findIdx? (fun page => !page.allocated)

/-- The count of unallocated pages taken by the preflight of `append`. -/
def freePages (kv : PagedKV) : Nat :=
  kv.pages.countP (fun page => !page.allocated)

def acquire (kv : PagedKV) : Int × PagedKV :=
  match kv.firstFree with
  | some i => (castInt i, { kv with pages := kv.pages.modify i Page.claim })
  | none => (-1, kv)

/-- Mark a page free when the id is in range. -/
def freePage (pages : List Page) (id : Int) : List Page :=
  if 0 ≤ id ∧ id.toNat < pages.length then updatePage pages id Page.free else pages

def release (kv : PagedKV) (i : Int) : PagedKV :=
  { kv with pages := freePage kv.pages i }

def releaseSequence (kv : PagedKV) (s : Nat) : PagedKV :=
  if kv.sequences.length ≤ s then kv
  else
    { kv with
      pages := (kv.ids s).foldl freePage kv.pages
      sequences := kv.sequences.set s []
      sequenceBytes :=
        if s < kv.sequenceBytes.length then kv.sequenceBytes.set s 0
        else kv.sequenceBytes }

/-- `vector::resize`, in either direction. -/
def resize {β : Type} (xs : List β) (n : Nat) (fill : β) : List β :=
  xs.take n ++ List.replicate (n - xs.length) fill

/-- Make room for sequence `s`; `s + 1` is computed in `size_t`. -/
def ensureSequence (kv : PagedKV) (s : Nat) : PagedKV :=
  if kv.sequences.length ≤ s then
    { kv with
      sequences := resize kv.sequences ((s + 1) % 2 ^ 64) []
      sequenceBytes := resize kv.sequenceBytes ((s + 1) % 2 ^ 64) 0 }
  else kv

/-- The free bytes in the last page of a sequence; `none` when the subscript
is out of range. -/
def tailFree (kv : PagedKV) (s : Nat) : Option Nat :=
  match (kv.ids s).getLast? with
  | none => some 0
  | some tail => (pageAt kv.pages tail).map fun page =>
      if page.writeOffset < kv.pageBytes then kv.pageBytes - page.writeOffset else 0

/-- Pages the preflight asks for, in `size_t` arithmetic. -/
def neededPages (kv : PagedKV) (left tailFree : Nat) : Nat :=
  if left ≤ tailFree then 0
  else (left - tailFree + kv.pageBytes - 1) % 2 ^ 64 / kv.pageBytes

/-- Claim the first free page for a sequence; the id is -1 when there is
none. -/
def claimFor (kv : PagedKV) (s : Nat) : Int × PagedKV :=
  match kv.firstFree with
  | some i =>
      (castInt i,
        { kv with
          pages := kv.pages.modify i Page.claim
          sequences := kv.sequences.set s (kv.ids s ++ [castInt i]) })
  | none => (-1, kv)

/-- The page the next chunk goes to: the tail page while it has room, else a
newly claimed one; `none` when the tail subscript is out of range. -/
def writablePage (kv : PagedKV) (s : Nat) : Option (Int × PagedKV) :=
  let id := (kv.ids s).getLastD (-1)
  if id < 0 then some (kv.claimFor s)
  else (pageAt kv.pages id).map fun page =>
    if kv.pageBytes ≤ page.writeOffset then kv.claimFor s else (id, kv)

/-- Copy a chunk to a page and advance the byte counter of the sequence. -/
def store (kv : PagedKV) (s : Nat) (id : Int) (chunk : List UInt8) : PagedKV :=
  { kv with
    pages := updatePage kv.pages id (fun page => page.write chunk)
    sequenceBytes := kv.sequenceBytes.set s
      ((kv.sequenceBytes.getD s 0 + chunk.length) % 2 ^ 64) }

/-- One turn of the copy loop `while (left)`. -/
def appendTurn (s : Nat) :
    PagedKV × List UInt8 → Turn (PagedKV × List UInt8) (Outcome PagedKV)
  | (kv, left) =>
    if left = [] then .leave (.returned kv)
    else
      match kv.writablePage s with
      | none => .leave .undefined
      | some (id, kv') =>
          if id < 0 then .leave (.threw .badAlloc kv')
          else
            match pageAt kv'.pages id with
            | none => .leave .undefined
            | some page =>
                let c := min left.length (kv'.pageBytes - page.writeOffset)
                .again (kv'.store s id (left.take c), left.drop c)

/-- The copy loop.  Every turn uses up a byte or a free page. -/
def appendLoop (kv : PagedKV) (s : Nat) (data : List UInt8) : Outcome PagedKV :=
  (run (appendTurn s) (data.length + kv.freePages + 1) (kv, data)).getD .diverged

/-- `append` behind the null check and the growth of the tables. -/
def appendReady (kv : PagedKV) (s : Nat) (data : List UInt8) : Outcome PagedKV :=
  if kv.sequences.length ≤ s then .undefined
  else
    match kv.tailFree s with
    | none => .undefined
    | some tailFree =>
        if kv.freePages < kv.neededPages data.length tailFree then .threw .badAlloc kv
        else kv.appendLoop s data

def append (kv : PagedKV) (s : Nat) : Source → Outcome PagedKV
  | .null n =>
      if n ≠ 0 then .threw .invalidArgument kv
      else (kv.ensureSequence s).appendReady s []
  | .buffer data => (kv.ensureSequence s).appendReady s data

def bytes (kv : PagedKV) (s : Nat) : Nat :=
  if s < kv.sequenceBytes.length then kv.sequenceBytes.getD s 0 else 0

def resident (kv : PagedKV) (s : Nat) : Nat :=
  if s < kv.sequences.length then (kv.ids s).length else 0

def locate (kv : PagedKV) (s off : Nat) : Outcome Location :=
  if kv.sequenceBytes.length ≤ s ∨ kv.sequenceBytes.getD s 0 ≤ off then .returned {}
  else
    match (kv.ids s)[off / kv.pageBytes]? with
    | none => .returned {}
    | some id =>
        match pageAt kv.pages id with
        | none => .undefined
        | some page => .returned ⟨id, off % kv.pageBytes, page.allocated⟩

/-- One turn of the loop `while (copied < n)` of `read`; the state is the
count and the output buffer. -/
def readTurn (kv : PagedKV) (s off n : Nat) :
    Nat × List UInt8 → Turn (Nat × List UInt8) (Outcome (Nat × List UInt8))
  | (copied, dst) =>
    if copied < n then
      match (kv.ids s)[(off + copied) / kv.pageBytes]? with
      | none => .leave (.returned (copied, dst))
      | some id =>
          match pageAt kv.pages id with
          | none => .leave .undefined
          | some page =>
              let pageOffset := (off + copied) % kv.pageBytes
              let chunk := min (n - copied) (kv.pageBytes - pageOffset)
              .again (copied + chunk,
                memcpy dst copied ((page.data.drop pageOffset).take chunk))
    else .leave (.returned (copied, dst))

/-- `read` returns the count and the contents of the output buffer; a null
`out` is `none`. -/
def read (kv : PagedKV) (s off : Nat) (out : Option (List UInt8)) (n : Nat) :
    Outcome (Nat × List UInt8) :=
  match out with
  | none => .returned (0, [])
  | some dst =>
      if n = 0 then .returned (0, dst)
      else if kv.sequenceBytes.length ≤ s ∨ kv.sequenceBytes.getD s 0 ≤ off then
        .returned (0, dst)
      else
        let n' := min n (kv.sequenceBytes.getD s 0 - off)
        (run (kv.readTurn s off n') (n' + 1) (0, dst)).getD .diverged

/-- The calls that change a cache. -/
inductive Op where
  | acquire
  | release (i : Int)
  | append (s : Nat) (src : Source)
  | releaseSequence (s : Nat)
  deriving DecidableEq, Repr

end PagedKV

end Gpuforge

import Gpuforge.CacheSession
import Gpuforge.DenseBlocks

/-!
# The representation of sequences by pages

The bytes of a sequence are what its pages hold up to their write offsets,
in list order.  `Packed` ties the cache to the session around it: the pages of
every sequence are dense blocks, the byte counter is their total, the
concatenation is the session's log, and every allocated page is held or
listed.  Callers that release only what they hold keep it:

* a write behind the tail and a write to a claimed page each append a chunk
  to one log and touch nothing else (`Packed.extendTail`, `Packed.pushPage`);
* the copy loop therefore appends the whole buffer whenever the tail and the
  free pages have room for it (`Packed.appendLoop`).
-/

namespace Gpuforge

open BoundedLoop LabelledRun ListTable DenseBlocks

/-- The bytes written to a page. -/
def stored (pages : List Page) (id : Int) : List UInt8 :=
  match pageAt pages id with
  | none => []
  | some page => page.data.take page.writeOffset

/-- The bytes of a page that exists. -/
theorem stored_of_pageAt {pages : List Page} {id : Int} {page : Page}
    (h : pageAt pages id = some page) :
    stored pages id = page.data.take page.writeOffset := by
  simp [stored, h]

/-- The bytes stored under an id depend on its page only. -/
theorem stored_congr {pages pages' : List Page} {id : Int}
    (h : pageAt pages' id = pageAt pages id) : stored pages' id = stored pages id := by
  simp [stored, h]

namespace PagedKV

/-- The bytes of a sequence, page by page. -/
def blocks (kv : PagedKV) (s : Nat) : List (List UInt8) :=
  (kv.ids s).map (stored kv.pages)

/-- The free bytes in the last page of a sequence, 0 when it has no page. -/
def tailSlack (kv : PagedKV) (s : Nat) : Nat :=
  match (kv.ids s).getLast? with
  | none => 0
  | some id =>
      match pageAt kv.pages id with
      | none => 0
      | some page => kv.pageBytes - page.writeOffset

/-- The representation invariant of a cache within its session. -/
structure Packed (kv : PagedKV) (held : List Int) (log : Nat → List UInt8) : Prop
    extends Exclusive kv held where
  bytesPos : 0 < kv.pageBytes
  narrow : kv.pages.length ≤ 2 ^ 31
  room : kv.pages.length * kv.pageBytes < 2 ^ 64
  sized : ∀ id page, pageAt kv.pages id = some page →
    page.data.length = kv.pageBytes ∧ page.writeOffset ≤ kv.pageBytes
  noLeak : ∀ id page, pageAt kv.pages id = some page → page.allocated = true →
    id ∈ held ++ kv.sequences.flatten
  dense : ∀ s, Dense kv.pageBytes (kv.blocks s)
  counted : ∀ s, kv.sequenceBytes.getD s 0 = (kv.blocks s).flatten.length
  logged : ∀ s, (kv.blocks s).flatten = log s

variable {kv kv' : PagedKV} {held : List Int} {log log' : Nat → List UInt8}

/-- The byte counter of a sequence, past the end of the table included. -/
theorem bytes_eq (kv : PagedKV) (s : Nat) : kv.bytes s = kv.sequenceBytes.getD s 0 := by
  unfold bytes
  split
  · rfl
  · rename_i hs
    simp [List.getD_eq_getElem?_getD, List.getElem?_eq_none (Nat.le_of_not_lt hs)]

/-- The page count of a sequence, past the end of the table included. -/
theorem resident_eq (kv : PagedKV) (s : Nat) : kv.resident s = (kv.ids s).length := by
  unfold resident
  split
  · rfl
  · rename_i hs
    simp [PagedKV.ids, List.getD_eq_getElem?_getD,
      List.getElem?_eq_none (Nat.le_of_not_lt hs)]

/-- The byte counter is the length of the log. -/
theorem Packed.bytes_log (hk : Packed kv held log) (s : Nat) :
    kv.bytes s = (log s).length := by
  rw [bytes_eq, hk.counted, hk.logged]

/-- A sequence past the end of the table has an empty log. -/
theorem Packed.log_past_end (hk : Packed kv held log) {s : Nat}
    (hs : kv.sequences.length ≤ s) : log s = [] := by
  rw [← hk.logged s, blocks, PagedKV.ids, List.getD_eq_getElem?_getD, List.getElem?_eq_none hs]
  rfl

/-- A listed page has its write offset as the length of its block. -/
theorem Packed.stored_length (hk : Packed kv held log) {id : Int} {page : Page}
    (hpage : pageAt kv.pages id = some page) :
    (stored kv.pages id).length = page.writeOffset := by
  obtain ⟨hdata, hoffset⟩ := hk.sized id page hpage
  rw [stored_of_pageAt hpage, List.length_take]
  omega

/-- The preflight reads the free bytes of the tail correctly. -/
theorem Packed.tailFree_eq (hk : Packed kv held log) (s : Nat) :
    kv.tailFree s = some (kv.tailSlack s) := by
  unfold tailFree tailSlack
  cases htail : (kv.ids s).getLast? with
  | none => rfl
  | some id =>
      obtain ⟨page, hpage, _⟩ := hk.listed (List.mem_of_getLast? htail)
      simp only [hpage, Option.map_some]
      split
      · rfl
      · rename_i hfull
        congr 1
        omega

/-- No sequence lists more pages than the table has. -/
theorem Exclusive.ids_length_le (hx : Exclusive kv held) (s : Nat) :
    (kv.ids s).length ≤ kv.pages.length := by
  have hnd : (kv.ids s).Nodup := row_nodup (List.nodup_append.mp hx.distinct).2.1 s
  have hsub : kv.ids s ⊆ (List.range kv.pages.length).map Int.ofNat := by
    intro id hid
    obtain ⟨page, hpage, _⟩ := hx.listed hid
    obtain ⟨i, rfl, hi⟩ := pageAt_eq_some hpage
    exact List.mem_map.mpr
      ⟨i, List.mem_range.mpr (List.getElem?_eq_some_iff.mp hi).1, rfl⟩
  simpa using (List.subperm_of_subset hnd hsub).length_le

/-- The bytes of a dense sequence fit in `size_t`. -/
theorem Exclusive.flatten_lt (hx : Exclusive kv held)
    (hroom : kv.pages.length * kv.pageBytes < 2 ^ 64) {s : Nat}
    (hdense : Dense kv.pageBytes (kv.blocks s)) :
    (kv.blocks s).flatten.length < 2 ^ 64 := by
  have hle := hdense.flatten_length_le
  have hlen : (kv.blocks s).length ≤ kv.pages.length := by
    simpa [blocks] using hx.ids_length_le s
  have hmul := Nat.mul_le_mul_right kv.pageBytes hlen
  omega

/-- Blocks outside the framed sequence are unchanged. -/
theorem Frame.blocks {s s' : Nat} (hframe : Frame s held kv kv') (hs' : s' ≠ s) :
    kv'.blocks s' = kv.blocks s' := by
  unfold PagedKV.blocks
  rw [hframe.ids s' hs']
  exact List.map_congr_left fun id hid =>
    stored_congr (hframe.pages id (Or.inr ⟨s', hs', hid⟩))

/-- A change framed to one sequence keeps the representation if that
sequence is dense and counted afterwards. -/
theorem Packed.of_frame (hk : Packed kv held log) {s : Nat} {held' other : List Int}
    (hx : Exclusive kv' held') (hframe : Frame s other kv kv')
    (hsized : ∀ id page, pageAt kv'.pages id = some page →
      page.data.length = kv.pageBytes ∧ page.writeOffset ≤ kv.pageBytes)
    (hleak : ∀ id page, pageAt kv'.pages id = some page → page.allocated = true →
      id ∈ held' ++ kv'.sequences.flatten)
    (hdense : Dense kv.pageBytes (kv'.blocks s))
    (hcount : kv'.sequenceBytes.getD s 0 = (kv'.blocks s).flatten.length % 2 ^ 64)
    (hlog : (kv'.blocks s).flatten = log' s)
    (hother : ∀ s', s' ≠ s → log' s' = log s') : Packed kv' held' log' := by
  have hbytes := hframe.pageBytes
  have hroom : kv'.pages.length * kv'.pageBytes < 2 ^ 64 := by
    rw [hframe.pageCount, hbytes]
    exact hk.room
  refine
    { toExclusive := hx
      bytesPos := by rw [hbytes]; exact hk.bytesPos
      narrow := by rw [hframe.pageCount]; exact hk.narrow
      room := hroom
      sized := by rw [hbytes]; exact hsized
      noLeak := hleak
      dense := fun s' => ?_
      counted := fun s' => ?_
      logged := fun s' => ?_ }
  · by_cases hs' : s' = s
    · rw [hs', hbytes]
      exact hdense
    · rw [hframe.blocks hs', hbytes]
      exact hk.dense s'
  · by_cases hs' : s' = s
    · have hlt := hx.flatten_lt hroom (hbytes ▸ hdense)
      rw [hs', hcount, Nat.mod_eq_of_lt hlt]
    · rw [hframe.blocks hs', hframe.counts s' hs']
      exact hk.counted s'
  · by_cases hs' : s' = s
    · rw [hs']
      exact hlog
    · rw [hframe.blocks hs', hother s' hs']
      exact hk.logged s'

/-- A change that touches no listed page and no sequence table keeps the
representation. -/
theorem Packed.of_listed (hk : Packed kv held log) {held' : List Int}
    (hx : Exclusive kv' held') (hbytes : kv'.pageBytes = kv.pageBytes)
    (hcount : kv'.pages.length = kv.pages.length)
    (hids : ∀ s, kv'.ids s = kv.ids s)
    (hcounts : ∀ s, kv'.sequenceBytes.getD s 0 = kv.sequenceBytes.getD s 0)
    (hpages : ∀ s, ∀ id ∈ kv.ids s, pageAt kv'.pages id = pageAt kv.pages id)
    (hsized : ∀ id page, pageAt kv'.pages id = some page →
      page.data.length = kv.pageBytes ∧ page.writeOffset ≤ kv.pageBytes)
    (hleak : ∀ id page, pageAt kv'.pages id = some page → page.allocated = true →
      id ∈ held' ++ kv'.sequences.flatten) : Packed kv' held' log := by
  have hframe : Frame 0 [] kv kv' := by
    refine ⟨hbytes, hcount, fun s _ => hids s, fun s _ => hcounts s, ?_⟩
    rintro id (hnone | ⟨s, _, hid⟩)
    · simp at hnone
    · exact hpages s id hid
  have hblocks : kv'.blocks 0 = kv.blocks 0 := by
    rw [blocks, hids]
    exact List.map_congr_left fun id hid => stored_congr (hpages 0 id hid)
  refine hk.of_frame hx hframe hsized hleak ?_ ?_ ?_ (fun _ _ => rfl)
  · rw [hblocks]
    exact hk.dense 0
  · rw [hblocks, hcounts, hk.counted,
      Nat.mod_eq_of_lt (hk.flatten_lt hk.room (hk.dense 0))]
  · rw [hblocks]
    exact hk.logged 0

/-- A page with room that takes a chunk holds its old bytes and the chunk. -/
theorem stored_updatePage_write {pages : List Page} {id : Int} {page : Page}
    (chunk : List UInt8) (hpage : pageAt pages id = some page)
    (hoffset : page.writeOffset ≤ page.data.length) :
    stored (updatePage pages id (fun page => page.write chunk)) id =
      stored pages id ++ chunk := by
  have hnew : pageAt (updatePage pages id (fun page => page.write chunk)) id =
      some (page.write chunk) := by
    rw [pageAt_updatePage, if_pos rfl, hpage]
    rfl
  rw [stored_of_pageAt hnew, stored_of_pageAt hpage]
  exact take_memcpy hoffset

/-- What a page of the table can be after a fitting chunk has been stored. -/
theorem Packed.sized_store (hk : Packed kv held log) {s : Nat} {id : Int} {page : Page}
    {chunk : List UInt8} (hpage : pageAt kv.pages id = some page)
    (hfit : page.writeOffset + chunk.length ≤ kv.pageBytes) :
    ∀ id' page', pageAt (kv.store s id chunk).pages id' = some page' →
      page'.data.length = kv.pageBytes ∧ page'.writeOffset ≤ kv.pageBytes := by
  intro id' page' hpage'
  rw [PagedKV.store, pageAt_updatePage] at hpage'
  split at hpage'
  · rename_i heq
    subst heq
    rw [hpage] at hpage'
    cases hpage'
    obtain ⟨hdata, _⟩ := hk.sized id page hpage
    exact ⟨(memcpy_length (by omega)).trans hdata, hfit⟩
  · exact hk.sized id' page' hpage'

/-- The byte counter after a chunk has been stored, in `size_t`. -/
theorem count_store (kv : PagedKV) {s : Nat} (id : Int) (chunk : List UInt8)
    (hs : s < kv.sequenceBytes.length) :
    (kv.store s id chunk).sequenceBytes.getD s 0 =
      (kv.sequenceBytes.getD s 0 + chunk.length) % 2 ^ 64 := by
  simp [PagedKV.store, List.getD_eq_getElem?_getD, hs]

/-- A write changes no allocation, so no page gets lost. -/
theorem allocated_store {s : Nat} {id id' : Int} {chunk : List UInt8} {page' : Page}
    (hpage' : pageAt (kv.store s id chunk).pages id' = some page')
    (halloc : page'.allocated = true) :
    ∃ page, pageAt kv.pages id' = some page ∧ page.allocated = true := by
  rw [PagedKV.store, pageAt_updatePage] at hpage'
  split at hpage'
  · obtain ⟨page, hpage, rfl⟩ := Option.map_eq_some_iff.mp hpage'
    exact ⟨page, hpage, halloc⟩
  · exact ⟨page', hpage', halloc⟩

/-- A write behind the tail makes the last block longer. -/
theorem Packed.blocks_extended (hk : Packed kv held log) {s : Nat} {init : List Int} {id : Int}
    {page : Page} {chunk : List UInt8} (hids : kv.ids s = init ++ [id])
    (hpage : pageAt kv.pages id = some page) :
    (kv.store s id chunk).blocks s =
      init.map (stored kv.pages) ++ [stored kv.pages id ++ chunk] := by
  have hnd : (init ++ [id]).Nodup := by
    rw [← hids]
    exact row_nodup (List.nodup_append.mp hk.distinct).2.1 s
  have hids' : (kv.store s id chunk).ids s = init ++ [id] := hids
  have hinit : init.map (stored (kv.store s id chunk).pages) = init.map (stored kv.pages) := by
    refine List.map_congr_left fun id' hid' => stored_congr ?_
    have hne : id ≠ id' := by
      rintro rfl
      exact (List.nodup_append.mp hnd).2.2 id hid' id (by simp) rfl
    rw [PagedKV.store, pageAt_updatePage, if_neg hne]
  obtain ⟨hdata, hoffset⟩ := hk.sized id page hpage
  have hlast := stored_updatePage_write chunk hpage (by omega)
  rw [blocks, hids', List.map_append, hinit, List.map_singleton]
  exact congrArg (fun block => _ ++ [block]) hlast

/-- **Writing behind the tail.**  A chunk that fits in the tail page is
appended to the log of the sequence. -/
theorem Packed.extendTail (hk : Packed kv held log) {s : Nat} {id : Int} {page : Page}
    {chunk : List UInt8} (hs : s < kv.sequences.length)
    (htail : (kv.ids s).getLast? = some id) (hpage : pageAt kv.pages id = some page)
    (hfit : page.writeOffset + chunk.length ≤ kv.pageBytes) :
    Packed (kv.store s id chunk) held (extendLog log s chunk) := by
  obtain ⟨init, hids⟩ := List.getLast?_eq_some_iff.mp htail
  have hold : kv.blocks s = init.map (stored kv.pages) ++ [stored kv.pages id] := by
    simp [blocks, hids]
  have hnew : (kv.store s id chunk).blocks s =
      init.map (stored kv.pages) ++ [stored kv.pages id ++ chunk] :=
    hk.blocks_extended hids hpage
  have hdense := hk.dense s
  rw [hold] at hdense
  obtain ⟨hfull, hpos, _⟩ := dense_concat_iff.mp hdense
  have hflat : ((kv.store s id chunk).blocks s).flatten = (kv.blocks s).flatten ++ chunk := by
    simp [hnew, hold]
  have hdense' : Dense kv.pageBytes ((kv.store s id chunk).blocks s) := by
    rw [hnew]
    refine dense_concat_iff.mpr ⟨hfull, ?_, ?_⟩
    · rw [List.length_append]
      omega
    · rw [List.length_append, hk.stored_length hpage]
      exact hfit
  refine hk.of_frame (hk.toExclusive.store s id chunk)
    (hk.store_frame (List.mem_of_getLast? htail) chunk) (hk.sized_store hpage hfit) ?_ hdense'
    ?_ ?_ ?_
  · intro id' page' hpage' halloc
    obtain ⟨old, hold', halloc'⟩ := allocated_store hpage' halloc
    exact hk.noLeak id' old hold' halloc'
  · rw [count_store kv id chunk (by rw [hk.aligned]; exact hs), hk.counted, hflat,
      List.length_append]
  · rw [hflat, hk.logged, extendLog, if_pos rfl]
  · intro s' hs'
    rw [extendLog, if_neg hs']

/-- The blocks of a sequence, with the last page apart. -/
theorem Packed.split_last (hk : Packed kv held log) {s : Nat} (hne : kv.ids s ≠ []) :
    ∃ init id page, kv.ids s = init ++ [id] ∧ pageAt kv.pages id = some page ∧
      kv.blocks s = init.map (stored kv.pages) ++ [stored kv.pages id] ∧
      Dense kv.pageBytes (init.map (stored kv.pages) ++ [stored kv.pages id]) := by
  obtain ⟨init, id, hids⟩ : ∃ init id, kv.ids s = init ++ [id] :=
    ⟨_, _, (List.dropLast_append_getLast hne).symm⟩
  obtain ⟨page, hpage, _⟩ := hk.listed (show id ∈ kv.ids s by simp [hids])
  have hblocks : kv.blocks s = init.map (stored kv.pages) ++ [stored kv.pages id] := by
    simp [blocks, hids]
  exact ⟨init, id, page, hids, hpage, hblocks, hblocks ▸ hk.dense s⟩

/-- With a full tail, every page of the sequence is full. -/
theorem Packed.full_of_tailFull (hk : Packed kv held log) {s : Nat}
    (hfull : TailFull kv s) : ∀ block ∈ kv.blocks s, block.length = kv.pageBytes := by
  by_cases hne : kv.ids s = []
  · simp [blocks, hne]
  · obtain ⟨init, id, page, hids, hpage, hblocks, hdense⟩ := hk.split_last hne
    obtain ⟨hinit, _, hle⟩ := dense_concat_iff.mp hdense
    have hge : kv.pageBytes ≤ page.writeOffset := hfull id (by simp [hids]) page hpage
    have hlast : (stored kv.pages id).length = kv.pageBytes := by
      rw [hk.stored_length hpage] at hle ⊢
      omega
    rw [hblocks]
    intro block hblock
    rcases List.mem_append.mp hblock with hin | hin
    · exact hinit block hin
    · rw [List.mem_singleton.mp hin]
      exact hlast

/-- Opening a page leaves the other pages alone. -/
theorem pageAt_opened (kv : PagedKV) (s i : Nat) (chunk : List UInt8) {id : Int}
    (hne : id ≠ (i : Int)) :
    pageAt ((kv.claimed s i).store s i chunk).pages id = pageAt kv.pages id := by
  have hpages : (kv.claimed s i).pages = updatePage kv.pages (i : Int) Page.claim := by
    simp [PagedKV.claimed]
  rw [PagedKV.store, pageAt_updatePage, if_neg hne.symm, hpages, pageAt_updatePage,
    if_neg hne.symm]

/-- The page just claimed. -/
theorem pageAt_claimed {s i : Nat} {page : Page} (hpage : kv.pages[i]? = some page) :
    pageAt (kv.claimed s i).pages (i : Int) = some page.claim := by
  simp [PagedKV.claimed, hpage]

/-- Opening a page adds the chunk as a block. -/
theorem Packed.blocks_opened (hk : Packed kv held log) {s i : Nat} {page : Page}
    {chunk : List UInt8} (hs : s < kv.sequences.length) (hpage : kv.pages[i]? = some page)
    (hfree : page.allocated = false) :
    ((kv.claimed s i).store s i chunk).blocks s = kv.blocks s ++ [chunk] := by
  have hids : ((kv.claimed s i).store s i chunk).ids s = kv.ids s ++ [(i : Int)] :=
    row_set_self hs
  have hold : (kv.ids s).map (stored ((kv.claimed s i).store s i chunk).pages) =
      kv.blocks s := by
    refine List.map_congr_left fun id hid => stored_congr (pageAt_opened kv s i chunk ?_)
    rintro rfl
    exact hk.free_unowned hpage hfree
      (List.mem_append_right _ (mem_flatten_of_mem_ids hid))
  have hlast : stored ((kv.claimed s i).store s i chunk).pages (i : Int) = chunk := by
    have hclaimed := pageAt_claimed (s := s) hpage
    have hwrite := stored_updatePage_write chunk hclaimed (Nat.zero_le _)
    rw [stored_of_pageAt hclaimed] at hwrite
    exact hwrite.trans (by simp [Page.claim])
  rw [blocks, hids, List.map_append, hold, List.map_singleton, hlast]

/-- **Opening a page.**  A chunk written to a newly claimed page behind full
ones is appended to the log of the sequence. -/
theorem Packed.pushPage (hk : Packed kv held log) {s i : Nat} {page : Page}
    {chunk : List UInt8} (hs : s < kv.sequences.length) (hfull : TailFull kv s)
    (hpage : kv.pages[i]? = some page) (hfree : page.allocated = false)
    (hpos : 0 < chunk.length) (hfit : chunk.length ≤ kv.pageBytes) :
    Packed ((kv.claimed s i).store s i chunk) held (extendLog log s chunk) := by
  have hx := hk.toExclusive.claimed hs hpage hfree
  have hids : (kv.claimed s i).ids s = kv.ids s ++ [(i : Int)] := row_set_self hs
  have hframe : Frame s held kv ((kv.claimed s i).store s i chunk) :=
    (hk.claimed_frame hpage hfree).trans (hx.store_frame (by simp [hids]) chunk)
  have hnew : ((kv.claimed s i).store s i chunk).blocks s = kv.blocks s ++ [chunk] :=
    hk.blocks_opened hs hpage hfree
  have hflat : (((kv.claimed s i).store s i chunk).blocks s).flatten =
      (kv.blocks s).flatten ++ chunk := by
    simp [hnew]
  have hsized := hk.sized i page (by simpa using hpage)
  apply hk.of_frame (hx.store s i chunk) hframe
  · intro id page' hpage'
    by_cases hid : id = (i : Int)
    · subst hid
      rw [PagedKV.store, pageAt_updatePage, if_pos rfl, pageAt_claimed hpage] at hpage'
      cases hpage'
      exact ⟨(memcpy_length (by simpa [Page.claim, hsized.1] using hfit)).trans hsized.1,
        by simpa [Page.write, Page.claim] using hfit⟩
    · rw [pageAt_opened kv s i chunk hid] at hpage'
      exact hk.sized id page' hpage'
  · intro id page' hpage' halloc
    have hperm : (held ++ (kv.claimed s i).sequences.flatten).Perm
        ((i : Int) :: (held ++ kv.sequences.flatten)) :=
      ((flatten_push_perm (i : Int) hs).append_left held).trans List.perm_middle
    apply hperm.symm.subset
    by_cases hid : id = (i : Int)
    · exact hid ▸ List.mem_cons_self
    · rw [pageAt_opened kv s i chunk hid] at hpage'
      exact List.mem_cons_of_mem _ (hk.noLeak id page' hpage' halloc)
  · rw [hnew]
    exact dense_concat_iff.mpr ⟨hk.full_of_tailFull hfull, hpos, hfit⟩
  · have hcount := count_store (kv.claimed s i) (i : Int) chunk
      (show s < kv.sequenceBytes.length by rw [hk.aligned]; exact hs)
    rw [hcount, hflat, List.length_append]
    exact congrArg (fun n => (n + chunk.length) % 2 ^ 64) (hk.counted s)
  · rw [hflat, hk.logged, extendLog, if_pos rfl]
  · intro s' hs'
    rw [extendLog, if_neg hs']

end PagedKV

end Gpuforge

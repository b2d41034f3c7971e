import Gpuforge.LabelledRun
import Gpuforge.ListTable
import Gpuforge.PagedKv

/-!
# Exclusive page ownership

A page id is in one of three places: held by a caller of `acquire`, listed by
one sequence, or free.  `Exclusive` says that the first two never overlap and
that both only contain allocated pages.  Every operation keeps it, as long as
the raw `release` is not used on a page that a sequence still lists; that
exception is real, since `release` frees the page and leaves the list.
-/

namespace Gpuforge

open BoundedLoop LabelledRun ListTable

/-! ## Page subscripts -/

@[simp] theorem pageAt_natCast (pages : List Page) (i : Nat) :
    pageAt pages (i : Int) = pages[i]? := by
  simp [pageAt]

@[simp] theorem updatePage_natCast (pages : List Page) (i : Nat) (f : Page → Page) :
    updatePage pages (i : Int) f = pages.modify i f := by
  simp [updatePage]

@[simp] theorem length_updatePage (pages : List Page) (id : Int) (f : Page → Page) :
    (updatePage pages id f).length = pages.length := by
  unfold updatePage
  split <;> simp

/-- An update is seen at its own id and nowhere else. -/
theorem pageAt_updatePage (pages : List Page) (id id' : Int) (f : Page → Page) :
    pageAt (updatePage pages id f) id' =
      if id = id' then (pageAt pages id').map f else pageAt pages id' := by
  by_cases h : 0 ≤ id <;> by_cases h' : 0 ≤ id'
  · have heq : id.toNat = id'.toNat ↔ id = id' := by omega
    simp only [pageAt, updatePage, if_pos h, if_pos h', List.getElem?_modify, heq]
    split <;> simp
  · have hne : id ≠ id' := by omega
    simp [pageAt, h', hne]
  · simp [updatePage, h, pageAt, h']
    intro heq
    omega
  · simp [pageAt, h']

/-- An id with a page is a table index. -/
theorem pageAt_eq_some {pages : List Page} {id : Int} {page : Page}
    (h : pageAt pages id = some page) : ∃ i : Nat, id = i ∧ pages[i]? = some page := by
  unfold pageAt at h
  split at h
  · exact ⟨id.toNat, by omega, h⟩
  · cases h

@[simp] theorem length_freePage (pages : List Page) (id : Int) :
    (PagedKV.freePage pages id).length = pages.length := by
  unfold PagedKV.freePage
  split <;> simp

/-- Freeing an id is seen at that id and nowhere else. -/
theorem pageAt_freePage (pages : List Page) (id id' : Int) :
    pageAt (PagedKV.freePage pages id) id' =
      if id = id' then (pageAt pages id').map Page.free else pageAt pages id' := by
  unfold PagedKV.freePage
  split
  · exact pageAt_updatePage pages id id' Page.free
  · rename_i hout
    split
    · rename_i heq
      subst heq
      have hnone : pageAt pages id = none := by
        unfold pageAt
        split
        · simp only [List.getElem?_eq_none_iff]
          omega
        · rfl
      simp [hnone]
    · rfl

/-- Freeing a list of ids is seen at those ids and nowhere else. -/
theorem pageAt_foldl_freePage (ids : List Int) (pages : List Page) (id : Int) :
    pageAt (ids.foldl PagedKV.freePage pages) id =
      if id ∈ ids then (pageAt pages id).map Page.free else pageAt pages id := by
  induction ids generalizing pages with
  | nil => simp
  | cons a rest ih =>
      rw [List.foldl_cons, ih, pageAt_freePage]
      by_cases ha : a = id
      · subst ha
        cases pageAt pages a <;> simp [Page.free]
      · have hmem : id ∈ a :: rest ↔ id ∈ rest := by
          simp [Ne.symm ha]
        simp [if_neg ha, hmem]

@[simp] theorem length_foldl_freePage (ids : List Int) (pages : List Page) :
    (ids.foldl PagedKV.freePage pages).length = pages.length := by
  induction ids generalizing pages with
  | nil => rfl
  | cons a rest ih => simp [ih]

namespace PagedKV

/-- The first-fit scan finds a page that is not allocated. -/
theorem firstFree_some {kv : PagedKV} {i : Nat} (h : kv.firstFree = some i) :
    ∃ page, kv.pages[i]? = some page ∧ page.allocated = false := by
  obtain ⟨hi, hfree, _⟩ := List.findIdx?_eq_some_iff_getElem.mp h
  exact ⟨kv.pages[i], List.getElem?_eq_getElem hi, by simpa using hfree⟩

/-- The scan fails exactly when the free count is zero. -/
theorem firstFree_none {kv : PagedKV} : kv.firstFree = none ↔ kv.freePages = 0 := by
  simp [firstFree, freePages, List.findIdx?_eq_none_iff, List.countP_eq_zero]

/-- The state after page `i` has been claimed for sequence `s`. -/
def claimed (kv : PagedKV) (s i : Nat) : PagedKV :=
  { kv with
    pages := kv.pages.modify i Page.claim
    sequences := kv.sequences.set s (kv.ids s ++ [(i : Int)]) }

/-- What claiming a page can do: take a free page of the table, or find none. -/
theorem claimFor_cases {kv : PagedKV} (hsmall : kv.pages.length ≤ 2 ^ 31) (s : Nat) :
    (∃ (i : Nat) (page : Page), kv.pages[i]? = some page ∧ page.allocated = false ∧
      kv.claimFor s = ((i : Int), kv.claimed s i)) ∨
    (kv.freePages = 0 ∧ kv.claimFor s = (-1, kv)) := by
  cases hfirst : kv.firstFree with
  | none => exact Or.inr ⟨firstFree_none.mp hfirst, by simp [claimFor, hfirst]⟩
  | some i =>
      obtain ⟨page, hpage, hfree⟩ := firstFree_some hfirst
      have hi : i < kv.pages.length := (List.getElem?_eq_some_iff.mp hpage).1
      have hcast : castInt i = i := castInt_of_lt (by omega)
      exact Or.inl ⟨i, page, hpage, hfree, by simp [claimFor, hfirst, hcast, claimed]⟩

/-! ## The ownership invariant -/

/-- Held and listed ids are pairwise distinct, and all their pages are
allocated; the two sequence tables have one length. -/
structure Exclusive (kv : PagedKV) (held : List Int) : Prop where
  aligned : kv.sequenceBytes.length = kv.sequences.length
  distinct : (held ++ kv.sequences.flatten).Nodup
  live : ∀ id ∈ held ++ kv.sequences.flatten,
    ∃ page, pageAt kv.pages id = some page ∧ page.allocated = true

variable {kv : PagedKV} {held : List Int}

/-- An id of some sequence is in the concatenated lists. -/
theorem mem_flatten_of_mem_ids {s : Nat} {id : Int} (h : id ∈ kv.ids s) :
    id ∈ kv.sequences.flatten :=
  mem_flatten_iff.mpr ⟨s, h⟩

/-- A listed page is allocated. -/
theorem Exclusive.listed (hx : Exclusive kv held) {s : Nat} {id : Int}
    (h : id ∈ kv.ids s) : ∃ page, pageAt kv.pages id = some page ∧ page.allocated = true :=
  hx.live id (List.mem_append_right _ (mem_flatten_of_mem_ids h))

/-- A page that is not allocated belongs to nobody. -/
theorem Exclusive.free_unowned (hx : Exclusive kv held) {i : Nat} {page : Page}
    (hpage : kv.pages[i]? = some page) (hfree : page.allocated = false) :
    (i : Int) ∉ held ++ kv.sequences.flatten := by
  intro hmem
  obtain ⟨other, hother, halloc⟩ := hx.live _ hmem
  rw [pageAt_natCast, hpage] at hother
  cases hother
  rw [hfree] at halloc
  cases halloc

/-- A fresh object owns nothing. -/
theorem construct_exclusive {t b p : Nat} {kv : PagedKV}
    (h : construct t b p = .ok kv) : Exclusive kv [] := by
  unfold construct at h
  split at h
  · cases h
  · split at h
    · cases h
    · cases h
      exact ⟨rfl, by simp, by simp⟩

/-- Claiming a free page for a sequence keeps ownership exclusive. -/
theorem Exclusive.claimed (hx : Exclusive kv held) {s i : Nat} {page : Page}
    (hs : s < kv.sequences.length) (hpage : kv.pages[i]? = some page)
    (hfree : page.allocated = false) : Exclusive (kv.claimed s i) held := by
  have hunowned := hx.free_unowned hpage hfree
  have hperm : (held ++ (kv.claimed s i).sequences.flatten).Perm
      ((i : Int) :: (held ++ kv.sequences.flatten)) :=
    ((flatten_push_perm (i : Int) hs).append_left held).trans List.perm_middle
  refine ⟨by simpa [PagedKV.claimed] using hx.aligned,
    hperm.nodup_iff.mpr (List.nodup_cons.mpr ⟨hunowned, hx.distinct⟩), ?_⟩
  · intro id hid
    have hpages : (kv.claimed s i).pages = updatePage kv.pages (i : Int) Page.claim := by
      simp [PagedKV.claimed]
    rw [hpages, pageAt_updatePage]
    rcases List.mem_cons.mp (hperm.mem_iff.mp hid) with rfl | hold
    · exact ⟨page.claim, by simp [hpage], rfl⟩
    · have hne : (i : Int) ≠ id := fun heq => hunowned (heq ▸ hold)
      rw [if_neg hne]
      exact hx.live id hold

/-- Writing to a page does not touch ownership. -/
theorem Exclusive.store (hx : Exclusive kv held) (s : Nat) (id : Int)
    (chunk : List UInt8) : Exclusive (kv.store s id chunk) held := by
  refine ⟨by simpa [PagedKV.store] using hx.aligned, hx.distinct, ?_⟩
  intro id' hid'
  obtain ⟨page, hpage, halloc⟩ := hx.live id' hid'
  by_cases heq : id = id'
  · refine ⟨page.write chunk, ?_, halloc⟩
    rw [PagedKV.store, pageAt_updatePage, if_pos heq, hpage]
    rfl
  · refine ⟨page, ?_, halloc⟩
    rw [PagedKV.store, pageAt_updatePage, if_neg heq, hpage]

@[simp] theorem length_resize {β : Type} (xs : List β) (n : Nat) (fill : β) :
    (resize xs n fill).length = n := by
  simp only [resize, List.length_append, List.length_take, List.length_replicate]
  omega

/-- Growing the tables does not touch ownership. -/
theorem Exclusive.ensureSequence (hx : Exclusive kv held) (s : Nat) :
    Exclusive (kv.ensureSequence s) held := by
  unfold PagedKV.ensureSequence
  split
  · have hsub : (resize kv.sequences ((s + 1) % 2 ^ 64) []).flatten.Sublist
        kv.sequences.flatten := by
      rw [resize, List.flatten_append, List.flatten_replicate_nil, List.append_nil]
      exact flatten_take_sublist _ _
    refine ⟨by simp, hx.distinct.sublist (hsub.append_left held), ?_⟩
    intro id hid
    exact hx.live id ((hsub.append_left held).subset hid)
  · exact hx

/-! ## What `append` leaves alone -/

/-- `kv'` differs from `kv` only in the list and counter of sequence `s` and
in pages that neither a held id nor another sequence names. -/
structure Frame (s : Nat) (held : List Int) (kv kv' : PagedKV) : Prop where
  pageBytes : kv'.pageBytes = kv.pageBytes
  pageCount : kv'.pages.length = kv.pages.length
  ids : ∀ s', s' ≠ s → kv'.ids s' = kv.ids s'
  counts : ∀ s', s' ≠ s → kv'.sequenceBytes.getD s' 0 = kv.sequenceBytes.getD s' 0
  pages : ∀ id, (id ∈ held ∨ ∃ s', s' ≠ s ∧ id ∈ kv.ids s') →
    pageAt kv'.pages id = pageAt kv.pages id

theorem Frame.refl (s : Nat) (held : List Int) (kv : PagedKV) : Frame s held kv kv :=
  ⟨rfl, rfl, fun _ _ => rfl, fun _ _ => rfl, fun _ _ => rfl⟩

theorem Frame.trans {s : Nat} {kv₁ kv₂ kv₃ : PagedKV}
    (h₁ : Frame s held kv₁ kv₂) (h₂ : Frame s held kv₂ kv₃) : Frame s held kv₁ kv₃ := by
  refine ⟨h₂.pageBytes.trans h₁.pageBytes, h₂.pageCount.trans h₁.pageCount,
    fun s' hs' => (h₂.ids s' hs').trans (h₁.ids s' hs'),
    fun s' hs' => (h₂.counts s' hs').trans (h₁.counts s' hs'), ?_⟩
  intro id hid
  have hid₂ : id ∈ held ∨ ∃ s', s' ≠ s ∧ id ∈ kv₂.ids s' := by
    rcases hid with hheld | ⟨s', hs', hmem⟩
    · exact Or.inl hheld
    · exact Or.inr ⟨s', hs', by rw [h₁.ids s' hs']; exact hmem⟩
  exact (h₂.pages id hid₂).trans (h₁.pages id hid)

/-- Claiming a free page disturbs no owner. -/
theorem Exclusive.claimed_frame (hx : Exclusive kv held) {s i : Nat} {page : Page}
    (hpage : kv.pages[i]? = some page) (hfree : page.allocated = false) :
    Frame s held kv (kv.claimed s i) := by
  refine ⟨rfl, by simp [PagedKV.claimed], fun s' hs' => row_set_ne hs', fun _ _ => rfl, ?_⟩
  intro id hid
  have hne : (i : Int) ≠ id := by
    intro heq
    apply hx.free_unowned hpage hfree
    rcases hid with hheld | ⟨s', _, hmem⟩
    · exact List.mem_append_left _ (heq ▸ hheld)
    · exact List.mem_append_right _ (heq ▸ mem_flatten_of_mem_ids hmem)
  have hpages : (kv.claimed s i).pages = updatePage kv.pages (i : Int) Page.claim := by
    simp [PagedKV.claimed]
  rw [hpages, pageAt_updatePage, if_neg hne]

/-- Writing to a page of sequence `s` disturbs no other owner. -/
theorem Exclusive.store_frame (hx : Exclusive kv held) {s : Nat} {id : Int}
    (hid : id ∈ kv.ids s) (chunk : List UInt8) :
    Frame s held kv (kv.store s id chunk) := by
  refine ⟨rfl, by simp [PagedKV.store], fun _ _ => rfl, ?_, ?_⟩
  · intro s' hs'
    simp [PagedKV.store, List.getD_eq_getElem?_getD, List.getElem?_set_ne (Ne.symm hs')]
  · intro id' hid'
    have hne : id ≠ id' := by
      rintro rfl
      rcases hid' with hheld | ⟨s', hs', hmem⟩
      · exact (List.nodup_append.mp hx.distinct).2.2 id hheld id
          (mem_flatten_of_mem_ids hid) rfl
      · exact row_disjoint (List.nodup_append.mp hx.distinct).2.1 (Ne.symm hs') hid hmem
    rw [PagedKV.store, pageAt_updatePage, if_neg hne]

/-- The last page of sequence `s` has no room left, or there is none. -/
def TailFull (kv : PagedKV) (s : Nat) : Prop :=
  ∀ id ∈ (kv.ids s).getLast?, ∀ page, pageAt kv.pages id = some page →
    kv.pageBytes ≤ page.writeOffset

private theorem take_min_length (xs : List UInt8) (n : Nat) :
    xs.take (min xs.length n) = xs.take n := by
  rw [Nat.min_comm, ← List.take_eq_take_min]

private theorem drop_min_length (xs : List UInt8) (n : Nat) :
    xs.drop (min xs.length n) = xs.drop n := by
  rw [Nat.min_comm, ← List.drop_eq_drop_min]

/-- What one turn of the copy loop can do while data is left: fill up the
tail page, write to a newly claimed page, or find no page. -/
theorem appendTurn_cases (hx : Exclusive kv held) (hsmall : kv.pages.length ≤ 2 ^ 31)
    {s : Nat} {left : List UInt8} (hleft : left ≠ []) :
    (∃ id page, (kv.ids s).getLast? = some id ∧ pageAt kv.pages id = some page ∧
      page.writeOffset < kv.pageBytes ∧
      appendTurn s (kv, left) =
        .again (kv.store s id (left.take (kv.pageBytes - page.writeOffset)),
          left.drop (kv.pageBytes - page.writeOffset))) ∨
    (TailFull kv s ∧ ∃ (i : Nat) (page : Page), kv.pages[i]? = some page ∧
      page.allocated = false ∧
      appendTurn s (kv, left) =
        .again ((kv.claimed s i).store s i (left.take kv.pageBytes),
          left.drop kv.pageBytes)) ∨
    (TailFull kv s ∧ kv.freePages = 0 ∧
      appendTurn s (kv, left) = .leave (.threw .badAlloc kv)) := by
  -- a full or missing tail always leads to a claim
  have hclaim : kv.writablePage s = some (kv.claimFor s) →
      (∃ (i : Nat) (page : Page), kv.pages[i]? = some page ∧ page.allocated = false ∧
        appendTurn s (kv, left) =
          .again ((kv.claimed s i).store s i (left.take kv.pageBytes),
            left.drop kv.pageBytes)) ∨
      (kv.freePages = 0 ∧ appendTurn s (kv, left) = .leave (.threw .badAlloc kv)) := by
    intro hwritable
    rcases claimFor_cases hsmall s with ⟨i, page, hpage, hfree, hres⟩ | ⟨hnone, hres⟩
    · refine Or.inl ⟨i, page, hpage, hfree, ?_⟩
      have hi : ¬ ((i : Int) < 0) := by omega
      have hnew : pageAt (kv.claimed s i).pages (i : Int) = some page.claim := by
        simp [PagedKV.claimed, hpage]
      have hbytes : (kv.claimed s i).pageBytes = kv.pageBytes := rfl
      simp only [appendTurn, if_neg hleft, hwritable, hres, if_neg hi, hnew]
      simp [hbytes, Page.claim, take_min_length, drop_min_length]
    · refine Or.inr ⟨hnone, ?_⟩
      simp [appendTurn, hleft, hwritable, hres]
  cases htail : (kv.ids s).getLast? with
  | none =>
      have hfull : TailFull kv s := by simp [TailFull, htail]
      have hwritable : kv.writablePage s = some (kv.claimFor s) := by
        simp [writablePage, List.getLastD_eq_getLast?, htail]
      rcases hclaim hwritable with h | h
      · exact Or.inr (Or.inl ⟨hfull, h⟩)
      · exact Or.inr (Or.inr ⟨hfull, h⟩)
  | some id =>
      obtain ⟨page, hpage, _⟩ := hx.listed (List.mem_of_getLast? htail)
      obtain ⟨i, rfl, _⟩ := pageAt_eq_some hpage
      have hi : ¬ ((i : Int) < 0) := by omega
      by_cases hroom : page.writeOffset < kv.pageBytes
      · have hwritable : kv.writablePage s = some ((i : Int), kv) := by
          simp [writablePage, List.getLastD_eq_getLast?, htail, hi, hpage,
            Nat.not_le.mpr hroom]
        refine Or.inl ⟨i, page, rfl, hpage, hroom, ?_⟩
        simp [appendTurn, hleft, hwritable, hi, hpage, take_min_length, drop_min_length]
      · have hfull : TailFull kv s := by
          simp [TailFull, htail, hpage, Nat.not_lt.mp hroom]
        have hwritable : kv.writablePage s = some (kv.claimFor s) := by
          simp [writablePage, List.getLastD_eq_getLast?, htail, hi, hpage,
            Nat.not_lt.mp hroom]
        rcases hclaim hwritable with h | h
        · exact Or.inr (Or.inl ⟨hfull, h⟩)
        · exact Or.inr (Or.inr ⟨hfull, h⟩)

/-! ## The copy loop -/

/-- Claiming a free page lowers the free count by one. -/
theorem freePages_claimed {s i : Nat} {page : Page} (hpage : kv.pages[i]? = some page)
    (hfree : page.allocated = false) :
    (kv.claimed s i).freePages + 1 = kv.freePages := by
  have hcount := countP_modify (fun page : Page => !page.allocated) Page.claim hpage
  simpa [PagedKV.claimed, freePages, hfree, Page.claim] using hcount

/-- Writing to a page keeps the free count. -/
theorem freePages_store (s : Nat) (id : Int) (chunk : List UInt8) :
    (kv.store s id chunk).freePages = kv.freePages := by
  unfold PagedKV.store freePages updatePage
  split
  · cases hpage : kv.pages[id.toNat]? with
    | none =>
        rw [List.modify_eq_self (List.getElem?_eq_none_iff.mp hpage)]
    | some page =>
        have hcount := countP_modify (fun page : Page => !page.allocated)
          (fun page => page.write chunk) hpage
        simpa [Page.write] using hcount
  · rfl

/-- A claim that yields a page uses up a free one, in any state whatever. -/
theorem freePages_claimFor {s : Nat} {id : Int} {kv kv' : PagedKV}
    (h : kv.claimFor s = (id, kv')) (hid : 0 ≤ id) :
    kv'.freePages + 1 = kv.freePages := by
  cases hfirst : kv.firstFree with
  | none =>
      simp only [claimFor, hfirst, Prod.mk.injEq] at h
      omega
  | some i =>
      obtain ⟨page, hpage, hfree⟩ := firstFree_some hfirst
      simp only [claimFor, hfirst, Prod.mk.injEq] at h
      obtain ⟨_, rfl⟩ := h
      have hcount := countP_modify (fun page : Page => !page.allocated) Page.claim hpage
      simpa [freePages, hfree, Page.claim] using hcount

/-- The chosen page is the tail page with room in it, or a claimed one. -/
theorem writablePage_cases {s : Nat} {id : Int} {kv kv' : PagedKV}
    (h : kv.writablePage s = some (id, kv')) :
    (kv' = kv ∧ ∃ page, pageAt kv.pages id = some page ∧
      page.writeOffset < kv.pageBytes) ∨ kv.claimFor s = (id, kv') := by
  simp only [writablePage] at h
  split at h
  · exact Or.inr (Option.some.inj h)
  · obtain ⟨page, hpage, hres⟩ := Option.map_eq_some_iff.mp h
    split at hres
    · exact Or.inr hres
    · rename_i hroom
      cases hres
      exact Or.inl ⟨rfl, page, hpage, by omega⟩

/-- Every turn that goes round again uses up a byte or a free page, in any
state whatever. -/
theorem appendTurn_decreases {s : Nat} {kv kv' : PagedKV} {left left' : List UInt8}
    (h : appendTurn s (kv, left) = .again (kv', left')) :
    left'.length + kv'.freePages < left.length + kv.freePages := by
  rw [appendTurn] at h
  split at h
  · cases h
  · rename_i hleft
    have hpos : 0 < left.length := List.length_pos_iff.mpr hleft
    split at h
    · cases h
    · rename_i id kv₁ hwritable
      split at h
      · cases h
      · rename_i hid
        split at h
        · cases h
        · rename_i page hpage
          cases h
          rw [freePages_store, List.length_drop]
          rcases writablePage_cases hwritable with ⟨rfl, page', hpage', hroom⟩ | hclaim
          · rw [hpage] at hpage'
            cases hpage'
            omega
          · have hless := freePages_claimFor hclaim (by omega)
            omega

/-- A turn that leaves the loop leaves it for a reason of its own. -/
theorem appendTurn_leave {s : Nat} {st : PagedKV × List UInt8} {r : Outcome PagedKV}
    (h : appendTurn s st = .leave r) : r ≠ .diverged := by
  rw [appendTurn] at h
  split at h
  · cases h
    simp
  · split at h
    · cases h
      simp
    · split at h
      · cases h
        simp
      · split at h <;> cases h
        simp

/-- The copy loop ends in every state. -/
theorem appendLoop_not_diverged (kv : PagedKV) (s : Nat) (data : List UInt8) :
    kv.appendLoop s data ≠ .diverged := by
  have hagain : ∀ st st', True → appendTurn s st = .again st' →
      True ∧ st'.2.length + st'.1.freePages < st.2.length + st.1.freePages :=
    fun _ _ _ hturn => ⟨trivial, appendTurn_decreases hturn⟩
  obtain ⟨result, hrun, hpost⟩ := run_total (fun _ => True)
    (fun r => r ≠ Outcome.diverged) (fun st => st.2.length + st.1.freePages) hagain
    (fun _ _ _ hturn => appendTurn_leave hturn)
    (data.length + kv.freePages + 1) (kv, data) (Nat.lt_succ_self _) trivial
  rw [appendLoop, hrun]
  exact hpost

/-- `append` ends in every state. -/
theorem append_not_diverged (kv : PagedKV) (s : Nat) (src : Source) :
    kv.append s src ≠ .diverged := by
  have hready : ∀ (kv : PagedKV) (data : List UInt8), kv.appendReady s data ≠ .diverged := by
    intro kv data
    unfold appendReady
    split
    · simp
    · split
      · simp
      · split
        · simp
        · exact appendLoop_not_diverged kv s data
  cases src with
  | null n =>
      rw [append]
      split
      · simp
      · exact hready _ _
  | buffer data => exact hready _ _

/-- One turn keeps ownership exclusive and disturbs no other owner. -/
theorem Exclusive.appendTurn (hx : Exclusive kv held) (hsmall : kv.pages.length ≤ 2 ^ 31)
    {s : Nat} (hs : s < kv.sequences.length) {left left' : List UInt8} {kv' : PagedKV}
    (h : PagedKV.appendTurn s (kv, left) = .again (kv', left')) :
    Exclusive kv' held ∧ Frame s held kv kv' ∧ s < kv'.sequences.length := by
  by_cases hleft : left = []
  · simp [PagedKV.appendTurn, hleft] at h
  · rcases appendTurn_cases hx hsmall hleft (s := s) with
      ⟨id, page, htail, _, _, hturn⟩ | ⟨_, i, page, hpage, hfree, hturn⟩ | ⟨_, _, hturn⟩
    · rw [hturn] at h
      cases h
      exact ⟨hx.store s id _, hx.store_frame (List.mem_of_getLast? htail) _, hs⟩
    · rw [hturn] at h
      cases h
      have hx' := hx.claimed hs hpage hfree
      have hmem : (i : Int) ∈ (kv.claimed s i).ids s := by
        have hrow : (kv.claimed s i).ids s = kv.ids s ++ [(i : Int)] := row_set_self hs
        simp [hrow]
      exact ⟨hx'.store s i _, (hx.claimed_frame hpage hfree).trans (hx'.store_frame hmem _),
        by simpa [PagedKV.store, PagedKV.claimed] using hs⟩
    · rw [hturn] at h
      cases h

/-- A turn that leaves the copy loop, with all data written or without a page, leaves the
state as it found it. -/
theorem Exclusive.appendTurn_leave (hx : Exclusive kv held) (hsmall : kv.pages.length ≤ 2 ^ 31)
    {s : Nat} {left : List UInt8} {r : Outcome PagedKV}
    (h : PagedKV.appendTurn s (kv, left) = .leave r) : r.state? = some kv := by
  by_cases hleft : left = []
  · simp only [PagedKV.appendTurn, hleft, if_pos] at h
    cases h
    rfl
  · rcases appendTurn_cases hx hsmall hleft (s := s) with
      ⟨_, _, _, _, _, hturn⟩ | ⟨_, _, _, _, _, hturn⟩ | ⟨_, _, hturn⟩
    · rw [hturn] at h
      cases h
    · rw [hturn] at h
      cases h
    · rw [hturn] at h
      cases h
      rfl

/-- The copy loop keeps ownership exclusive and disturbs no other owner,
whether it returns or throws. -/
theorem Exclusive.appendLoop (hx : Exclusive kv held) (hsmall : kv.pages.length ≤ 2 ^ 31)
    {s : Nat} (hs : s < kv.sequences.length) {data : List UInt8} {kv' : PagedKV}
    (h : (kv.appendLoop s data).state? = some kv') :
    Exclusive kv' held ∧ Frame s held kv kv' := by
  let inv : PagedKV × List UInt8 → Prop := fun st =>
    Exclusive st.1 held ∧ Frame s held kv st.1 ∧ s < st.1.sequences.length
  let post : Outcome PagedKV → Prop := fun r =>
    ∀ kv', r.state? = some kv' → Exclusive kv' held ∧ Frame s held kv kv'
  cases hrun : run (PagedKV.appendTurn s) (data.length + kv.freePages + 1) (kv, data) with
  | none => simp [PagedKV.appendLoop, hrun, Outcome.state?] at h
  | some r =>
      have hpost : post r := by
        refine run_post inv post ?_ ?_ hrun ⟨hx, Frame.refl s held kv, hs⟩
        · intro st st' hinv hturn
          obtain ⟨kv₁, left⟩ := st
          obtain ⟨kv₂, left'⟩ := st'
          obtain ⟨hx₁, hframe, hs₁⟩ := hinv
          have hsmall₁ : kv₁.pages.length ≤ 2 ^ 31 := hframe.pageCount ▸ hsmall
          obtain ⟨hx₂, hframe₂, hs₂⟩ := hx₁.appendTurn hsmall₁ hs₁ hturn
          exact ⟨hx₂, hframe.trans hframe₂, hs₂⟩
        · intro st r hinv hturn kv₂ hstate
          obtain ⟨kv₁, left⟩ := st
          obtain ⟨hx₁, hframe, hs₁⟩ := hinv
          have hsmall₁ : kv₁.pages.length ≤ 2 ^ 31 := hframe.pageCount ▸ hsmall
          rw [hx₁.appendTurn_leave hsmall₁ hturn] at hstate
          cases hstate
          exact ⟨hx₁, hframe⟩
      rw [PagedKV.appendLoop, hrun] at h
      exact hpost kv' h

/-! ## Growth of the tables -/

/-- Growing a vector with its default changes no default-padded entry. -/
theorem getD_resize {β : Type} {xs : List β} {n : Nat} {fill : β} (h : xs.length ≤ n)
    (j : Nat) : (resize xs n fill).getD j fill = xs.getD j fill := by
  rw [resize, List.take_of_length_le h]
  by_cases hj : j < xs.length
  · simp [List.getD_eq_getElem?_getD, List.getElem?_append_left hj]
  · rw [List.getD_eq_getElem?_getD, List.getElem?_append_right (by omega),
      List.getElem?_replicate, List.getD_eq_getElem?_getD,
      List.getElem?_eq_none (by omega)]
    split <;> rfl

/-- Unless `s + 1` wraps around, growing the tables to include `s` changes
no list. -/
theorem ids_ensureSequence {s : Nat} (hs : s < (kv.ensureSequence s).sequences.length)
    (s' : Nat) : (kv.ensureSequence s).ids s' = kv.ids s' := by
  unfold ensureSequence at hs ⊢
  split
  · rename_i hgrow
    rw [if_pos hgrow, length_resize] at hs
    exact getD_resize (by omega) s'
  · rfl

@[simp] theorem pages_ensureSequence (kv : PagedKV) (s : Nat) :
    (kv.ensureSequence s).pages = kv.pages := by
  unfold ensureSequence
  split <;> rfl

@[simp] theorem pageBytes_ensureSequence (kv : PagedKV) (s : Nat) :
    (kv.ensureSequence s).pageBytes = kv.pageBytes := by
  unfold ensureSequence
  split <;> rfl

/-- Unless `s + 1` wraps around, growing the tables changes no counter. -/
theorem Exclusive.counts_ensureSequence (hx : Exclusive kv held) {s : Nat}
    (hs : s < (kv.ensureSequence s).sequences.length) (s' : Nat) :
    (kv.ensureSequence s).sequenceBytes.getD s' 0 = kv.sequenceBytes.getD s' 0 := by
  unfold PagedKV.ensureSequence at hs ⊢
  split
  · rename_i hgrow
    rw [if_pos hgrow, length_resize] at hs
    exact getD_resize (by rw [hx.aligned]; omega) s'
  · rfl

/-- Growing the tables disturbs no owner. -/
theorem Exclusive.ensureSequence_frame (hx : Exclusive kv held) {s : Nat}
    (hs : s < (kv.ensureSequence s).sequences.length) :
    Frame s held kv (kv.ensureSequence s) :=
  ⟨by simp, by simp, fun s' _ => ids_ensureSequence hs s',
    fun s' _ => hx.counts_ensureSequence hs s', by simp⟩

/-- `append` keeps ownership exclusive and disturbs no other owner, whether
it returns or throws. -/
theorem Exclusive.append (hx : Exclusive kv held) (hsmall : kv.pages.length ≤ 2 ^ 31)
    {s : Nat} {src : Source} {kv' : PagedKV}
    (h : (kv.append s src).state? = some kv') :
    Exclusive kv' held ∧ Frame s held kv kv' := by
  have hready : ∀ data, ((kv.ensureSequence s).appendReady s data).state? = some kv' →
      Exclusive kv' held ∧ Frame s held kv kv' := by
    intro data hready
    have hx₁ := hx.ensureSequence s
    rw [appendReady] at hready
    split at hready
    · cases hready
    · rename_i hs
      have hframe := hx.ensureSequence_frame (Nat.lt_of_not_le hs)
      split at hready
      · cases hready
      · split at hready
        · cases hready
          exact ⟨hx₁, hframe⟩
        · obtain ⟨hx₂, hframe₂⟩ :=
            hx₁.appendLoop (by simpa using hsmall) (Nat.lt_of_not_le hs) hready
          exact ⟨hx₂, hframe.trans hframe₂⟩
  cases src with
  | null n =>
      rw [PagedKV.append] at h
      split at h
      · cases h
        exact ⟨hx, Frame.refl s held kv⟩
      · exact hready [] h
  | buffer data => exact hready data h

/-! ## The other operations -/

/-- `acquire` moves a free page to the held ids, or finds none. -/
theorem acquire_cases (hsmall : kv.pages.length ≤ 2 ^ 31) :
    (∃ (i : Nat) (page : Page), kv.pages[i]? = some page ∧ page.allocated = false ∧
      kv.acquire = ((i : Int), { kv with pages := updatePage kv.pages (i : Int) Page.claim })) ∨
    (kv.freePages = 0 ∧ kv.acquire = (-1, kv)) := by
  cases hfirst : kv.firstFree with
  | none => exact Or.inr ⟨firstFree_none.mp hfirst, by simp [acquire, hfirst]⟩
  | some i =>
      obtain ⟨page, hpage, hfree⟩ := firstFree_some hfirst
      have hi : i < kv.pages.length := (List.getElem?_eq_some_iff.mp hpage).1
      have hcast : castInt i = i := castInt_of_lt (by omega)
      exact Or.inl ⟨i, page, hpage, hfree, by simp [acquire, hfirst, hcast]⟩

/-- `acquire` hands out a page nobody owns. -/
theorem Exclusive.acquire (hx : Exclusive kv held) (hsmall : kv.pages.length ≤ 2 ^ 31) :
    Exclusive kv.acquire.2
      (if kv.acquire.1 = -1 then held else kv.acquire.1 :: held) := by
  rcases acquire_cases hsmall with ⟨i, page, hpage, hfree, hres⟩ | ⟨_, hres⟩
  · have hunowned := hx.free_unowned hpage hfree
    have hi : ¬ ((i : Int) = -1) := by omega
    simp only [hres, if_neg hi]
    refine ⟨hx.aligned, List.nodup_cons.mpr ⟨hunowned, hx.distinct⟩, ?_⟩
    intro id hid
    rw [pageAt_updatePage]
    rcases List.mem_cons.mp hid with rfl | hold
    · exact ⟨page.claim, by simp [hpage], rfl⟩
    · have hne : (i : Int) ≠ id := fun heq => hunowned (heq ▸ hold)
      rw [if_neg hne]
      exact hx.live id hold
  · simpa [hres] using hx

/-- `release` of an id that no sequence lists keeps ownership exclusive. -/
theorem Exclusive.release (hx : Exclusive kv held) {i : Int}
    (hunlisted : i ∉ kv.sequences.flatten) :
    Exclusive (kv.release i) (held.filter (fun id => id ≠ i)) := by
  have hsub : (held.filter (fun id => id ≠ i) ++ kv.sequences.flatten).Sublist
      (held ++ kv.sequences.flatten) := List.filter_sublist.append_right _
  refine ⟨hx.aligned, hx.distinct.sublist hsub, ?_⟩
  intro id hid
  have hne : i ≠ id := by
    rintro rfl
    rcases List.mem_append.mp hid with hheld | hlisted
    · simp at hheld
    · exact hunlisted hlisted
  rw [PagedKV.release, pageAt_freePage, if_neg hne]
  exact hx.live id (hsub.subset hid)

/-- `release_sequence` frees the pages of one sequence only. -/
theorem Exclusive.releaseSequence (hx : Exclusive kv held) (s : Nat) :
    Exclusive (kv.releaseSequence s) held := by
  unfold PagedKV.releaseSequence
  split
  · exact hx
  · have hperm : (kv.ids s ++ (held ++ (kv.sequences.set s []).flatten)).Perm
        (held ++ kv.sequences.flatten) :=
      (List.perm_append_comm_assoc _ _ _).trans
        ((flatten_clear_perm kv.sequences s).append_left held)
    have hnd := hperm.nodup_iff.mpr hx.distinct
    refine ⟨?_, (List.nodup_append.mp hnd).2.1, ?_⟩
    · show (if s < kv.sequenceBytes.length then _ else _ : List Nat).length = _
      split <;> simp [hx.aligned]
    intro id hid
    have hkept : id ∉ kv.ids s := fun hmem =>
      (List.nodup_append.mp hnd).2.2 id hmem id hid rfl
    show ∃ page, pageAt ((kv.ids s).foldl freePage kv.pages) id = some page ∧ _
    rw [pageAt_foldl_freePage, if_neg hkept]
    exact hx.live id (hperm.subset (List.mem_append_right _ hid))

end PagedKV

end Gpuforge

import Gpuforge.ThreadCache

/-!
# What the central cache keeps

A used span is either large, for one request, or small: cut into the blocks of
its class, some of which it has on its free list.  The list of a class has
exactly the small spans of the class with a block left.

A turn of `fetchRange` moves one block off a span's list, and may first add a
span with all its blocks; a turn of `returnRange` moves one block on, and may
then take the span away with all its blocks.  The lemmas say what each does to
the blocks there are and to the lists they are on.
-/

namespace Gpuforge.Kama

open ObjectTable SegmentTable

variable (pf : Platform)

/-- A span cut into blocks of a class. -/
structure Span.Small (s : Span) : Prop where
  class_lt : s.sizeClass < classCount
  size : s.blockSize = getSize s.sizeClass
  fits : s.blockCount * s.blockSize ≤ s.numPages * pf.systemPageSize
  count : s.freeCount = s.freeList.length
  le : s.freeCount ≤ s.blockCount
  sub : ∀ a ∈ s.freeList, a ∈ s.blocks

/-- Neither the page cache nor the cut into blocks sees the difference. -/
structure Span.SameCut (t s : Span) : Prop extends t.SameLayout s where
  blockSize : t.blockSize = s.blockSize
  blockCount : t.blockCount = s.blockCount
  sizeClass : t.sizeClass = s.sizeClass
  isLarge : t.isLarge = s.isLarge

namespace Heap

/-- A block of a class, in a span. -/
def Block (h : Heap) (id : SpanId) (index a : ℕ) : Prop :=
  ∃ s, h.pages.Used id s ∧ s.isLarge = false ∧ s.sizeClass = index ∧ a ∈ s.blocks

/-- The span of a large request. -/
def Large (h : Heap) (id : SpanId) (a size : ℕ) : Prop :=
  ∃ s, h.pages.Used id s ∧ s.isLarge = true ∧ s.pageAddr = a ∧ s.blockSize = size

/-- The blocks a span has on its free list. -/
def free (h : Heap) (id : SpanId) : List ℕ :=
  match h.pages.spans.get id with
  | none => []
  | some s => if s.inFreeList ∨ s.isLarge then [] else s.freeList

/-- A small span of which a block is out. -/
def Settled (h : Heap) (id : SpanId) : Prop :=
  ∀ s, h.pages.Used id s → s.isLarge = false → s.freeCount < s.blockCount

/-- **The invariant of the shared caches.** -/
structure Sound (h : Heap) : Prop where
  pages : PageCache.Sound pf h.pages
  small : ∀ id s, h.pages.Used id s → s.isLarge = false → s.Small pf
  large : ∀ id s, h.pages.Used id s → s.isLarge = true →
    maxBytes < s.blockSize ∧ s.blockSize ≤ s.numPages * pf.systemPageSize
  linked : ∀ i id, id ∈ h.partialSpans i ↔
    ∃ s, h.pages.Used id s ∧ s.isLarge = false ∧ s.sizeClass = i ∧ s.freeList ≠ []
  linked_nodup : ∀ i, (h.partialSpans i).Nodup

/-- The same blocks and large spans. -/
structure SameBlocks (h' h : Heap) : Prop where
  block : ∀ j c a, h'.Block j c a ↔ h.Block j c a
  large : ∀ j a n, h'.Large j a n ↔ h.Large j a n

variable {pf}

theorem sound_new : Heap.new.Sound pf where
  pages := PageCache.sound_new
  small := fun _ _ h => nomatch h.1
  large := fun _ _ h => nomatch h.1
  linked := by
    intro i id
    constructor
    · exact fun h => nomatch h
    · intro h
      obtain ⟨s, hs, _⟩ := h
      cases hs.1
  linked_nodup := fun _ => .nil

variable {h h' : Heap} {id j : SpanId} {s t : Span} {index a : ℕ}

/-! ## Blocks and lists -/

theorem mem_blocksFrom {start size n : ℕ} :
    a ∈ blocksFrom start size n ↔ ∃ i, i < n ∧ start + i * size = a := by
  rw [blocksFrom, List.mem_map]
  constructor
  · intro h
    obtain ⟨i, hi, heq⟩ := h
    exact ⟨i, List.mem_range.mp hi, heq⟩
  · intro h
    obtain ⟨i, hi, heq⟩ := h
    exact ⟨i, List.mem_range.mpr hi, heq⟩

theorem nodup_blocksFrom {start size : ℕ} (hsize : 0 < size) (n : ℕ) :
    (blocksFrom start size n).Nodup := by
  refine (List.nodup_range (n := n)).map ?_
  intro i j hij
  exact Nat.eq_of_mul_eq_mul_right hsize (Nat.add_left_cancel hij)

theorem length_blocksFrom {start size n : ℕ} : (blocksFrom start size n).length = n := by
  rw [blocksFrom, List.length_map, List.length_range]

theorem free_of_used (hs : h.pages.Used id s) (hsmall : s.isLarge = false) :
    h.free id = s.freeList := by
  simp [free, hs.1, hs.2, hsmall]

theorem free_of_large (hs : h.pages.Used id s) (hlarge : s.isLarge = true) : h.free id = [] := by
  simp [free, hs.1, hlarge]

theorem free_of_not_used (hnot : ∀ s, ¬ h.pages.Used id s) : h.free id = [] := by
  unfold free
  split
  · rfl
  · next s hs =>
    have hfree : s.inFreeList = true := by
      by_contra hne
      exact hnot s ⟨hs, Bool.eq_false_iff.mpr hne⟩
    simp [hfree]

/-- Free lists depend on the used spans. -/
theorem free_congr (hused : ∀ s, h'.pages.Used id s ↔ h.pages.Used id s) :
    h'.free id = h.free id := by
  by_cases hex : ∃ s, h.pages.Used id s
  · obtain ⟨s, hs⟩ := hex
    cases hlarge : s.isLarge with
    | false => rw [free_of_used hs hlarge, free_of_used ((hused s).mpr hs) hlarge]
    | true => rw [free_of_large hs hlarge, free_of_large ((hused s).mpr hs) hlarge]
  · rw [free_of_not_used fun s hs => hex ⟨s, hs⟩,
      free_of_not_used fun s hs => hex ⟨s, (hused s).mp hs⟩]

/-- A block lies in its span, to its last byte. -/
theorem block_in (hsmall : s.Small pf) (ha : a ∈ s.blocks) :
    s.pageAddr ≤ a ∧ a + s.blockSize ≤ s.stop pf := by
  obtain ⟨i, hi, rfl⟩ := mem_blocksFrom.mp ha
  have hle : (i + 1) * s.blockSize ≤ s.blockCount * s.blockSize :=
    Nat.mul_le_mul_right _ hi
  have hfits := hsmall.fits
  rw [Span.stop]
  rw [add_mul, one_mul] at hle
  omega

theorem size_pos (hsmall : s.Small pf) : 0 < s.blockSize := by
  have hle := le_getSize hsmall.class_lt
  rw [hsmall.size]
  omega

/-- A block finds its span. -/
theorem Sound.find_block (hs : h.Sound pf) (hblock : h.Block id index a) :
    h.pages.findSpan pf a = some id := by
  obtain ⟨s, hused, hsmall, _, ha⟩ := hblock
  have hcarved := hs.small id s hused hsmall
  obtain ⟨hstart, hstop⟩ := block_in hcarved ha
  have hpos := size_pos hcarved
  have hplaced := hs.pages.placed id s hused.1
  have hnonnull := (hs.pages.pages _ hplaced.origin).nonnull
  have hfirst := hplaced.start
  have hholds : (s.bytes pf).Holds a := by
    simp only [Segment.Holds, Span.bytes, Span.stop] at *
    omega
  rw [PageCache.findSpan, if_neg (by simp only at hnonnull; omega)]
  exact hs.pages.find_iff.mpr ⟨s, hused.1, hholds⟩

/-- A block is in one span, and of one class. -/
theorem Sound.block_unique {i : ℕ} (hs : h.Sound pf) (hblock : h.Block id index a)
    (hblock' : h.Block j i a) : id = j ∧ index = i := by
  have hfind := hs.find_block hblock
  rw [hs.find_block hblock'] at hfind
  obtain rfl := Option.some.inj hfind
  obtain ⟨s, hused, _, rfl, _⟩ := hblock
  obtain ⟨s', hused', _, rfl, _⟩ := hblock'
  exact ⟨rfl, by rw [hused.unique hused']⟩

theorem Sound.class_lt (hs : h.Sound pf) (hblock : h.Block id index a) : index < classCount := by
  obtain ⟨s, hused, hsmall, rfl, _⟩ := hblock
  exact (hs.small id s hused hsmall).class_lt

/-! ## Writes -/

theorem used_write {pc : PageCache} {f : Span → Span} (hs : pc.Used id s)
    (hf : (f s).inFreeList = s.inFreeList) :
    (pc.write id f).Used j t ↔ (j = id ∧ f s = t) ∨ (j ≠ id ∧ pc.Used j t) := by
  have hget : (pc.write id f).spans.get j = some t ↔ _ := get_modify_eq_some hs.1
  rw [PageCache.Used, hget, PageCache.Used]
  constructor
  · intro h
    obtain ⟨h | h, hfree⟩ := h
    · exact .inl h
    · exact .inr ⟨h.1, h.2, hfree⟩
  · intro h
    obtain ⟨rfl, rfl⟩ | h := h
    · exact ⟨.inl ⟨rfl, rfl⟩, hf.trans hs.2⟩
    · exact ⟨.inr ⟨h.1, h.2.1⟩, h.2.2⟩

/-- The blocks of a span whose cut is the same. -/
theorem blocks_congr (hcut : t.SameCut s) : t.blocks = s.blocks := by
  rw [Span.blocks, Span.blocks, hcut.pageAddr, hcut.blockSize, hcut.blockCount]

/-- A write to the lists keeps blocks and large spans. -/
theorem SameBlocks.write {f : Span → Span} (hs : h.pages.Used id s) (hcut : (f s).SameCut s)
    (hpages : h'.pages = h.pages.write id f) : SameBlocks h' h := by
  have hused : ∀ j t, h'.pages.Used j t ↔
      (j = id ∧ f s = t) ∨ (j ≠ id ∧ h.pages.Used j t) := by
    intro j t
    rw [hpages]
    exact used_write hs hcut.inFreeList
  refine ⟨?_, ?_⟩
  · intro j c a
    constructor
    · intro hblock
      obtain ⟨t, ht, hsmall, hclass, ha⟩ := hblock
      obtain ⟨rfl, rfl⟩ | ⟨_, ht⟩ := (hused j t).mp ht
      · exact ⟨s, hs, hcut.isLarge ▸ hsmall, hcut.sizeClass ▸ hclass, blocks_congr hcut ▸ ha⟩
      · exact ⟨t, ht, hsmall, hclass, ha⟩
    · intro hblock
      obtain ⟨t, ht, hsmall, hclass, ha⟩ := hblock
      by_cases hj : j = id
      · subst hj
        obtain rfl := hs.unique ht
        exact ⟨f s, (hused j _).mpr (.inl ⟨rfl, rfl⟩), hcut.isLarge.trans hsmall,
          hcut.sizeClass.trans hclass, (blocks_congr hcut).symm ▸ ha⟩
      · exact ⟨t, (hused j t).mpr (.inr ⟨hj, ht⟩), hsmall, hclass, ha⟩
  · intro j a n
    constructor
    · intro hlarge
      obtain ⟨t, ht, hlarge, haddr, hsize⟩ := hlarge
      obtain ⟨rfl, rfl⟩ | ⟨_, ht⟩ := (hused j t).mp ht
      · exact ⟨s, hs, hcut.isLarge ▸ hlarge, hcut.pageAddr ▸ haddr, hcut.blockSize ▸ hsize⟩
      · exact ⟨t, ht, hlarge, haddr, hsize⟩
    · intro hlarge
      obtain ⟨t, ht, hlarge, haddr, hsize⟩ := hlarge
      by_cases hj : j = id
      · subst hj
        obtain rfl := hs.unique ht
        exact ⟨f s, (hused j _).mpr (.inl ⟨rfl, rfl⟩), hcut.isLarge.trans hlarge,
          hcut.pageAddr.trans haddr, hcut.blockSize.trans hsize⟩
      · exact ⟨t, (hused j t).mpr (.inr ⟨hj, ht⟩), hlarge, haddr, hsize⟩

/-- The spans of a class. -/
theorem mem_setPartial {list : List SpanId} {i : ℕ} :
    j ∈ (h.setPartial index list).partialSpans i ↔
      (i = index ∧ j ∈ list) ∨ (i ≠ index ∧ j ∈ h.partialSpans i) := by
  rw [setPartial]
  by_cases hi : i = index
  · simp [hi]
  · simp [hi]

theorem nodup_setPartial {list : List SpanId} (hlist : list.Nodup)
    (hall : ∀ i, (h.partialSpans i).Nodup) (i : ℕ) :
    ((h.setPartial index list).partialSpans i).Nodup := by
  rw [setPartial]
  by_cases hi : i = index
  · simpa [hi] using hlist
  · simpa [hi] using hall i

/-- What a write to the list of a span does; the span is then like `s`. -/
structure Relisted (h : Heap) (id : SpanId) (s : Span) (h' : Heap) : Prop where
  same : SameBlocks h' h
  free : h'.free id = s.freeList
  others : ∀ j, j ≠ id → h'.free j = h.free j
  settled : s.freeCount < s.blockCount → h'.Settled id
  keeps : ∀ j, j ≠ id → h.Settled j → h'.Settled j

/-- **A list is written.**  The pages are those with the write, and the span is on the
list of its class when it has a block left. -/
theorem Sound.relist (hs : h.Sound pf) (hused : h.pages.Used id s) (hsmall : s.isLarge = false)
    {f : Span → Span} (hcut : ∀ t : Span, (f t).SameCut t) (hfits : (f s).Small pf)
    (hp : h'.pages = h.pages.write id f) (hnodup : ∀ i, (h'.partialSpans i).Nodup)
    (hmem : ∀ i j, j ∈ h'.partialSpans i ↔
      (j = id ∧ i = s.sizeClass ∧ (f s).freeList ≠ []) ∨ (j ≠ id ∧ j ∈ h.partialSpans i)) :
    h'.Sound pf ∧ Relisted h id (f s) h' := by
  have hafter : ∀ j t, h'.pages.Used j t ↔ (j = id ∧ f s = t) ∨ (j ≠ id ∧ h.pages.Used j t) := by
    intro j t
    rw [hp]
    exact used_write hused (hcut s).inFreeList
  have hnew : h'.pages.Used id (f s) := (hafter id _).mpr (.inl ⟨rfl, rfl⟩)
  have hnotlarge : (f s).isLarge = false := (hcut s).isLarge.trans hsmall
  refine ⟨⟨?_, ?_, ?_, ?_, hnodup⟩, SameBlocks.write hused (hcut s) hp,
    free_of_used hnew hnotlarge, ?_, ?_, ?_⟩
  · rw [hp]
    exact hs.pages.write hused.1 fun t => (hcut t).toSameLayout
  · intro j t ht htsmall
    obtain ⟨rfl, rfl⟩ | ⟨_, ht⟩ := (hafter j t).mp ht
    · exact hfits
    · exact hs.small j t ht htsmall
  · intro j t ht htlarge
    obtain ⟨rfl, rfl⟩ | ⟨_, ht⟩ := (hafter j t).mp ht
    · exact absurd (hnotlarge.symm.trans htlarge) Bool.false_ne_true
    · exact hs.large j t ht htlarge
  · intro i j
    rw [hmem, hs.linked]
    constructor
    · intro hj
      obtain ⟨rfl, rfl, hlist⟩ | ⟨hj, t, ht, hrest⟩ := hj
      · exact ⟨f s, hnew, hnotlarge, (hcut s).sizeClass, hlist⟩
      · exact ⟨t, (hafter j t).mpr (.inr ⟨hj, ht⟩), hrest⟩
    · intro hj
      obtain ⟨t, ht, hrest⟩ := hj
      obtain ⟨rfl, rfl⟩ | ⟨hj, ht⟩ := (hafter j t).mp ht
      · exact .inl ⟨rfl, hrest.2.1.symm.trans (hcut s).sizeClass, hrest.2.2⟩
      · exact .inr ⟨hj, t, ht, hrest⟩
  · intro j hj
    refine free_congr ?_
    intro t
    rw [hafter]
    simp [hj]
  · intro hroom t ht _
    obtain rfl := hnew.unique ht
    exact hroom
  · intro j hj hsettled t ht htsmall
    obtain ⟨rfl, _⟩ | ⟨_, ht⟩ := (hafter j t).mp ht
    · exact absurd rfl hj
    · exact hsettled t ht htsmall

/-! ## Turns of `fetchRange` -/

/-- What a turn of `fetchRange` does with the span it takes a block of. -/
structure Took (h : Heap) (id : SpanId) (obj : ℕ) (h' : Heap) : Prop where
  same : SameBlocks h' h
  free : h.free id = obj :: h'.free id
  others : ∀ j, j ≠ id → h'.free j = h.free j
  settled : h'.Settled id
  keeps : ∀ j, j ≠ id → h.Settled j → h'.Settled j

/-- **Taking a block** off the first span of a class. -/
theorem Sound.takeBlock (hs : h.Sound pf) (hused : h.pages.Used id s) (hsmall : s.isLarge = false)
    {rest : List SpanId} (hlink : h.partialSpans s.sizeClass = id :: rest) :
    ∃ obj h', h.takeBlock s.sizeClass id = some (some obj, h') ∧ h'.Sound pf ∧
      Took h id obj h' := by
  have hcarved := hs.small id s hused hsmall
  have hne : s.freeList ≠ [] := by
    obtain ⟨t, ht, _, _, hne⟩ := (hs.linked s.sizeClass id).mp (hlink ▸ List.mem_cons_self)
    exact hused.unique ht ▸ hne
  obtain ⟨obj, list, hlist⟩ := List.exists_cons_of_ne_nil hne
  have hcount := hcarved.count
  rw [hlist, List.length_cons] at hcount
  let f : Span → Span := fun s => { s with freeList := list, freeCount := s.freeCount - 1 }
  have hcut : ∀ t : Span, (f t).SameCut t :=
    fun t => ⟨⟨rfl, rfl, rfl, rfl, rfl⟩, rfl, rfl, rfl, rfl⟩
  have hleft : s.freeCount - 1 = list.length := by omega
  have hfits : (f s).Small pf :=
    ⟨hcarved.class_lt, hcarved.size, hcarved.fits, hleft, (Nat.sub_le _ _).trans hcarved.le,
      fun a ha => hcarved.sub a (hlist ▸ List.mem_cons_of_mem _ ha)⟩
  have hnodup := hs.linked_nodup s.sizeClass
  rw [hlink] at hnodup
  -- what follows for any heap with these pages and the right list
  have hall : ∀ h' : Heap, h'.pages = h.pages.write id f → (∀ i, (h'.partialSpans i).Nodup) →
      (∀ i j, j ∈ h'.partialSpans i ↔
        (j = id ∧ i = s.sizeClass ∧ list ≠ []) ∨ (j ≠ id ∧ j ∈ h.partialSpans i)) →
      h'.Sound pf ∧ Took h id obj h' := by
    intro h' hp hnodup hmem
    obtain ⟨hsound, hrelisted⟩ := hs.relist hused hsmall hcut hfits hp hnodup hmem
    have hroom : s.freeCount - 1 < s.blockCount := by
      have hle := hcarved.le
      omega
    refine ⟨hsound, hrelisted.same, ?_, hrelisted.others, hrelisted.settled hroom,
      hrelisted.keeps⟩
    rw [free_of_used hused hsmall, hrelisted.free, hlist]
  unfold Heap.takeBlock
  simp only [hused.1, hlist]
  refine ⟨obj, _, rfl, ?_⟩
  split
  · next hzero =>
    have hnil : list = [] := List.length_eq_zero_iff.mp (by omega)
    refine hall _ rfl (nodup_setPartial ?_ hs.linked_nodup) ?_
    · rw [hlink]
      exact (List.nodup_cons.mp hnodup).2
    · intro i j
      rw [mem_setPartial, hlink, List.tail_cons]
      by_cases hj : j = id
      · subst hj
        have hnot := (List.nodup_cons.mp hnodup).1
        constructor
        · intro hmem
          obtain ⟨_, hmem⟩ | ⟨hi, hmem⟩ := hmem
          · exact absurd hmem hnot
          · obtain ⟨t, ht, _, hclass, _⟩ := (hs.linked i j).mp hmem
            exact absurd (hused.unique ht ▸ hclass).symm hi
        · intro hmem
          obtain ⟨_, _, hne⟩ | ⟨hne, _⟩ := hmem
          · exact absurd hnil hne
          · exact absurd rfl hne
      · by_cases hi : i = s.sizeClass
        · subst hi
          simp [hj, hlink]
        · simp [hj, hi]
  · next hpos =>
    have hne : list ≠ [] := by
      intro hnil
      rw [hnil] at hcount
      exact hpos (by simp only [List.length_nil] at hcount; omega)
    refine hall _ rfl hs.linked_nodup ?_
    intro i j
    by_cases hj : j = id
    · subst hj
      rw [show ({ h with pages := h.pages.write j f } : Heap).partialSpans i =
        h.partialSpans i from rfl, hs.linked]
      constructor
      · intro hmem
        obtain ⟨t, ht, _, hclass, _⟩ := hmem
        exact .inl ⟨rfl, (hused.unique ht ▸ hclass).symm, hne⟩
      · intro hmem
        obtain ⟨_, rfl, _⟩ | ⟨hj, _⟩ := hmem
        · exact ⟨s, hused, hsmall, rfl, by simp [hlist]⟩
        · exact absurd rfl hj
    · simp [hj]

/-- The pages for a span hold a block. -/
theorem getSize_le_spanPages (hindex : index < classCount) :
    getSize index ≤ spanPages pf index * pf.systemPageSize := by
  have hpos := pf.page_pos
  have hdvd : ∀ k, 2 ^ k < pf.systemPageSize ∨ pf.systemPageSize ∣ 2 ^ k := by
    intro k
    obtain ⟨l, hl⟩ := pf.page_pow
    rw [hl]
    obtain hlt | hle := Nat.lt_or_ge k l
    · exact .inl (Nat.pow_lt_pow_right (by omega) hlt)
    · exact .inr (Nat.pow_dvd_pow 2 hle)
  -- a target is a power of two, so it is whole pages where it is larger than one
  have htarget : pf.systemPageSize ∣ max pf.systemPageSize (targetBytes (getSize index)) := by
    have hpow : ∃ k, targetBytes (getSize index) = 2 ^ k := by
      unfold targetBytes
      split
      · exact ⟨15, rfl⟩
      · split
        · exact ⟨17, rfl⟩
        · split
          · exact ⟨19, rfl⟩
          · exact ⟨21, rfl⟩
    obtain ⟨k, hk⟩ := hpow
    rw [hk]
    obtain hlt | hk := hdvd k
    · rw [max_eq_left hlt.le]
    · rw [max_eq_right (Nat.le_of_dvd (Nat.two_pow_pos k) hk)]
      exact hk
  have hsize : 0 < getSize index := by
    have := le_getSize hindex
    omega
  have hpages : ∀ target, getSize index ≤ target → pf.systemPageSize ∣ target →
      getSize index ≤
        (if target / pf.systemPageSize = 0 then 1 else target / pf.systemPageSize) *
          pf.systemPageSize := by
    intro target hle hdvd
    have hself := Nat.div_mul_cancel hdvd
    split
    · next hzero =>
      rw [hzero, zero_mul] at hself
      omega
    · rw [hself]
      exact hle
  simp only [spanPages]
  refine hpages _ ?_ ?_
  · split
    · have hmod := Nat.mod_lt (getSize index + pf.systemPageSize - 1) hpos
      have hdiv := Nat.div_add_mod (getSize index + pf.systemPageSize - 1) pf.systemPageSize
      rw [mul_comm] at hdiv
      omega
    · next hle => exact not_lt.mp hle
  · split
    · exact Nat.dvd_mul_left _ _
    · exact htarget

/-- A span of a class has been added, with all its blocks. -/
structure Added (h : Heap) (id : SpanId) (index : ℕ) (blocks : List ℕ) (h' : Heap) : Prop where
  block : ∀ j c a, h'.Block j c a ↔ (j = id ∧ c = index ∧ a ∈ blocks) ∨ h.Block j c a
  large : ∀ j a n, h'.Large j a n ↔ h.Large j a n
  before : h.free id = []
  free : h'.free id = blocks
  others : ∀ j, j ≠ id → h'.free j = h.free j
  fresh : ∀ a ∈ blocks, ∀ j c, ¬ h.Block j c a
  nodup : blocks.Nodup
  keeps : ∀ j, j ≠ id → h.Settled j → h'.Settled j

/-- **Adding a span.**  `createSpan` gives a span of the class, all of whose
blocks are new, or fails without a trace where there is no memory. -/
theorem Sound.createSpan (hs : h.Sound pf) (hindex : index < classCount)
    (hempty : h.partialSpans index = []) {answer : ℕ}
    (hsystem : PageCache.SystemGrants pf h.pages answer
      (PageCache.askedBytes pf (PageCache.wantedPages (spanPages pf index)))) :
    (∃ id h' s, h.createSpan pf answer index = some (some id, h') ∧
        (h'.setPartial index [id]).Sound pf ∧ (h'.setPartial index [id]).pages.Used id s ∧
        s.isLarge = false ∧ s.sizeClass = index ∧
        Added h id index s.blocks (h'.setPartial index [id])) ∨
      (h.createSpan pf answer index = some (none, h) ∧
        h.pages.NoneFits (PageCache.wantedPages (spanPages pf index)) ∧
        PageCache.SystemRefuses pf answer (PageCache.wantedPages (spanPages pf index))) := by
  unfold Heap.createSpan
  obtain ⟨id, pages, hcall, hgrant, _⟩ | ⟨hcall, hnone, hrefuse⟩ :=
    hs.pages.allocateSpan (spanPages pf index) hsystem
  · obtain ⟨s, hused, hnum⟩ := hgrant.span
    let n := s.numPages * pf.systemPageSize / getSize index
    have hsize : 0 < getSize index := by
      have := le_getSize hindex
      omega
    have hwant : spanPages pf index ≤ PageCache.wantedPages (spanPages pf index) := by
      unfold PageCache.wantedPages
      split <;> omega
    have hn : n ≠ 0 := by
      have hle : getSize index ≤ s.numPages * pf.systemPageSize :=
        (getSize_le_spanPages hindex).trans (Nat.mul_le_mul_right _ (hwant.trans hnum))
      exact (Nat.div_pos hle hsize).ne'
    let carved := Span.carved index n s
    let h' : Heap := { h with pages := pages.write id (Span.carved index n) }
    let h'' := h'.setPartial index [id]
    have hpages : PageCache.Sound pf h''.pages :=
      hgrant.sound.write hused.1 fun _ => ⟨rfl, rfl, rfl, rfl, rfl⟩
    have hafter : ∀ j t, h''.pages.Used j t ↔
        (j = id ∧ carved = t) ∨ (j ≠ id ∧ h.pages.Used j t) := by
      intro j t
      refine (used_write hused rfl).trans (or_congr Iff.rfl (and_congr_right ?_))
      exact fun hj => hgrant.others j t hj
    have hnew : h''.pages.Used id carved := (hafter id _).mpr (.inl ⟨rfl, rfl⟩)
    have hback : ∀ {j t}, h.pages.Used j t → j ≠ id ∧ h''.pages.Used j t := by
      intro j t ht
      have hj : j ≠ id := fun hj => hgrant.fresh t (hj ▸ ht)
      exact ⟨hj, (hafter j t).mpr (.inr ⟨hj, ht⟩)⟩
    have hblocks : carved.freeList = carved.blocks := rfl
    have hsmall : carved.Small pf := by
      refine ⟨hindex, rfl, Nat.div_mul_le_self _ _, ?_, le_refl _, fun a ha => ha⟩
      exact length_blocksFrom.symm
    have hsound : h''.Sound pf := by
      refine ⟨hpages, ?_, ?_, ?_, nodup_setPartial (List.nodup_singleton id) hs.linked_nodup⟩
      · intro j t ht htsmall
        obtain ⟨rfl, rfl⟩ | ⟨_, ht⟩ := (hafter j t).mp ht
        · exact hsmall
        · exact hs.small j t ht htsmall
      · intro j t ht htlarge
        obtain ⟨rfl, rfl⟩ | ⟨_, ht⟩ := (hafter j t).mp ht
        · cases htlarge
        · exact hs.large j t ht htlarge
      · intro i j
        rw [mem_setPartial]
        constructor
        · intro hmem
          obtain ⟨rfl, hj⟩ | ⟨_, hmem⟩ := hmem
          · obtain rfl := List.mem_singleton.mp hj
            refine ⟨carved, hnew, rfl, rfl, ?_⟩
            intro hnil
            have hlength := hsmall.count
            rw [hnil] at hlength
            exact hn hlength
          · obtain ⟨t, ht, hrest⟩ := (hs.linked i j).mp hmem
            exact ⟨t, (hback ht).2, hrest⟩
        · intro hmem
          obtain ⟨t, ht, hrest⟩ := hmem
          obtain ⟨rfl, rfl⟩ | ⟨_, ht⟩ := (hafter j t).mp ht
          · exact .inl ⟨hrest.2.1.symm, List.mem_singleton_self _⟩
          · have hmem := (hs.linked i j).mpr ⟨t, ht, hrest⟩
            refine .inr ⟨?_, hmem⟩
            intro hi
            rw [hi, hempty] at hmem
            cases hmem
    have hblock : ∀ j c a, h''.Block j c a ↔
        (j = id ∧ c = index ∧ a ∈ carved.blocks) ∨ h.Block j c a := by
      intro j c a
      constructor
      · intro hb
        obtain ⟨t, ht, htsmall, rfl, ha⟩ := hb
        obtain ⟨rfl, rfl⟩ | ⟨_, ht⟩ := (hafter j t).mp ht
        · exact .inl ⟨rfl, rfl, ha⟩
        · exact .inr ⟨t, ht, htsmall, rfl, ha⟩
      · intro hb
        obtain ⟨rfl, rfl, ha⟩ | ⟨t, ht, hrest⟩ := hb
        · exact ⟨carved, hnew, rfl, rfl, ha⟩
        · exact ⟨t, (hback ht).2, hrest⟩
    refine .inl ⟨id, h', carved, ?_, hsound, hnew, rfl, rfl, ?_⟩
    · simp only [hcall, hused.1]
      exact if_neg hn
    · refine ⟨hblock, ?_, free_of_not_used hgrant.fresh, free_of_used hnew rfl, ?_, ?_,
        nodup_blocksFrom hsize n, ?_⟩
      · intro j a m
        constructor
        · intro hl
          obtain ⟨t, ht, htlarge, hrest⟩ := hl
          obtain ⟨rfl, rfl⟩ | ⟨_, ht⟩ := (hafter j t).mp ht
          · cases htlarge
          · exact ⟨t, ht, htlarge, hrest⟩
        · intro hl
          obtain ⟨t, ht, hrest⟩ := hl
          exact ⟨t, (hback ht).2, hrest⟩
      · intro j hj
        refine free_congr ?_
        intro t
        rw [hafter]
        simp [hj]
      · intro a ha j c hb
        have hid : h''.Block id index a := (hblock id index a).mpr (.inl ⟨rfl, rfl, ha⟩)
        obtain ⟨rfl, _⟩ := hsound.block_unique hid ((hblock j c a).mpr (.inr hb))
        obtain ⟨t, ht, _⟩ := hb
        exact hgrant.fresh t ht
      · intro j hj hsettled t ht htsmall
        obtain ⟨rfl, _⟩ | ⟨_, ht⟩ := (hafter j t).mp ht
        · exact absurd rfl hj
        · exact hsettled t ht htsmall
  · refine .inr ⟨?_, hnone, hrefuse⟩
    rw [hcall]

/-- What a turn of `fetchRange` does when it gets a block. -/
structure Fetched (pf : Platform) (h : Heap) (index obj : ℕ) (h' : Heap) : Prop where
  sound : h'.Sound pf
  settled : ∀ j, h'.Settled j
  turn : ∃ id h₁, h₁.Block id index obj ∧ Took h₁ id obj h' ∧ h₁.Sound pf ∧
    (h₁ = h ∨ ∃ blocks, Added h id index blocks h₁)

/-- **A turn of `fetchRange`** takes a block, of a span that is there or of a new
one, or finds no memory. -/
theorem Sound.fetchTurn (hs : h.Sound pf) (hsettled : ∀ j, h.Settled j)
    (hindex : index < classCount) {answer : ℕ}
    (hsystem : PageCache.SystemGrants pf h.pages answer
      (PageCache.askedBytes pf (PageCache.wantedPages (spanPages pf index)))) :
    (∃ obj h', h.fetchTurn pf answer index = some (some obj, h') ∧
        Fetched pf h index obj h') ∨
      (h.fetchTurn pf answer index = some (none, h) ∧
        h.pages.NoneFits (PageCache.wantedPages (spanPages pf index)) ∧
        PageCache.SystemRefuses pf answer (PageCache.wantedPages (spanPages pf index))) := by
  unfold Heap.fetchTurn
  cases hlink : h.partialSpans index with
  | cons id rest =>
      obtain ⟨s, hused, hsmall, rfl, _⟩ :=
        (hs.linked index id).mp (hlink ▸ List.mem_cons_self)
      obtain ⟨obj, h', hcall, hsound, htook⟩ := hs.takeBlock hused hsmall hlink
      refine .inl ⟨obj, h', hcall, hsound, ?_, id, h, ?_, htook, hs, .inl rfl⟩
      · intro j
        by_cases hj : j = id
        · exact hj ▸ htook.settled
        · exact htook.keeps j hj (hsettled j)
      · have hmem : obj ∈ h.free id := htook.free ▸ List.mem_cons_self
        rw [free_of_used hused hsmall] at hmem
        exact ⟨s, hused, hsmall, rfl, (hs.small id s hused hsmall).sub obj hmem⟩
  | nil =>
      obtain ⟨id, h₁, s, hcreate, hsound₁, hused, hsmall, rfl, hadded⟩ | ⟨hcreate, hfail⟩ :=
        hs.createSpan hindex hlink hsystem
      · have hlink₁ : (h₁.setPartial s.sizeClass [id]).partialSpans s.sizeClass = [id] :=
          if_pos rfl
        obtain ⟨obj, h', hcall, hsound, htook⟩ := hsound₁.takeBlock hused hsmall hlink₁
        have hmem : obj ∈ s.blocks := hadded.free ▸ htook.free ▸ List.mem_cons_self
        refine .inl ⟨obj, h', ?_, hsound, ?_, id, _,
          (hadded.block _ _ _).mpr (.inl ⟨rfl, rfl, hmem⟩), htook, hsound₁,
          .inr ⟨s.blocks, hadded⟩⟩
        · simp only [hcreate]
          exact hcall
        · intro j
          by_cases hj : j = id
          · exact hj ▸ htook.settled
          · exact htook.keeps j hj (hadded.keeps j hj (hsettled j))
      · refine .inr ⟨?_, hfail⟩
        simp only [hcreate]

/-! ## Turns of `returnRange` -/

/-- A block was put on its span's list. -/
structure Put (h : Heap) (id : SpanId) (cur : ℕ) (h' : Heap) : Prop where
  same : SameBlocks h' h
  free : h'.free id = cur :: h.free id

/-- A span was given up with all its blocks. -/
structure Dropped (h : Heap) (id : SpanId) (h' : Heap) : Prop where
  block : ∀ j c a, h'.Block j c a ↔ j ≠ id ∧ h.Block j c a
  large : ∀ j a n, h'.Large j a n ↔ h.Large j a n
  free : h'.free id = []

/-- What a turn of `returnRange` does with the span of its block. -/
structure Returned (pf : Platform) (h : Heap) (id : SpanId) (cur : ℕ) (h' : Heap) : Prop where
  sound : h'.Sound pf
  settled : h'.Settled id
  others : ∀ j, j ≠ id → h'.free j = h.free j
  keeps : ∀ j, j ≠ id → h.Settled j → h'.Settled j
  turn : Put h id cur h' ∨
    Dropped h id h' ∧ ∃ s, h.pages.Used id s ∧ s.isLarge = false ∧
      (h.free id).length + 1 = s.blockCount

/-- **A turn of `returnRange`** puts the block on the list of its span; when that
has all its blocks, the span goes back to the page cache. -/
theorem Sound.returnTurn (hs : h.Sound pf) {cur : ℕ} (hblock : h.Block id index cur)
    (hsettled : h.Settled id) :
    ∃ h', h.returnTurn pf index cur = some h' ∧ Returned pf h id cur h' := by
  have hfind := hs.find_block hblock
  obtain ⟨s, hused, hsmall, rfl, ha⟩ := hblock
  have hcarved := hs.small id s hused hsmall
  have hlt := hsettled s hused hsmall
  have hcount := hcarved.count
  let f : Span → Span := fun s => { s with freeList := cur :: s.freeList, freeCount := s.freeCount + 1 }
  let pages := h.pages.write id f
  have hcut : ∀ t : Span, (f t).SameCut t :=
    fun t => ⟨⟨rfl, rfl, rfl, rfl, rfl⟩, rfl, rfl, rfl, rfl⟩
  have hpages : PageCache.Sound pf pages := hs.pages.write hused.1 fun t => (hcut t).toSameLayout
  have hafter : ∀ j t, pages.Used j t ↔ (j = id ∧ f s = t) ∨ (j ≠ id ∧ h.pages.Used j t) :=
    fun j t => used_write hused rfl
  have hnew : pages.Used id (f s) := (hafter id _).mpr (.inl ⟨rfl, rfl⟩)
  -- a heap with the written pages, whose lists have the span once
  have hput : ∀ h' : Heap, h'.pages = pages → s.freeCount + 1 < s.blockCount →
      (∀ i, (h'.partialSpans i).Nodup) →
      (∀ i j, j ∈ h'.partialSpans i ↔
        (j = id ∧ i = s.sizeClass) ∨ (j ≠ id ∧ j ∈ h.partialSpans i)) →
      Returned pf h id cur h' := by
    intro h' hp hroom hnodup hmem
    have hfits : (f s).Small pf := by
      refine ⟨hcarved.class_lt, hcarved.size, hcarved.fits, ?_, hroom.le, ?_⟩
      · show s.freeCount + 1 = (cur :: s.freeList).length
        rw [List.length_cons, hcount]
      · intro a hmem
        obtain rfl | hmem := List.mem_cons.mp hmem
        · exact ha
        · exact hcarved.sub a hmem
    obtain ⟨hsound, hrelisted⟩ := hs.relist hused hsmall hcut hfits hp hnodup fun i j =>
      (hmem i j).trans (by simp [f])
    refine ⟨hsound, hrelisted.settled hroom, hrelisted.others, hrelisted.keeps,
      .inl ⟨hrelisted.same, ?_⟩⟩
    rw [hrelisted.free, free_of_used hused hsmall]
  have hclass : ∀ {i}, id ∈ h.partialSpans i → i = s.sizeClass := by
    intro i hmem
    obtain ⟨t, ht, _, hclass, _⟩ := (hs.linked i id).mp hmem
    exact (hused.unique ht ▸ hclass).symm
  unfold Heap.returnTurn
  simp only [hfind, hused.1, ne_eq, not_true_eq_false, if_false]
  split
  · next hfull =>
    -- all blocks are back
    obtain ⟨pages', hcall, hsound', hused'⟩ := hpages.deallocateSpan hnew
    have hafter' : ∀ j t, pages'.Used j t ↔ j ≠ id ∧ h.pages.Used j t := by
      intro j t
      rw [hused', hafter]
      constructor
      · intro hj
        obtain ⟨hj, ⟨rfl, _⟩ | ht⟩ := hj
        · exact absurd rfl hj
        · exact ht
      · exact fun hj => ⟨hj.1, .inr hj⟩
    refine ⟨_, by rw [show h.pages.write id _ = pages from rfl, hcall]; rfl, ?_⟩
    refine ⟨⟨hsound', ?_, ?_, ?_, ?_⟩, ?_, ?_, ?_, .inr ⟨⟨?_, ?_, ?_⟩, s, hused, hsmall, ?_⟩⟩
    · exact fun j t ht => hs.small j t ((hafter' j t).mp ht).2
    · exact fun j t ht => hs.large j t ((hafter' j t).mp ht).2
    · intro i j
      refine mem_setPartial.trans ?_
      rw [(hs.linked_nodup s.sizeClass).mem_erase_iff]
      constructor
      · intro hmem
        have hne : j ≠ id := by
          intro hj
          obtain hmem | hmem := hmem
          · exact hmem.2.1 hj
          · exact hmem.1 (hclass (hj ▸ hmem.2))
        have hmem : j ∈ h.partialSpans i := by
          obtain ⟨rfl, hmem⟩ | hmem := hmem
          · exact hmem.2
          · exact hmem.2
        obtain ⟨t, ht, hrest⟩ := (hs.linked i j).mp hmem
        exact ⟨t, (hafter' j t).mpr ⟨hne, ht⟩, hrest⟩
      · intro hmem
        obtain ⟨t, ht, hrest⟩ := hmem
        obtain ⟨hne, ht⟩ := (hafter' j t).mp ht
        have hmem := (hs.linked i j).mpr ⟨t, ht, hrest⟩
        by_cases hi : i = s.sizeClass
        · exact .inl ⟨hi, hne, hi ▸ hmem⟩
        · exact .inr ⟨hi, hmem⟩
    · exact nodup_setPartial ((hs.linked_nodup _).erase _) hs.linked_nodup
    · intro t ht
      exact absurd rfl ((hafter' id t).mp ht).1
    · intro j hj
      refine free_congr ?_
      intro t
      exact (hafter' j t).trans (and_iff_right hj)
    · exact fun j _ hsettled t ht => hsettled t ((hafter' j t).mp ht).2
    · intro j c a
      constructor
      · intro hb
        obtain ⟨t, ht, hrest⟩ := hb
        obtain ⟨hj, ht⟩ := (hafter' j t).mp ht
        exact ⟨hj, t, ht, hrest⟩
      · intro hb
        obtain ⟨hj, t, ht, hrest⟩ := hb
        exact ⟨t, (hafter' j t).mpr ⟨hj, ht⟩, hrest⟩
    · intro j a n
      constructor
      · intro hl
        obtain ⟨t, ht, hrest⟩ := hl
        exact ⟨t, ((hafter' j t).mp ht).2, hrest⟩
      · intro hl
        obtain ⟨t, ht, htlarge, hrest⟩ := hl
        have hj : j ≠ id := by
          intro hj
          obtain rfl := hused.unique (hj ▸ ht)
          exact absurd (hsmall.symm.trans htlarge) Bool.false_ne_true
        exact ⟨t, (hafter' j t).mpr ⟨hj, ht⟩, htlarge, hrest⟩
    · exact free_of_not_used fun t ht => absurd rfl ((hafter' id t).mp ht).1
    · rw [free_of_used hused hsmall, ← hcount]
      exact hfull
  · next hnotfull =>
    have hroom : s.freeCount + 1 < s.blockCount := by omega
    split
    · next hzero =>
      -- the span had no block left, and goes back on the list
      have hnil : s.freeList = [] := List.length_eq_zero_iff.mp (hcount.symm.trans hzero)
      have hnot : ∀ i, id ∉ h.partialSpans i := by
        intro i hmem
        obtain ⟨t, ht, _, _, hne⟩ := (hs.linked i id).mp hmem
        exact hne (hused.unique ht ▸ hnil)
      refine ⟨_, rfl, hput _ rfl hroom
        (nodup_setPartial (List.nodup_cons.mpr ⟨hnot _, hs.linked_nodup _⟩) hs.linked_nodup) ?_⟩
      intro i j
      refine mem_setPartial.trans ?_
      by_cases hj : j = id
      · subst hj
        simp [hnot]
      · by_cases hi : i = s.sizeClass
        · subst hi
          simp [hj]
        · simp [hj, hi]
    · next hpos =>
      have hmem : id ∈ h.partialSpans s.sizeClass := by
        refine (hs.linked _ _).mpr ⟨s, hused, hsmall, rfl, ?_⟩
        intro hnil
        rw [hnil] at hcount
        exact hpos hcount
      refine ⟨_, rfl, hput _ rfl hroom hs.linked_nodup ?_⟩
      intro i j
      by_cases hj : j = id
      · subst hj
        constructor
        · exact fun hmem => .inl ⟨rfl, hclass hmem⟩
        · intro hi
          obtain ⟨_, rfl⟩ | ⟨hne, _⟩ := hi
          · exact hmem
          · exact absurd rfl hne
      · simp [hj]

/-! ## Large requests -/

/-- What a large request does. -/
structure GrantedLarge (pf : Platform) (h : Heap) (ptr size : ℕ) (h' : Heap) : Prop where
  sound : h'.Sound pf
  nonnull : ptr ≠ 0
  block : ∀ j c a, h'.Block j c a ↔ h.Block j c a
  free : ∀ j, h'.free j = h.free j
  settled : ∀ j, h.Settled j → h'.Settled j
  large : ∃ id, (∀ a n, ¬ h.Large id a n) ∧
    ∀ j a n, h'.Large j a n ↔ (j = id ∧ a = ptr ∧ n = size) ∨ h.Large j a n

/-- **A large request** gets a span of its own, or fails without a trace. -/
theorem Sound.allocateLarge (hs : h.Sound pf) {size answer : ℕ} (hsize : maxBytes < size)
    (hsystem : PageCache.SystemGrants pf h.pages answer (PageCache.askedBytes pf
      (PageCache.wantedPages ((size + pf.systemPageSize - 1) / pf.systemPageSize)))) :
    (∃ ptr h', Kama.allocateLarge pf answer h size = some (ptr, h') ∧
        GrantedLarge pf h ptr size h') ∨
      (Kama.allocateLarge pf answer h size = some (0, h) ∧
        (sizeMax - (pf.systemPageSize - 1) < size ∨
          h.pages.NoneFits (PageCache.wantedPages
            ((size + pf.systemPageSize - 1) / pf.systemPageSize)) ∧
          PageCache.SystemRefuses pf answer (PageCache.wantedPages
            ((size + pf.systemPageSize - 1) / pf.systemPageSize)))) := by
  unfold Kama.allocateLarge
  split
  · next hoverflow => exact .inr ⟨rfl, .inl hoverflow⟩
  · obtain ⟨id, pages, hcall, hgrant, _⟩ | ⟨hcall, hfail⟩ :=
      hs.pages.allocateSpan ((size + pf.systemPageSize - 1) / pf.systemPageSize) hsystem
    · obtain ⟨s, hused, hnum⟩ := hgrant.span
      let written := Span.large size s
      let h' : Heap := { h with pages := pages.write id (Span.large size) }
      have hpages : PageCache.Sound pf h'.pages :=
        hgrant.sound.write hused.1 fun _ => ⟨rfl, rfl, rfl, rfl, rfl⟩
      have hafter : ∀ j t, h'.pages.Used j t ↔
          (j = id ∧ written = t) ∨ (j ≠ id ∧ h.pages.Used j t) := by
        intro j t
        refine (used_write hused rfl).trans (or_congr Iff.rfl (and_congr_right ?_))
        exact fun hj => hgrant.others j t hj
      have hnew : h'.pages.Used id written := (hafter id _).mpr (.inl ⟨rfl, rfl⟩)
      have hback : ∀ {j t}, h.pages.Used j t → j ≠ id ∧ h'.pages.Used j t := by
        intro j t ht
        have hj : j ≠ id := fun hj => hgrant.fresh t (hj ▸ ht)
        exact ⟨hj, (hafter j t).mpr (.inr ⟨hj, ht⟩)⟩
      have hsmallback : ∀ {j t}, h'.pages.Used j t → t.isLarge = false →
          h.pages.Used j t := by
        intro j t ht htsmall
        obtain ⟨_, rfl⟩ | ⟨_, ht⟩ := (hafter j t).mp ht
        · cases htsmall
        · exact ht
      have hfits : size ≤ s.numPages * pf.systemPageSize := by
        have hpos := pf.page_pos
        have hmod := Nat.mod_lt (size + pf.systemPageSize - 1) hpos
        have hdiv := Nat.div_add_mod (size + pf.systemPageSize - 1) pf.systemPageSize
        have hle : (size + pf.systemPageSize - 1) / pf.systemPageSize ≤ s.numPages := by
          refine le_trans ?_ hnum
          unfold PageCache.wantedPages
          split <;> omega
        have hmul := Nat.mul_le_mul_right pf.systemPageSize hle
        rw [mul_comm] at hdiv
        omega
      refine .inl ⟨s.pageAddr, h', by simp only [hcall, hused.1]; rfl, ?_⟩
      refine ⟨⟨hpages, ?_, ?_, ?_, hs.linked_nodup⟩, ?_, ?_, ?_, ?_, id, ?_, ?_⟩
      · exact fun j t ht htsmall => hs.small j t (hsmallback ht htsmall) htsmall
      · intro j t ht htlarge
        obtain ⟨_, rfl⟩ | ⟨_, ht⟩ := (hafter j t).mp ht
        · exact ⟨hsize, hfits⟩
        · exact hs.large j t ht htlarge
      · intro i j
        refine (hs.linked i j).trans ?_
        constructor
        · intro hmem
          obtain ⟨t, ht, hrest⟩ := hmem
          exact ⟨t, (hback ht).2, hrest⟩
        · intro hmem
          obtain ⟨t, ht, htsmall, hrest⟩ := hmem
          exact ⟨t, hsmallback ht htsmall, htsmall, hrest⟩
      · have hplaced := hgrant.sound.placed id s hused.1
        have hnonnull := (hgrant.sound.pages _ hplaced.origin).nonnull
        have hstart := hplaced.start
        simp only at hnonnull
        omega
      · intro j c a
        constructor
        · intro hb
          obtain ⟨t, ht, htsmall, hrest⟩ := hb
          exact ⟨t, hsmallback ht htsmall, htsmall, hrest⟩
        · intro hb
          obtain ⟨t, ht, hrest⟩ := hb
          exact ⟨t, (hback ht).2, hrest⟩
      · intro j
        by_cases hj : j = id
        · subst hj
          rw [free_of_large hnew rfl, free_of_not_used hgrant.fresh]
        · refine free_congr ?_
          intro t
          rw [hafter]
          simp [hj]
      · exact fun j hsettled t ht htsmall => hsettled t (hsmallback ht htsmall) htsmall
      · intro a n hl
        obtain ⟨t, ht, _⟩ := hl
        exact hgrant.fresh t ht
      · intro j a n
        constructor
        · intro hl
          obtain ⟨t, ht, htlarge, rfl, rfl⟩ := hl
          obtain ⟨rfl, rfl⟩ | ⟨_, ht⟩ := (hafter j t).mp ht
          · exact .inl ⟨rfl, rfl, rfl⟩
          · exact .inr ⟨t, ht, htlarge, rfl, rfl⟩
        · intro hl
          obtain ⟨rfl, rfl, rfl⟩ | ⟨t, ht, hrest⟩ := hl
          · exact ⟨written, hnew, rfl, rfl, rfl⟩
          · exact ⟨t, (hback ht).2, hrest⟩
    · refine .inr ⟨?_, .inr hfail⟩
      rw [hcall]

/-- What the return of a large block does. -/
structure ReturnedLarge (pf : Platform) (h : Heap) (id : SpanId) (h' : Heap) : Prop where
  sound : h'.Sound pf
  block : ∀ j c a, h'.Block j c a ↔ h.Block j c a
  free : ∀ j, h'.free j = h.free j
  settled : ∀ j, h.Settled j → h'.Settled j
  large : ∀ j a n, h'.Large j a n ↔ j ≠ id ∧ h.Large j a n

/-- **A large block** takes its span with it. -/
theorem Sound.deallocateLarge (hs : h.Sound pf) (hused : h.pages.Used id s)
    (hlarge : s.isLarge = true) :
    ∃ pages, h.pages.deallocateSpan pf id = some pages ∧
      ReturnedLarge pf h id { h with pages := pages } := by
  obtain ⟨pages, hcall, hsound, hafter⟩ := hs.pages.deallocateSpan hused
  have hsmall : ∀ j t, t.isLarge = false → (pages.Used j t ↔ h.pages.Used j t) := by
    intro j t htsmall
    refine (hafter j t).trans (and_iff_right_of_imp ?_)
    intro ht hj
    obtain rfl := hused.unique (hj ▸ ht)
    exact absurd (htsmall.symm.trans hlarge) Bool.false_ne_true
  refine ⟨pages, hcall, ⟨hsound, ?_, ?_, ?_, hs.linked_nodup⟩, ?_, ?_, ?_, ?_⟩
  · exact fun j t ht htsmall => hs.small j t ((hsmall j t htsmall).mp ht) htsmall
  · exact fun j t ht => hs.large j t ((hafter j t).mp ht).2
  · intro i j
    refine (hs.linked i j).trans (exists_congr fun t => ?_)
    constructor
    · exact fun hmem => ⟨(hsmall j t hmem.2.1).mpr hmem.1, hmem.2⟩
    · exact fun hmem => ⟨(hsmall j t hmem.2.1).mp hmem.1, hmem.2⟩
  · intro j c a
    refine exists_congr fun t => ?_
    constructor
    · exact fun hb => ⟨(hsmall j t hb.2.1).mp hb.1, hb.2⟩
    · exact fun hb => ⟨(hsmall j t hb.2.1).mpr hb.1, hb.2⟩
  · intro j
    by_cases hj : j = id
    · subst hj
      rw [free_of_large hused hlarge]
      exact free_of_not_used fun t ht => absurd rfl ((hafter j t).mp ht).1
    · refine free_congr ?_
      intro t
      exact (hafter j t).trans (and_iff_right hj)
  · exact fun j hsettled t ht htsmall => hsettled t ((hsmall j t htsmall).mp ht) htsmall
  · intro j a n
    constructor
    · intro hl
      obtain ⟨t, ht, hrest⟩ := hl
      obtain ⟨hj, ht⟩ := (hafter j t).mp ht
      exact ⟨hj, t, ht, hrest⟩
    · intro hl
      obtain ⟨hj, t, ht, hrest⟩ := hl
      exact ⟨t, (hafter j t).mpr ⟨hj, ht⟩, hrest⟩

end Heap

end Gpuforge.Kama

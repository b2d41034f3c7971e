import Gpuforge.PageCache

/-!
# What the page cache keeps

Seen from its memory, the cache is a set of mappings cut into spans: each
address of a mapping finds one span, and the span lies in the mapping.  Seen
from its lists, the free lists have the free spans, each under its size.

Two clauses say what joining is for.  No free span is followed by a free span of
its mapping, and the mappings that are kept though they are free as a whole stay
within a bound.  All clauses hold between the steps of `deallocateSpan` too,
where the span that comes back is neither used nor listed.
-/

namespace Gpuforge.Kama

open ObjectTable SortedBuckets SegmentTable

variable {pf : Platform}

theorem Platform.page_pos (pf : Platform) : 0 < pf.systemPageSize :=
  lt_of_lt_of_le (by decide) pf.alignment_le

/-- A page is a number of alignment units. -/
theorem Platform.alignment_dvd (pf : Platform) : alignment ∣ pf.systemPageSize := by
  obtain ⟨k, hk⟩ := pf.page_pow
  have hle : 2 ^ 3 ≤ 2 ^ k := hk ▸ pf.alignment_le
  rw [hk]
  exact Nat.pow_dvd_pow 2 ((Nat.pow_le_pow_iff_right (by omega)).mp hle)

theorem Platform.page_dvd (pf : Platform) : pf.systemPageSize ∣ pf.systemAllocGranularity := by
  obtain ⟨k, hk⟩ := pf.page_pow
  obtain ⟨l, hl⟩ := pf.granularity_pow
  have hle := pf.page_le
  rw [hk, hl] at *
  exact Nat.pow_dvd_pow 2 ((Nat.pow_le_pow_iff_right (by omega)).mp hle)

/-- The bytes of a mapping. -/
def region (r : ℕ × ℕ) : Segment := ⟨r.1, r.2⟩

/-- Mappings with no byte in common. -/
def Separate (r r' : ℕ × ℕ) : Prop := (region r).Apart (region r')

instance : Std.Symm Separate := ⟨fun _ _ h => Segment.Apart.symm h⟩

variable (pf)

/-- The bytes of a span. -/
def Span.bytes (s : Span) : Segment := ⟨s.pageAddr, s.numPages * pf.systemPageSize⟩

/-- Where a span lies: at a page, in its mapping. -/
structure Span.Placed (allocs : List (ℕ × ℕ)) (s : Span) : Prop where
  page : pf.systemPageSize ∣ s.pageAddr
  origin : (s.originAddr, s.originPages * pf.systemPageSize) ∈ allocs
  start : s.originAddr ≤ s.pageAddr
  stop : s.stop pf ≤ s.originAddr + s.originPages * pf.systemPageSize

/-- A mapping is not at null, not empty, and made of pages. -/
structure WholePages (r : ℕ × ℕ) : Prop where
  nonnull : 0 < r.1
  nonempty : 0 < r.2
  page : pf.systemPageSize ∣ r.1
  pages : pf.systemPageSize ∣ r.2

/-- The pages a span has on the free lists. -/
def Span.freePages (s : Span) : ℕ := if s.inFreeList then s.numPages else 0

/-- The pages of a mapping that is kept though no part of it is used. -/
def Span.idlePages (s : Span) : ℕ := if s.inFreeList ∧ s.Whole then s.numPages else 0

/-- One span follows another in a mapping. -/
def Span.Follows (t s : Span) : Prop := t.pageAddr = s.stop pf ∧ t.originAddr = s.originAddr

/-- The fields the page cache goes by are the same. -/
structure Span.SameLayout (t s : Span) : Prop where
  pageAddr : t.pageAddr = s.pageAddr
  numPages : t.numPages = s.numPages
  originAddr : t.originAddr = s.originAddr
  originPages : t.originPages = s.originPages
  inFreeList : t.inFreeList = s.inFreeList

theorem Span.SameLayout.whole_iff {s t : Span} (h : t.SameLayout s) : t.Whole ↔ s.Whole := by
  rw [Span.Whole, Span.Whole, h.pageAddr, h.numPages, h.originAddr, h.originPages]

theorem Span.SameLayout.idlePages {s t : Span} (h : t.SameLayout s) : t.idlePages = s.idlePages :=
  if_congr (and_congr (by rw [h.inFreeList]) h.whole_iff) h.numPages rfl

variable {pf} in
theorem Span.Placed.congr {allocs : List (ℕ × ℕ)} {s t : Span} (h : s.Placed pf allocs)
    (hpage : t.pageAddr = s.pageAddr) (hnum : t.numPages = s.numPages)
    (horigin : t.originAddr = s.originAddr) (hpages : t.originPages = s.originPages) :
    t.Placed pf allocs where
  page := hpage ▸ h.page
  origin := horigin ▸ hpages ▸ h.origin
  start := horigin ▸ hpage ▸ h.start
  stop := by
    have hstop := h.stop
    rw [Span.stop] at *
    rw [hpage, hnum, horigin, hpages]
    exact hstop

namespace PageCache

/-- The mappings and the spans in them. -/
structure Paged (pc : PageCache) : Prop where
  exact : Exact (Span.segment pf) pc.pageMap pc.spans
  placed : ∀ id s, pc.spans.get id = some s → s.Placed pf pc.systemAllocs
  pages : ∀ r ∈ pc.systemAllocs, WholePages pf r
  apart : pc.systemAllocs.Pairwise Separate
  covered : ∀ r ∈ pc.systemAllocs, ∀ a, (region r).Holds a →
    ∃ id, pc.findSpanLocked pf a = some id
  mapped : pc.mapped = pc.systemAllocs

/-- **The invariant of the page cache.** -/
structure Sound (pc : PageCache) : Prop extends Paged pf pc where
  listed : ∀ k id, (k, id) ∈ pc.freeSpans.content ↔
    ∃ s, pc.spans.get id = some s ∧ s.inFreeList = true ∧ s.numPages = k
  nodup : pc.freeSpans.content.Nodup
  cached : pc.cachedFreePages = pc.spans.tally Span.freePages
  reserved : pc.reservedBytes = pc.spans.tally Span.numPages * pf.systemPageSize
  idle : pc.spans.tally Span.idlePages ≤ maxCachedPages pf
  coalesced : ∀ i j s t, pc.spans.get i = some s → pc.spans.get j = some t →
    s.inFreeList = true → t.inFreeList = true → ¬ t.Follows pf s

/-- A span that is used: it is there and not free. -/
def Used (pc : PageCache) (id : SpanId) (s : Span) : Prop :=
  pc.spans.get id = some s ∧ s.inFreeList = false

variable {pf}

theorem sound_new : Sound pf PageCache.new where
  exact := exact_empty
  placed := fun _ _ h => nomatch h
  pages := fun _ h => nomatch h
  apart := .nil
  covered := fun _ h => nomatch h
  mapped := rfl
  listed := by
    intro k id
    constructor
    · exact fun h => nomatch h
    · intro h
      obtain ⟨s, hs, _⟩ := h
      cases hs
  nodup := .nil
  cached := by simp [PageCache.new]
  reserved := by simp [PageCache.new, reservedBytes]
  idle := by simp [PageCache.new]
  coalesced := fun _ _ _ _ h => nomatch h

/-! ## Addresses and pages -/

/-- A span at a page has the address if it has the address's page. -/
theorem segment_holds_iff {s : Span} (h : pf.systemPageSize ∣ s.pageAddr) (a : ℕ) :
    (s.segment pf).Holds (pageId pf a) ↔ (s.bytes pf).Holds a := by
  have hpos := pf.page_pos
  obtain ⟨k, hk⟩ := h
  have hfirst : pageId pf s.pageAddr = k := by rw [pageId, hk, Nat.mul_div_cancel_left k hpos]
  simp only [Segment.Holds, Span.segment, Span.bytes, hfirst]
  rw [hk, pageId, Nat.le_div_iff_mul_le hpos, Nat.div_lt_iff_lt_mul hpos, add_mul, mul_comm k]

/-- The page of a span's end. -/
theorem pageId_stop (s : Span) :
    pageId pf (s.stop pf) = (s.segment pf).first + (s.segment pf).count :=
  Nat.add_mul_div_right _ _ pf.page_pos

variable {pc : PageCache} {i j : SpanId} {s t : Span} {a : ℕ}

/-- **What a lookup finds**: the span that has the address. -/
theorem Paged.find_iff (h : Paged pf pc) :
    pc.findSpanLocked pf a = some i ↔
      ∃ s, pc.spans.get i = some s ∧ (s.bytes pf).Holds a := by
  constructor
  · intro hfind
    obtain ⟨s, hs, hholds⟩ := h.exact.owned _ _ hfind
    exact ⟨s, hs, (segment_holds_iff (h.placed i s hs).page a).mp hholds⟩
  · intro hspan
    obtain ⟨s, hs, hholds⟩ := hspan
    exact h.exact.owns i s _ hs ((segment_holds_iff (h.placed i s hs).page a).mpr hholds)

theorem Paged.numPages_pos (h : Paged pf pc) (hs : pc.spans.get i = some s) : 0 < s.numPages :=
  h.exact.pos i s hs

theorem Paged.bytes_pos (h : Paged pf pc) (hs : pc.spans.get i = some s) :
    0 < (s.bytes pf).count :=
  Nat.mul_pos (h.numPages_pos hs) pf.page_pos

/-- Different spans have no byte in common. -/
theorem Paged.bytes_apart (h : Paged pf pc) (hs : pc.spans.get i = some s)
    (ht : pc.spans.get j = some t) (hij : i ≠ j) : (s.bytes pf).Apart (t.bytes pf) := by
  refine Segment.apart_of_disjoint (h.bytes_pos hs) (h.bytes_pos ht) ?_
  intro a hsa hta
  have hi := h.find_iff.mpr ⟨s, hs, hsa⟩
  rw [h.find_iff.mpr ⟨t, ht, hta⟩] at hi
  exact hij (Option.some.inj hi).symm

/-- Mappings at one address are one mapping. -/
theorem Paged.region_unique (h : Paged pf pc) {r r' : ℕ × ℕ} (hr : r ∈ pc.systemAllocs)
    (hr' : r' ∈ pc.systemAllocs) (haddr : r.1 = r'.1) : r = r' := by
  by_contra hne
  have hapart : Separate r r' := h.apart.forall hr hr' hne
  have hpos := (h.pages r hr).nonempty
  have hpos' := (h.pages r' hr').nonempty
  simp only [Separate, Segment.Apart, region, haddr] at hapart
  omega

/-! ## Writes to the other fields -/

variable {f : Span → Span}

/-- Writes to other fields keep the invariant. -/
theorem Sound.write (h : Sound pf pc) (hs : pc.spans.get i = some s)
    (hf : ∀ s, (f s).SameLayout s) :
    Sound pf { pc with spans := pc.spans.modify i f } := by
  have hback : ∀ k t, (pc.spans.modify i f).get k = some t →
      ∃ t', pc.spans.get k = some t' ∧ t.SameLayout t' := by
    intro k t hk
    obtain ⟨rfl, rfl⟩ | ⟨_, hk⟩ := (get_modify_eq_some hs).mp hk
    · exact ⟨s, hs, hf s⟩
    · exact ⟨t, hk, ⟨rfl, rfl, rfl, rfl, rfl⟩⟩
  have htally : ∀ w : Span → ℕ, w (f s) = w s →
      (pc.spans.modify i f).tally w = pc.spans.tally w := by
    intro w hw
    have := tally_modify (f := f) (w := w) hs
    omega
  have hsame := hf s
  refine { h with
    exact := ?_
    placed := ?_
    listed := ?_
    cached := ?_
    reserved := ?_
    idle := ?_
    coalesced := ?_ }
  · refine h.exact.modify ?_
    intro s
    rw [Span.segment, Span.segment, (hf s).pageAddr, (hf s).numPages]
  · intro k t hk
    obtain ⟨t', ht', hsame⟩ := hback k t hk
    exact Span.Placed.congr (h.placed k t' ht') hsame.pageAddr hsame.numPages
      hsame.originAddr hsame.originPages
  · intro k id
    rw [h.listed]
    constructor
    · intro hlisted
      obtain ⟨t, ht, hfree, hk⟩ := hlisted
      by_cases hid : id = i
      · subst hid
        obtain rfl : s = t := Option.some.inj (hs.symm.trans ht)
        exact ⟨f s, get_modify_of_some hs, hsame.inFreeList.trans hfree, hsame.numPages.trans hk⟩
      · exact ⟨t, (get_modify_ne hid).trans ht, hfree, hk⟩
    · intro hlisted
      obtain ⟨t, ht, hfree, hk⟩ := hlisted
      obtain ⟨t', ht', hsame⟩ := hback id t ht
      exact ⟨t', ht', hsame.inFreeList.symm.trans hfree, hsame.numPages.symm.trans hk⟩
  · rw [htally _ (by simp only [Span.freePages, hsame.inFreeList, hsame.numPages])]
    exact h.cached
  · rw [htally _ hsame.numPages]
    exact h.reserved
  · rw [htally _ hsame.idlePages]
    exact h.idle
  · intro k l r t hk hl hr ht hfollows
    obtain ⟨r', hr', hsr⟩ := hback k r hk
    obtain ⟨t', ht', hst⟩ := hback l t hl
    refine h.coalesced k l r' t' hr' ht' (hsr.inFreeList ▸ hr) (hst.inFreeList ▸ ht) ?_
    rw [Span.Follows, Span.stop, hsr.pageAddr, hst.pageAddr, hsr.numPages, hsr.originAddr,
      hst.originAddr] at hfollows
    exact hfollows

/-! ## The free lists -/

/-- Taking a span off its free list. -/
theorem Sound.take (h : Sound pf pc) (hs : pc.spans.get i = some s) (hfree : s.inFreeList = true) :
    Sound pf (pc.takeSpan s.numPages i s) := by
  have hmem : (s.numPages, i) ∈ pc.freeSpans.content := (h.listed _ _).mpr ⟨s, hs, hfree, rfl⟩
  have hget : ∀ k t, (pc.takeSpan s.numPages i s).spans.get k = some t ↔
      (k = i ∧ { s with inFreeList := false } = t) ∨ (k ≠ i ∧ pc.spans.get k = some t) :=
    fun k t => get_modify_eq_some hs
  have hback : ∀ k t, (pc.takeSpan s.numPages i s).spans.get k = some t →
      t.inFreeList = true → k ≠ i ∧ pc.spans.get k = some t := by
    intro k t hk ht
    obtain ⟨_, rfl⟩ | hk := (hget k t).mp hk
    · cases ht
    · exact hk
  have htally : ∀ w : Span → ℕ,
      (pc.takeSpan s.numPages i s).spans.tally w + w s =
        pc.spans.tally w + w { s with inFreeList := false } :=
    fun w => tally_modify hs
  refine { h with
    exact := h.exact.modify fun _ => rfl
    placed := ?_
    listed := ?_
    nodup := Buckets.nodup_erase h.nodup hmem
    cached := ?_
    reserved := ?_
    idle := ?_
    coalesced := ?_ }
  · intro k t hk
    obtain ⟨rfl, rfl⟩ | ⟨_, hk⟩ := (hget k t).mp hk
    · exact Span.Placed.congr (h.placed _ s hs) rfl rfl rfl rfl
    · exact h.placed k t hk
  · intro n id
    refine (Buckets.mem_erase h.nodup hmem).trans ?_
    rw [h.listed]
    constructor
    · intro hlisted
      obtain ⟨hne, t, ht, htfree, hn⟩ := hlisted
      have hid : id ≠ i := by
        intro hid
        subst hid
        obtain rfl : s = t := Option.some.inj (hs.symm.trans ht)
        exact hne (by rw [hn])
      exact ⟨t, (hget id t).mpr (.inr ⟨hid, ht⟩), htfree, hn⟩
    · intro hlisted
      obtain ⟨t, ht, htfree, hn⟩ := hlisted
      obtain ⟨hid, ht⟩ := hback id t ht htfree
      exact ⟨fun heq => hid (Prod.mk.inj heq).2, t, ht, htfree, hn⟩
  · have hw := htally Span.freePages
    have hself : s.freePages = s.numPages := if_pos hfree
    have hnone : ({ s with inFreeList := false } : Span).freePages = 0 := rfl
    have hcached := h.cached
    show pc.cachedFreePages - s.numPages = _
    omega
  · have hw := htally Span.numPages
    have hreserved := h.reserved
    have hsame : (pc.takeSpan s.numPages i s).spans.tally Span.numPages =
        pc.spans.tally Span.numPages := Nat.add_right_cancel hw
    rw [hsame]
    exact hreserved
  · have hw := htally Span.idlePages
    have hnone : ({ s with inFreeList := false } : Span).idlePages = 0 := rfl
    have hidle := h.idle
    omega
  · intro k l r t hk hl hr ht
    exact h.coalesced k l r t (hback k r hk hr).2 (hback l t hl ht).2 hr ht

/-- Putting a span on its free list, where it has no free neighbour and does not
make too large a mapping idle. -/
theorem Sound.list (h : Sound pf pc) (hs : pc.spans.get i = some s) (hfree : s.inFreeList = false)
    (hnext : ∀ j t, pc.spans.get j = some t → t.inFreeList = true → ¬ t.Follows pf s)
    (hprev : ∀ j t, pc.spans.get j = some t → t.inFreeList = true → ¬ s.Follows pf t)
    (hroom : s.Whole → pc.cachedFreePages + s.numPages ≤ maxCachedPages pf) :
    Sound pf (pc.listSpan i s) := by
  have hnot : (s.numPages, i) ∉ pc.freeSpans.content := by
    intro hmem
    obtain ⟨t, ht, htfree, _⟩ := (h.listed _ _).mp hmem
    obtain rfl : s = t := Option.some.inj (hs.symm.trans ht)
    rw [hfree] at htfree
    cases htfree
  have hget : ∀ k t, (pc.listSpan i s).spans.get k = some t ↔
      (k = i ∧ { s with inFreeList := true } = t) ∨ (k ≠ i ∧ pc.spans.get k = some t) :=
    fun k t => get_modify_eq_some hs
  have htally : ∀ w : Span → ℕ,
      (pc.listSpan i s).spans.tally w + w s =
        pc.spans.tally w + w { s with inFreeList := true } :=
    fun w => tally_modify hs
  refine { h with
    exact := h.exact.modify fun _ => rfl
    placed := ?_
    listed := ?_
    nodup := Buckets.nodup_push h.nodup hnot
    cached := ?_
    reserved := ?_
    idle := ?_
    coalesced := ?_ }
  · intro k t hk
    obtain ⟨rfl, rfl⟩ | ⟨_, hk⟩ := (hget k t).mp hk
    · exact Span.Placed.congr (h.placed _ s hs) rfl rfl rfl rfl
    · exact h.placed k t hk
  · intro n id
    refine Buckets.mem_push.trans ?_
    rw [h.listed]
    constructor
    · intro hlisted
      obtain ⟨rfl, rfl⟩ | ⟨t, ht, htfree, hn⟩ := hlisted
      · exact ⟨_, (hget _ _).mpr (.inl ⟨rfl, rfl⟩), rfl, rfl⟩
      · have hid : id ≠ i := by
          intro hid
          subst hid
          obtain rfl : s = t := Option.some.inj (hs.symm.trans ht)
          rw [hfree] at htfree
          cases htfree
        exact ⟨t, (hget id t).mpr (.inr ⟨hid, ht⟩), htfree, hn⟩
    · intro hlisted
      obtain ⟨t, ht, htfree, hn⟩ := hlisted
      obtain ⟨rfl, rfl⟩ | ⟨_, ht⟩ := (hget id t).mp ht
      · exact .inl ⟨hn.symm, rfl⟩
      · exact .inr ⟨t, ht, htfree, hn⟩
  · have hw := htally Span.freePages
    have hself : ({ s with inFreeList := true } : Span).freePages = s.numPages := rfl
    have hnone : s.freePages = 0 := by simp [Span.freePages, hfree]
    have hcached := h.cached
    show pc.cachedFreePages + s.numPages = _
    omega
  · have hw := htally Span.numPages
    have hreserved := h.reserved
    have hsame : (pc.listSpan i s).spans.tally Span.numPages =
        pc.spans.tally Span.numPages := Nat.add_right_cancel hw
    rw [hsame]
    exact hreserved
  · have hw := htally Span.idlePages
    have hnone : s.idlePages = 0 := by simp [Span.idlePages, hfree]
    have hidle := h.idle
    by_cases hwhole : s.Whole
    · have hself : ({ s with inFreeList := true } : Span).idlePages = s.numPages :=
        if_pos ⟨rfl, hwhole⟩
      -- idle pages are free pages, of which there are few enough
      have hle : pc.spans.tally Span.idlePages ≤ pc.spans.tally Span.freePages := by
        refine tally_mono ?_
        intro k t _
        simp only [Span.idlePages, Span.freePages]
        split
        · next hidle => rw [if_pos hidle.1]
        · exact Nat.zero_le _
      have hroom := hroom hwhole
      have hcached := h.cached
      omega
    · have hself : ({ s with inFreeList := true } : Span).idlePages = 0 :=
        if_neg fun hidle => hwhole hidle.2
      omega
  · intro k l r t hk hl hr ht hfollows
    obtain ⟨rfl, rfl⟩ | ⟨_, hk'⟩ := (hget k r).mp hk
    · obtain ⟨rfl, rfl⟩ | ⟨_, hl'⟩ := (hget l t).mp hl
      · -- a span does not follow itself
        have hpos := h.bytes_pos hs
        have hstop : s.pageAddr = s.pageAddr + s.numPages * pf.systemPageSize := hfollows.1
        simp only [Span.bytes] at hpos
        omega
      · exact hnext l t hl' ht hfollows
    · obtain ⟨rfl, rfl⟩ | ⟨_, hl'⟩ := (hget l t).mp hl
      · exact hprev k r hk' hr hfollows
      · exact h.coalesced k l r t hk' hl' hr ht hfollows

/-! ## Cutting and joining -/

/-- Cutting the end off a span that is not free, and listing it. -/
theorem Sound.split (h : Sound pf pc) (hs : pc.spans.get i = some s) (hfree : s.inFreeList = false)
    {n : ℕ} (hn : 0 < n) (hlt : n < s.numPages)
    (hnext : ∀ j t, pc.spans.get j = some t → t.inFreeList = true → ¬ t.Follows pf s) :
    Sound pf (pc.splitSpan pf i s n) := by
  have hnew : (pc.spans.new (restSpan pf s n)).get i = some s := get_new_of_some hs
  have hget : ∀ k t, (pc.splitSpan pf i s n).spans.get k = some t ↔
      (k = i ∧ { s with numPages := n } = t) ∨
        (k ≠ i ∧ (pc.spans.new (restSpan pf s n)).get k = some t) :=
    fun k t => get_modify_eq_some hnew
  have hfreeback : ∀ k t, (pc.splitSpan pf i s n).spans.get k = some t → t.inFreeList = true →
      (k = pc.spans.next ∧ restSpan pf s n = t) ∨ pc.spans.get k = some t := by
    intro k t hk ht
    obtain ⟨_, rfl⟩ | ⟨_, hk⟩ := (hget k t).mp hk
    · exact absurd (hfree.symm.trans ht) Bool.false_ne_true
    · exact get_new_eq_some.mp hk
  have htally : ∀ w : Span → ℕ, (pc.splitSpan pf i s n).spans.tally w + w s =
      pc.spans.tally w + w (restSpan pf s n) + w { s with numPages := n } := by
    intro w
    have hmod : (pc.splitSpan pf i s n).spans.tally w + w s =
        (pc.spans.new (restSpan pf s n)).tally w + w { s with numPages := n } :=
      tally_modify hnew
    rw [hmod, tally_new]
  have hrestnum : (restSpan pf s n).numPages = s.numPages - n := rfl
  have hplaced := h.placed i s hs
  have hstop : (restSpan pf s n).stop pf = s.stop pf := by
    have hmul : s.numPages * pf.systemPageSize =
        n * pf.systemPageSize + (s.numPages - n) * pf.systemPageSize := by
      rw [← add_mul, Nat.add_sub_cancel' hlt.le]
    simp only [Span.stop, restSpan]
    omega
  have hmul : n * pf.systemPageSize < s.numPages * pf.systemPageSize :=
    Nat.mul_lt_mul_of_pos_right hlt pf.page_pos
  have hmulpos : 0 < n * pf.systemPageSize := Nat.mul_pos hn pf.page_pos
  refine { h with
    exact := ?_
    placed := ?_
    covered := ?_
    listed := ?_
    nodup := ?_
    cached := ?_
    reserved := ?_
    idle := ?_
    coalesced := ?_ }
  · have hrest : (restSpan pf s n).segment pf =
        ⟨(s.segment pf).first + n, (s.segment pf).count - n⟩ :=
      congrArg (Segment.mk · _) (Nat.add_mul_div_right _ _ pf.page_pos)
    let cut : Span → Span := fun s => { s with numPages := n }
    exact h.exact.cut (f := cut) hs rfl hn hrest hlt
  · intro k t hk
    obtain ⟨rfl, rfl⟩ | ⟨_, hk⟩ := (hget k t).mp hk
    · refine ⟨hplaced.page, hplaced.origin, hplaced.start, ?_⟩
      have := hplaced.stop
      simp only [Span.stop] at *
      omega
    · obtain ⟨_, rfl⟩ | hk := get_new_eq_some.mp hk
      · refine ⟨?_, hplaced.origin, ?_, hstop ▸ hplaced.stop⟩
        · exact Nat.dvd_add hplaced.page (Nat.dvd_mul_left _ _)
        · exact hplaced.start.trans (Nat.le_add_right _ _)
      · exact h.placed k t hk
  · intro r hr a ha
    obtain ⟨id, hid⟩ := h.covered r hr a ha
    rw [findSpanLocked] at hid
    obtain ⟨id, hid⟩ := exists_owner_paint (g := (restSpan pf s n).segment pf)
      (j := pc.spans.next) hid
    exact exists_owner_paint hid
  · intro m id
    refine Buckets.mem_push.trans ?_
    rw [h.listed]
    constructor
    · intro hlisted
      obtain ⟨rfl, rfl⟩ | ⟨t, ht, htfree, hm⟩ := hlisted
      · exact ⟨_, (hget _ _).mpr (.inr ⟨(Objects.lt_next hs).ne', get_new_self⟩), rfl, rfl⟩
      · have hid : id ≠ i := by
          intro hid
          subst hid
          obtain rfl : s = t := Option.some.inj (hs.symm.trans ht)
          exact absurd (hfree.symm.trans htfree) Bool.false_ne_true
        exact ⟨t, (hget id t).mpr (.inr ⟨hid, get_new_of_some ht⟩), htfree, hm⟩
    · intro hlisted
      obtain ⟨t, ht, htfree, hm⟩ := hlisted
      obtain ⟨rfl, rfl⟩ | ht := hfreeback id t ht htfree
      · exact .inl ⟨hm.symm, rfl⟩
      · exact .inr ⟨t, ht, htfree, hm⟩
  · refine Buckets.nodup_push h.nodup ?_
    intro hmem
    obtain ⟨t, ht, _⟩ := (h.listed _ _).mp hmem
    exact absurd (Objects.lt_next ht) (lt_irrefl _)
  · have hw := htally Span.freePages
    have hself : s.freePages = 0 := by simp [Span.freePages, hfree]
    have hrest : (restSpan pf s n).freePages = s.numPages - n := rfl
    have hcut : ({ s with numPages := n } : Span).freePages = 0 := by
      simp [Span.freePages, hfree]
    have hcached := h.cached
    show pc.cachedFreePages + (s.numPages - n) = _
    omega
  · have hw := htally Span.numPages
    have hreserved := h.reserved
    have hsame : (pc.splitSpan pf i s n).spans.tally Span.numPages =
        pc.spans.tally Span.numPages := by
      simp only [hrestnum] at hw
      omega
    rw [hsame]
    exact hreserved
  · have hw := htally Span.idlePages
    have hcut : ({ s with numPages := n } : Span).idlePages = 0 := by
      simp [Span.idlePages, hfree]
    have hrest : (restSpan pf s n).idlePages = 0 := by
      refine if_neg ?_
      intro hidle
      have haddr : s.pageAddr + n * pf.systemPageSize = s.originAddr := hidle.2.1
      have hstart := hplaced.start
      omega
    have hidle := h.idle
    omega
  · intro k l r t hk hl hr ht hfollows
    obtain ⟨rfl, rfl⟩ | hk' := hfreeback k r hk hr
    · obtain ⟨rfl, rfl⟩ | hl' := hfreeback l t hl ht
      · have hself : (restSpan pf s n).pageAddr = (restSpan pf s n).stop pf := hfollows.1
        rw [hstop] at hself
        simp only [Span.stop, restSpan] at hself
        omega
      · exact hnext l t hl' ht ⟨hfollows.1.trans hstop, hfollows.2⟩
    · obtain ⟨rfl, rfl⟩ | hl' := hfreeback l t hl ht
      · -- a span that ends inside of the one that was cut
        have hki : k ≠ i := by
          intro hki
          subst hki
          obtain rfl : s = r := Option.some.inj (hs.symm.trans hk')
          exact absurd (hfree.symm.trans hr) Bool.false_ne_true
        have hend : s.pageAddr + n * pf.systemPageSize =
            r.pageAddr + r.numPages * pf.systemPageSize := hfollows.1
        have hpos := h.bytes_pos hk'
        have hapart := h.bytes_apart hk' hs hki
        simp only [Segment.Apart, Span.bytes] at hapart hpos
        omega
      · exact h.coalesced k l r t hk' hl' hr ht hfollows

/-- Joining a span with the one that follows it, neither of them free. -/
theorem Sound.absorb (h : Sound pf pc) (hs : pc.spans.get i = some s)
    (ht : pc.spans.get j = some t) (hij : i ≠ j) (hsfree : s.inFreeList = false)
    (htfree : t.inFreeList = false) (hfollows : t.Follows pf s) :
    Sound pf (pc.absorb pf i j t) := by
  have hget : ∀ k u, (pc.absorb pf i j t).spans.get k = some u ↔
      (k = i ∧ { s with numPages := s.numPages + t.numPages } = u) ∨
        (k ≠ i ∧ k ≠ j ∧ pc.spans.get k = some u) :=
    fun k u => get_modify_delete_eq_some hs hij
  have htally : ∀ w : Span → ℕ, (pc.absorb pf i j t).spans.tally w + w t + w s =
      pc.spans.tally w + w { s with numPages := s.numPages + t.numPages } :=
    fun w => tally_modify_delete hs ht hij
  have hfreeback : ∀ k u, (pc.absorb pf i j t).spans.get k = some u → u.inFreeList = true →
      pc.spans.get k = some u := by
    intro k u hk hu
    obtain ⟨_, rfl⟩ | hk := (hget k u).mp hk
    · exact absurd (hsfree.symm.trans hu) Bool.false_ne_true
    · exact hk.2.2
  have hps := h.placed i s hs
  have hpt := h.placed j t ht
  refine { h with
    exact := ?_
    placed := ?_
    covered := ?_
    listed := ?_
    cached := ?_
    reserved := ?_
    idle := ?_
    coalesced := ?_ }
  · refine h.exact.join hs ht hij ?_ rfl
    rw [← pageId_stop, ← hfollows.1]
    rfl
  · intro k u hk
    obtain ⟨rfl, rfl⟩ | ⟨_, _, hk⟩ := (hget k u).mp hk
    · refine ⟨hps.page, hps.origin, hps.start, ?_⟩
      have hregion := h.region_unique hps.origin hpt.origin hfollows.2.symm
      have hpages : s.originPages * pf.systemPageSize = t.originPages * pf.systemPageSize :=
        congrArg Prod.snd hregion
      have haddr := hfollows.1
      have horigin := hfollows.2
      have hstop := hpt.stop
      simp only [Span.stop, add_mul] at *
      omega
    · exact h.placed k u hk
  · intro r hr a ha
    obtain ⟨id, hid⟩ := h.covered r hr a ha
    exact exists_owner_paint hid
  · intro m id
    refine (h.listed m id).trans ?_
    constructor
    · intro hlisted
      obtain ⟨u, hu, hufree, hm⟩ := hlisted
      have hid : id ≠ i := by
        intro hid
        subst hid
        obtain rfl : s = u := Option.some.inj (hs.symm.trans hu)
        exact absurd (hsfree.symm.trans hufree) Bool.false_ne_true
      have hjd : id ≠ j := by
        intro hid
        subst hid
        obtain rfl : t = u := Option.some.inj (ht.symm.trans hu)
        exact absurd (htfree.symm.trans hufree) Bool.false_ne_true
      exact ⟨u, (hget id u).mpr (.inr ⟨hid, hjd, hu⟩), hufree, hm⟩
    · intro hlisted
      obtain ⟨u, hu, hufree, hm⟩ := hlisted
      exact ⟨u, hfreeback id u hu hufree, hufree, hm⟩
  · have hw := htally Span.freePages
    have hself : s.freePages = 0 := by simp [Span.freePages, hsfree]
    have hgone : t.freePages = 0 := by simp [Span.freePages, htfree]
    have hjoined : ({ s with numPages := s.numPages + t.numPages } : Span).freePages = 0 := by
      simp [Span.freePages, hsfree]
    have hcached := h.cached
    show pc.cachedFreePages = _
    omega
  · have hw := htally Span.numPages
    have hreserved := h.reserved
    have hsame : (pc.absorb pf i j t).spans.tally Span.numPages =
        pc.spans.tally Span.numPages := by
      simp only at hw
      omega
    rw [hsame]
    exact hreserved
  · have hw := htally Span.idlePages
    have hself : s.idlePages = 0 := by simp [Span.idlePages, hsfree]
    have hgone : t.idlePages = 0 := by simp [Span.idlePages, htfree]
    have hjoined : ({ s with numPages := s.numPages + t.numPages } : Span).idlePages = 0 := by
      simp [Span.idlePages, hsfree]
    have hidle := h.idle
    omega
  · intro k l r u hk hl hr hu
    exact h.coalesced k l r u (hfreeback k r hk hr) (hfreeback l u hl hu) hr hu

/-! ## Mappings -/

/-- The bytes of a span are in its mapping. -/
theorem Paged.bytes_in_region (h : Paged pf pc) (hs : pc.spans.get i = some s)
    (ha : (s.bytes pf).Holds a) :
    (region (s.originAddr, s.originPages * pf.systemPageSize)).Holds a := by
  have hplaced := h.placed i s hs
  have hstart := hplaced.start
  have hstop := hplaced.stop
  simp only [Segment.Holds, Span.bytes, region, Span.stop] at *
  omega

/-- Memory from the system, as one span that is used. -/
theorem Sound.newOrigin (h : Sound pf pc) {m n : ℕ} (hm : 0 < m) (hn : 0 < n)
    (hpage : pf.systemPageSize ∣ m)
    (hsep : ∀ r ∈ pc.systemAllocs, Separate (m, n * pf.systemPageSize) r) :
    Sound pf (({ pc with
      systemAllocs := pc.systemAllocs ++ [(m, n * pf.systemPageSize)]
      mapped := pc.mapped ++ [(m, n * pf.systemPageSize)] } : PageCache).newOrigin pf m n) := by
  let span : Span := { pageAddr := m, numPages := n, originAddr := m, originPages := n }
  have hcount : 0 < n * pf.systemPageSize := Nat.mul_pos hn pf.page_pos
  have hbytes : ∀ b, (span.bytes pf).Holds b ↔ (region (m, n * pf.systemPageSize)).Holds b :=
    fun _ => Iff.rfl
  have hfreeback : ∀ k u, (pc.spans.new span).get k = some u → u.inFreeList = true →
      pc.spans.get k = some u := by
    intro k u hk hu
    obtain ⟨_, rfl⟩ | hk := get_new_eq_some.mp hk
    · cases hu
    · exact hk
  refine
    { exact := ?_
      placed := ?_
      pages := ?_
      apart := ?_
      covered := ?_
      mapped := congrArg (· ++ _) h.mapped
      listed := ?_
      nodup := h.nodup
      cached := ?_
      reserved := ?_
      idle := ?_
      coalesced := ?_ }
  · refine h.exact.new hn ?_
    intro p hp
    by_contra hne
    obtain ⟨k, hk⟩ := Option.ne_none_iff_exists'.mp hne
    -- the first byte of the page would be in two mappings
    have hback : pageId pf (p * pf.systemPageSize) = p := Nat.mul_div_cancel p pf.page_pos
    obtain ⟨t, ht, hholds⟩ := h.find_iff.mp (show pc.findSpanLocked pf (p * pf.systemPageSize) =
      some k by rw [findSpanLocked, hback, hk])
    have hin := h.bytes_in_region ht hholds
    have hnew : (span.bytes pf).Holds (p * pf.systemPageSize) :=
      (segment_holds_iff hpage _).mp (hback.symm ▸ hp)
    have hapart := hsep _ (h.placed k t ht).origin
    simp only [Separate, Segment.Apart, Segment.Holds, region, Span.bytes, span] at *
    omega
  · intro k t hk
    obtain ⟨_, rfl⟩ | hk := get_new_eq_some.mp hk
    · exact ⟨hpage, List.mem_append_right _ (List.mem_singleton_self _), le_refl _, le_refl _⟩
    · have hplaced := h.placed k t hk
      exact ⟨hplaced.page, List.mem_append_left _ hplaced.origin, hplaced.start, hplaced.stop⟩
  · intro r hr
    obtain hr | hr := List.mem_append.mp hr
    · exact h.pages r hr
    · obtain rfl := List.mem_singleton.mp hr
      exact ⟨hm, hcount, hpage, Nat.dvd_mul_left _ _⟩
  · refine List.pairwise_append.mpr ⟨h.apart, List.pairwise_singleton _ _, ?_⟩
    intro r hr r' hr'
    obtain rfl := List.mem_singleton.mp hr'
    exact Segment.Apart.symm (hsep r hr)
  · intro r hr b hb
    obtain hr | hr := List.mem_append.mp hr
    · obtain ⟨id, hid⟩ := h.covered r hr b hb
      exact exists_owner_paint hid
    · obtain rfl := List.mem_singleton.mp hr
      exact ⟨_, paint_of_holds ((segment_holds_iff hpage b).mpr ((hbytes b).mpr hb))⟩
  · intro k id
    refine (h.listed k id).trans ?_
    constructor
    · intro hlisted
      obtain ⟨t, ht, hfree, hk⟩ := hlisted
      exact ⟨t, get_new_of_some ht, hfree, hk⟩
    · intro hlisted
      obtain ⟨t, ht, hfree, hk⟩ := hlisted
      exact ⟨t, hfreeback id t ht hfree, hfree, hk⟩
  · have hw : (pc.spans.new span).tally Span.freePages = _ := tally_new
    exact h.cached.trans hw.symm
  · have hw : (pc.spans.new span).tally Span.numPages = _ := tally_new
    have hreserved := h.reserved
    show ((pc.systemAllocs ++ [(m, n * pf.systemPageSize)]).map Prod.snd).sum =
      (pc.spans.new span).tally Span.numPages * pf.systemPageSize
    rw [hw, add_mul, ← hreserved, List.map_append, List.sum_append]
    rfl
  · have hw : (pc.spans.new span).tally Span.idlePages = _ := tally_new
    exact hw.le.trans h.idle
  · intro k l r t hk hl hr ht
    exact h.coalesced k l r t (hfreeback k r hk hr) (hfreeback l t hl ht) hr ht

/-- Erasing by a test that only one element passes erases that element. -/
theorem eraseP_eq_erase {α : Type} [BEq α] [LawfulBEq α] {p : α → Bool} {x : α}
    {l : List α}
    (h : ∀ y ∈ l, p y = true ↔ y = x) : l.eraseP p = l.erase x := by
  induction l with
  | nil => rfl
  | cons y rest ih =>
      obtain ⟨hy, hrest⟩ := List.forall_mem_cons.mp h
      by_cases hyx : y = x
      · rw [List.eraseP_cons_of_pos (hy.mpr hyx), hyx, List.erase_cons_head]
      · rw [List.eraseP_cons_of_neg (fun hp => hyx (hy.mp hp)),
          List.erase_cons_tail (by simpa using hyx), ih hrest]

/-- Erasing the mapping at an address erases that mapping. -/
theorem Paged.eraseP_eq (h : Paged pf pc) {r : ℕ × ℕ} (hr : r ∈ pc.systemAllocs) :
    (pc.systemAllocs.eraseP fun item => item.1 = r.1) = pc.systemAllocs.erase r := by
  refine eraseP_eq_erase ?_
  intro item hitem
  rw [decide_eq_true_iff]
  constructor
  · exact h.region_unique hitem hr
  · exact fun heq => heq ▸ rfl

/-- Giving up a mapping of which no part is used or listed. -/
theorem Sound.release (h : Sound pf pc) (hs : pc.spans.get i = some s)
    (hfree : s.inFreeList = false) (hwhole : s.Whole) :
    Sound pf (pc.releaseOrigin pf i s) := by
  have hplaced := h.placed i s hs
  have horigin := hplaced.origin
  have hallocs : (pc.releaseOrigin pf i s).systemAllocs =
      pc.systemAllocs.erase (s.originAddr, s.originPages * pf.systemPageSize) :=
    h.eraseP_eq horigin
  have hperm := List.perm_cons_erase horigin
  have hother : ∀ r, r ∈ pc.systemAllocs.erase (s.originAddr, s.originPages * pf.systemPageSize) →
      r ∈ pc.systemAllocs ∧ Separate (s.originAddr, s.originPages * pf.systemPageSize) r := by
    intro r hr
    have hpair := (hperm.pairwise_iff (fun hsep => Segment.Apart.symm hsep)).mp h.apart
    exact ⟨List.mem_of_mem_erase hr, (List.pairwise_cons.mp hpair).1 r hr⟩
  have hfreeback : ∀ k u, (pc.releaseOrigin pf i s).spans.get k = some u →
      k ≠ i ∧ pc.spans.get k = some u :=
    fun k u hk => get_delete_eq_some.mp hk
  have htally : ∀ w : Span → ℕ,
      (pc.releaseOrigin pf i s).spans.tally w + w s = pc.spans.tally w :=
    fun w => tally_delete hs
  -- the span has all bytes of its mapping
  have hbytes : ∀ b, (s.bytes pf).Holds b ↔
      (region (s.originAddr, s.originPages * pf.systemPageSize)).Holds b := by
    intro b
    rw [Span.bytes, region, hwhole.1, hwhole.2]
  refine
    { exact := h.exact.delete hs
      placed := ?_
      pages := ?_
      apart := ?_
      covered := ?_
      mapped := ?_
      listed := ?_
      nodup := h.nodup
      cached := ?_
      reserved := ?_
      idle := ?_
      coalesced := ?_ }
  · intro k t hk
    obtain ⟨hki, hk⟩ := hfreeback k t hk
    have hpt := h.placed k t hk
    refine ⟨hpt.page, ?_, hpt.start, hpt.stop⟩
    rw [hallocs, List.mem_erase_of_ne ?_]
    · exact hpt.origin
    · intro heq
      have hpos := h.bytes_pos hk
      have hfirst : (t.bytes pf).Holds t.pageAddr := ⟨le_refl _, Nat.lt_add_of_pos_right hpos⟩
      have hin := h.bytes_in_region hk hfirst
      rw [heq, ← hbytes] at hin
      have hapart := h.bytes_apart hk hs hki
      simp only [Segment.Apart, Segment.Holds, Span.bytes] at *
      omega
  · intro r hr
    rw [hallocs] at hr
    exact h.pages r (hother r hr).1
  · rw [hallocs]
    exact h.apart.sublist List.erase_sublist
  · intro r hr b hb
    rw [hallocs] at hr
    obtain ⟨hr, hsep⟩ := hother r hr
    obtain ⟨id, hid⟩ := h.covered r hr b hb
    refine ⟨id, (paint_of_not_holds ?_).trans hid⟩
    intro hpage
    have hin := (hbytes b).mp ((segment_holds_iff hplaced.page b).mp hpage)
    simp only [Separate, Segment.Apart, Segment.Holds, region] at *
    omega
  · rw [hallocs, ← h.mapped]
    rfl
  · intro k id
    refine (h.listed k id).trans ?_
    constructor
    · intro hlisted
      obtain ⟨u, hu, hufree, hk⟩ := hlisted
      refine ⟨u, get_delete_eq_some.mpr ⟨?_, hu⟩, hufree, hk⟩
      intro hid
      subst hid
      obtain rfl : s = u := Option.some.inj (hs.symm.trans hu)
      exact absurd (hfree.symm.trans hufree) Bool.false_ne_true
    · intro hlisted
      obtain ⟨u, hu, hufree, hk⟩ := hlisted
      exact ⟨u, (hfreeback id u hu).2, hufree, hk⟩
  · have hw := htally Span.freePages
    have hself : s.freePages = 0 := by simp [Span.freePages, hfree]
    have hcached := h.cached
    show pc.cachedFreePages = _
    omega
  · have hw := htally Span.numPages
    have hreserved := h.reserved
    have hsum : pc.reservedBytes = s.originPages * pf.systemPageSize +
        (pc.releaseOrigin pf i s).reservedBytes := by
      rw [reservedBytes, reservedBytes, hallocs, (hperm.map Prod.snd).sum_eq]
      rfl
    rw [← hw, hwhole.2, add_mul] at hreserved
    omega
  · have hw := htally Span.idlePages
    have hidle := h.idle
    omega
  · intro k l r t hk hl hr ht
    exact h.coalesced k l r t (hfreeback k r hk).2 (hfreeback l t hl).2 hr ht

end PageCache

end Gpuforge.Kama

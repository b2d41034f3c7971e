import Gpuforge.PoolSafety

/-!
# What the pool keeps from the system

The pool holds memory for three reasons: a caller has a block in it, a thread
has one in its cache or in hand, or it is kept free for later.  The first two
are why a span is used, so when they are gone all spans are free, joined into
whole mappings, and those are kept within the bound of the page cache.
-/

namespace Gpuforge.Kama

open LabelledRun ObjectTable SegmentTable

variable {pf : Platform}

/-- The pages a span has in use. -/
def Span.usedPages (s : Span) : ℕ := if s.inFreeList then 0 else s.numPages

namespace PageCache

variable {pc : PageCache} {i j : SpanId} {s t : Span} {a : ℕ}

/-- Spans of which one follows the other in memory are of one mapping, if the
byte between is of the mapping of the first. -/
theorem Paged.next_in_region (h : Paged pf pc) (hs : pc.spans.get i = some s)
    (hroom : s.stop pf < s.originAddr + s.originPages * pf.systemPageSize) :
    ∃ j t, pc.spans.get j = some t ∧ t.Follows pf s := by
  have hplaced := h.placed i s hs
  have hstart := hplaced.start
  have hholds : (region (s.originAddr, s.originPages * pf.systemPageSize)).Holds (s.stop pf) := by
    simp only [Segment.Holds, region, Span.stop] at *
    omega
  obtain ⟨j, hj⟩ := h.covered _ hplaced.origin _ hholds
  obtain ⟨t, ht, hin⟩ := h.find_iff.mp hj
  refine ⟨j, t, ht, ?_, ?_⟩
  · -- the page after the last one of a span is the first one of the next
    have hnext := h.exact.after hs ht (by rw [← pageId_stop]; exact hj)
    rw [← pageId_stop] at hnext
    have hpage := (h.placed j t ht).page
    have hpage' : pf.systemPageSize ∣ s.stop pf :=
      Nat.dvd_add hplaced.page (Nat.dvd_mul_left _ _)
    have hfirst : (t.segment pf).first = pageId pf t.pageAddr := rfl
    rw [hfirst, pageId, pageId] at hnext
    exact Nat.div_left_inj hpage hpage' |>.mp hnext
  · have hin' := h.bytes_in_region ht hin
    by_contra hne
    have horigin := (h.placed j t ht).origin
    have hapart : Separate _ _ := h.apart.forall horigin hplaced.origin
      fun heq => hne (Prod.mk.inj heq).1
    simp only [Separate, Segment.Apart, Segment.Holds, region] at *
    omega

theorem Paged.prev_in_region (h : Paged pf pc) (hs : pc.spans.get i = some s)
    (hroom : s.originAddr < s.pageAddr) :
    ∃ j t, pc.spans.get j = some t ∧ s.Follows pf t := by
  have hplaced := h.placed i s hs
  have hstop := hplaced.stop
  have hholds : (region (s.originAddr, s.originPages * pf.systemPageSize)).Holds
      (s.pageAddr - 1) := by
    simp only [Segment.Holds, region, Span.stop] at *
    omega
  obtain ⟨j, hj⟩ := h.covered _ hplaced.origin _ hholds
  obtain ⟨t, ht, hin⟩ := h.find_iff.mp hj
  have hplaced' := h.placed j t ht
  have hin' := h.bytes_in_region ht hin
  have hsame : t.originAddr = s.originAddr := by
    by_contra hne
    have hapart : Separate _ _ := h.apart.forall hplaced'.origin hplaced.origin
      fun heq => hne (Prod.mk.inj heq).1
    simp only [Separate, Segment.Apart, Segment.Holds, region] at *
    omega
  have hle : t.stop pf ≤ s.pageAddr := by
    have hij : j ≠ i := by
      intro hij
      subst hij
      obtain rfl := Option.some.inj (hs.symm.trans ht)
      simp only [Segment.Holds, Span.bytes] at hin
      omega
    have hapart := h.bytes_apart ht hs hij
    simp only [Segment.Apart, Segment.Holds, Span.bytes, Span.stop] at *
    omega
  refine ⟨j, t, ht, ?_, hsame.symm⟩
  simp only [Segment.Holds, Span.bytes, Span.stop] at *
  omega

/-- **Where nothing is used, every mapping is one free span.** -/
theorem Sound.whole_of_unused (h : Sound pf pc) (hnone : ∀ i s, ¬ pc.Used i s)
    (hs : pc.spans.get i = some s) : s.inFreeList = true ∧ s.Whole := by
  have hfree : ∀ {i s}, pc.spans.get i = some s → s.inFreeList = true := by
    intro i s hs
    by_contra hne
    exact hnone i s ⟨hs, Bool.eq_false_iff.mpr hne⟩
  have hplaced := h.placed i s hs
  have hstart : s.pageAddr = s.originAddr := by
    by_contra hne
    have hle := hplaced.start
    obtain ⟨j, t, ht, hfollows⟩ := h.prev_in_region hs (by omega)
    exact h.coalesced j i t s ht hs (hfree ht) (hfree hs) hfollows
  have hstop : s.stop pf = s.originAddr + s.originPages * pf.systemPageSize := by
    by_contra hne
    have hle := hplaced.stop
    obtain ⟨j, t, ht, hfollows⟩ := h.next_in_region hs (by omega)
    exact h.coalesced i j s t hs ht (hfree hs) (hfree ht) hfollows
  refine ⟨hfree hs, hstart, ?_⟩
  rw [Span.stop, hstart] at hstop
  exact Nat.eq_of_mul_eq_mul_right pf.page_pos (Nat.add_left_cancel hstop)

/-- Reserved memory is cached or used. -/
theorem Sound.reserved_eq (h : Sound pf pc) :
    pc.reservedBytes =
      pc.cachedPageBytes pf + pc.spans.tally Span.usedPages * pf.systemPageSize := by
  have hsum : pc.spans.tally Span.freePages + pc.spans.tally Span.usedPages =
      pc.spans.tally Span.numPages := by
    refine tally_add ?_
    intro i s _
    unfold Span.freePages Span.usedPages
    split <;> omega
  rw [h.reserved, cachedPageBytes, h.cached, ← hsum, add_mul]

theorem Sound.reserved_of_unused (h : Sound pf pc) (hnone : ∀ i s, ¬ pc.Used i s) :
    pc.reservedBytes = pc.cachedPageBytes pf ∧ pc.reservedBytes ≤ 64 * 1024 * 1024 := by
  have hused : pc.spans.tally Span.usedPages = 0 := by
    refine tally_eq_zero ?_
    intro i s hs
    exact if_pos (h.whole_of_unused hnone hs).1
  have hidle : pc.spans.tally Span.numPages ≤ pc.spans.tally Span.idlePages := by
    refine tally_mono ?_
    intro i s hs
    rw [Span.idlePages, if_pos (h.whole_of_unused hnone hs)]
  refine ⟨by rw [h.reserved_eq, hused, zero_mul, add_zero], ?_⟩
  rw [h.reserved]
  exact (Nat.mul_le_mul_right _ (hidle.trans h.idle)).trans (Nat.div_mul_le_self _ _)

end PageCache

namespace Pool

variable {T : Type} {st : Pool T}

/-- **A span is used for a reason**: a block of it is somewhere else. -/
theorem Sound.pinned (hs : st.Sound pf) {id : SpanId} {s : Span}
    (hused : st.heap.pages.Used id s) (hsmall : s.isLarge = false) :
    ∃ a p, st.heap.Block id s.sizeClass a ∧ p ≠ .span id ∧ a ∈ st.content p := by
  have hcarved := hs.heap.small id s hused hsmall
  have hout : ∃ a ∈ s.blocks, a ∉ s.freeList := by
    by_contra hnone
    push Not at hnone
    have hsize := Heap.size_pos hcarved
    have hlength := ((Heap.nodup_blocksFrom hsize s.blockCount).subperm hnone).length_le
    have hsettled := hs.settled id s hused hsmall
    have hcount := hcarved.count
    rw [Heap.length_blocksFrom] at hlength
    omega
  obtain ⟨a, ha, hfree⟩ := hout
  have hblock : st.heap.Block id s.sizeClass a := ⟨s, hused, hsmall, rfl, ha⟩
  obtain ⟨p, hp⟩ := (hs.blocks.complete a).mp ⟨id, _, hblock⟩
  refine ⟨a, p, hblock, ?_, hp⟩
  intro hspan
  subst hspan
  have hlist : st.content (.span id) = s.freeList := Heap.free_of_used hused hsmall
  exact hfree (hlist ▸ hp)

/-- When nobody has a block, no span is used. -/
theorem Sound.unused (hs : st.Sound pf) (hidle : ∀ t, st.doing t = .idle)
    (hcaches : ∀ t, ∀ i < classCount, (st.caches t).freeList i = []) (hlive : st.live = [])
    (id : SpanId) (s : Span) : ¬ st.heap.pages.Used id s := by
  intro hused
  obtain ⟨hsmall, hlarge⟩ := List.append_eq_nil_iff.mp hlive
  cases hislarge : s.isLarge with
  | true =>
      have hmem := (hs.large s.pageAddr s.blockSize).mpr ⟨id, s, hused, hislarge, rfl, rfl⟩
      rw [hlarge] at hmem
      cases hmem
  | false =>
      obtain ⟨a, p, hblock, hne, hp⟩ := hs.pinned hused hislarge
      cases p with
      | span j =>
          obtain ⟨c, hblock'⟩ := hs.blocks.allowed _ a hp
          exact hne (by rw [(hs.heap.block_unique hblock hblock').1])
      | cache t i =>
          obtain ⟨_, hblock'⟩ := hs.blocks.allowed _ a hp
          rw [content, hcaches t i (hs.heap.class_lt hblock')] at hp
          cases hp
      | hand t =>
          rw [content, hidle] at hp
          cases hp
      | callers =>
          rw [content, hsmall] at hp
          cases hp

variable [DecidableEq T] {labels : List (Event T)}

/-- **The books balance.**  In every state the reserved bytes are those of the
mappings the system gave and has not got back; they are the free pages and those
of the used spans; free neighbours are joined; and the free pages of mappings
with no used part are within the bound of the page cache. -/
theorem run_reserved (hrun : Run (Moves pf) start labels st) :
    st.heap.pages.reservedBytes = (st.heap.pages.mapped.map Prod.snd).sum ∧
      st.heap.pages.reservedBytes = st.heap.pages.cachedPageBytes pf +
        st.heap.pages.spans.tally Span.usedPages * pf.systemPageSize ∧
      (∀ i j s t, st.heap.pages.spans.get i = some s → st.heap.pages.spans.get j = some t →
        s.inFreeList = true → t.inFreeList = true → ¬ t.Follows pf s) ∧
      st.heap.pages.spans.tally Span.idlePages * pf.systemPageSize ≤ 64 * 1024 * 1024 := by
  have hs := (run_sound hrun).heap.pages
  refine ⟨?_, hs.reserved_eq, hs.coalesced, ?_⟩
  · rw [hs.mapped]
    rfl
  · exact (Nat.mul_le_mul_right _ hs.idle).trans (Nat.div_mul_le_self _ _)

/-- **Nothing leaks.**  When callers have given all blocks back, threads have
flushed their caches and no call is running, whatever happened before, nothing is
used and at most 64 MiB are kept from the system. -/
theorem run_no_leak (hrun : Run (Moves pf) start labels st) (hidle : ∀ t, st.doing t = .idle)
    (hcaches : ∀ t, ∀ i < classCount, (st.caches t).freeList i = []) (hlive : st.live = []) :
    (∀ id s, st.heap.pages.spans.get id = some s → s.inFreeList = true ∧ s.Whole) ∧
      st.heap.pages.reservedBytes = st.heap.pages.cachedPageBytes pf ∧
      st.heap.pages.reservedBytes ≤ 64 * 1024 * 1024 := by
  have hs := run_sound hrun
  have hnone := hs.unused hidle hcaches hlive
  exact ⟨fun id s => hs.heap.pages.whole_of_unused hnone, hs.heap.pages.reserved_of_unused hnone⟩

theorem run_reserved_two : ∃ st : Pool Bool, st.live = [(8388608, 303104)] ∧
    st.heap.pages.reservedBytes = (st.heap.pages.mapped.map Prod.snd).sum ∧
      st.heap.pages.reservedBytes = st.heap.pages.cachedPageBytes fourKibPages +
        st.heap.pages.spans.tally Span.usedPages * 4096 ∧
      (∀ i j s t, st.heap.pages.spans.get i = some s → st.heap.pages.spans.get j = some t →
        s.inFreeList = true → t.inFreeList = true → ¬ t.Follows fourKibPages s) ∧
      st.heap.pages.spans.tally Span.idlePages * 4096 ≤ 64 * 1024 * 1024 := by
  obtain ⟨st, hrun, hlive, _⟩ := exists_run
  exact ⟨st, hlive, run_reserved hrun⟩

theorem run_no_leak_back : ∃ st : Pool Bool,
    Run (Moves fourKibPages) start [.allocate true 300000 8388608, .deallocate true 8388608] st ∧
      (∀ id s, st.heap.pages.spans.get id = some s → s.inFreeList = true ∧ s.Whole) ∧
      st.heap.pages.reservedBytes = st.heap.pages.cachedPageBytes fourKibPages ∧
      st.heap.pages.reservedBytes ≤ 64 * 1024 * 1024 := by
  have hfirst : ((start : Pool Bool).exec fourKibPages (.allocate true 300000 8388608)).map live =
      some [(8388608, 300000)] := by decide +kernel
  obtain ⟨st₁, hexec₁, hlive₁⟩ := Option.map_eq_some_iff.mp hfirst
  have hboth : (((start : Pool Bool).exec fourKibPages (.allocate true 300000 8388608)).map
      fun st => st.doing true) = some .idle ∧
    (((start : Pool Bool).exec fourKibPages (.allocate true 300000 8388608)).bind fun st =>
      (st.exec fourKibPages (.deallocate true 8388608)).map fun st =>
        decide ((∀ t, st.doing t = .idle) ∧
          (∀ t, ∀ i < classCount, (st.caches t).freeList i = []) ∧ st.live = [])) = some true := by
    decide +kernel
  rw [hexec₁] at hboth
  obtain ⟨hidle₁, hboth⟩ := hboth
  obtain ⟨st, hexec, hstate⟩ := Option.map_eq_some_iff.mp hboth
  obtain ⟨hidle, hcaches, hlive⟩ := of_decide_eq_true hstate
  have hrun : Run (Moves fourKibPages) start
      [.allocate true 300000 8388608, .deallocate true 8388608] st := by
    refine .extend (.single ⟨⟨rfl, .inr ⟨by decide, ?_⟩⟩, hexec₁⟩)
      ⟨⟨Option.some.inj hidle₁, .inr ⟨300000, ?_⟩⟩, hexec⟩
    · rw [hlive₁]
      exact List.mem_singleton_self _
    · intro r hr
      cases hr
  exact ⟨st, hrun, run_no_leak hrun hidle hcaches hlive⟩

end Pool

end Gpuforge.Kama

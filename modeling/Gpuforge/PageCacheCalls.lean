import Gpuforge.PageCacheSound

/-!
# What calls to the page cache do

From a state of the invariant, both calls end and keep it.  `allocateSpan` makes
one span used that was not, large enough, and touches no other used span;
`deallocateSpan` of a used span ends its use, and touches no other.  The joins
are between spans that are not used, so to its users the cache is a set of used
spans that grows and shrinks by the calls they make.
-/

namespace Gpuforge.Kama

open ObjectTable SortedBuckets SegmentTable

variable {pf : Platform}

namespace PageCache

variable {pc : PageCache} {i j id : SpanId} {s t : Span}

theorem Used.unique (hs : pc.Used i s) (ht : pc.Used i t) : s = t :=
  Option.some.inj (hs.1.symm.trans ht.1)

/-- A used span is no free span. -/
theorem Used.ne_of_free (hs : pc.Used i s) (ht : pc.spans.get j = some t)
    (hfree : t.inFreeList = true) : i ≠ j := by
  intro hij
  subst hij
  obtain rfl : s = t := Option.some.inj (hs.1.symm.trans ht)
  exact absurd (hs.2.symm.trans hfree) Bool.false_ne_true

/-! ## The used spans after each step -/

theorem used_take {n : ℕ} {span : Span} (hs : pc.spans.get i = some s) :
    (pc.takeSpan n i span).Used j t ↔
      (j = i ∧ { s with inFreeList := false } = t) ∨ (j ≠ i ∧ pc.Used j t) := by
  have hget : (pc.takeSpan n i span).spans.get j = some t ↔ _ := get_modify_eq_some hs
  rw [Used, hget, Used]
  constructor
  · intro h
    obtain ⟨h | h, hfree⟩ := h
    · exact .inl h
    · exact .inr ⟨h.1, h.2, hfree⟩
  · intro h
    obtain ⟨rfl, rfl⟩ | h := h
    · exact ⟨.inl ⟨rfl, rfl⟩, rfl⟩
    · exact ⟨.inr ⟨h.1, h.2.1⟩, h.2.2⟩

theorem used_list {span : Span} (hs : pc.spans.get i = some s) :
    (pc.listSpan i span).Used j t ↔ j ≠ i ∧ pc.Used j t := by
  have hget : (pc.listSpan i span).spans.get j = some t ↔ _ := get_modify_eq_some hs
  rw [Used, hget, Used]
  constructor
  · intro h
    obtain ⟨⟨_, rfl⟩ | h, hfree⟩ := h
    · cases hfree
    · exact ⟨h.1, h.2, hfree⟩
  · intro h
    exact ⟨.inr ⟨h.1, h.2.1⟩, h.2.2⟩

theorem used_release {span : Span} :
    (pc.releaseOrigin pf i span).Used j t ↔ j ≠ i ∧ pc.Used j t := by
  have hget : (pc.releaseOrigin pf i span).spans.get j = some t ↔ _ := get_delete_eq_some
  rw [Used, hget, Used, and_assoc]

theorem used_newOrigin (pf : Platform) (pc : PageCache) (m n : ℕ) (j : SpanId) (t : Span) :
    (pc.newOrigin pf m n).Used j t ↔
      (j = pc.spans.next ∧
        ({ pageAddr := m, numPages := n, originAddr := m, originPages := n } : Span) = t) ∨
        pc.Used j t := by
  have hget : (pc.newOrigin pf m n).spans.get j = some t ↔ _ := get_new_eq_some
  rw [Used, hget, Used]
  constructor
  · intro h
    obtain ⟨h | h, hfree⟩ := h
    · exact .inl h
    · exact .inr ⟨h, hfree⟩
  · intro h
    obtain ⟨rfl, rfl⟩ | h := h
    · exact ⟨.inl ⟨rfl, rfl⟩, rfl⟩
    · exact ⟨.inr h.1, h.2⟩

theorem used_split {n : ℕ} {span : Span} (hs : pc.Used i s) :
    (pc.splitSpan pf i span n).Used j t ↔
      (j = i ∧ { s with numPages := n } = t) ∨ (j ≠ i ∧ pc.Used j t) := by
  have hget : (pc.splitSpan pf i span n).spans.get j = some t ↔ _ :=
    get_modify_eq_some (get_new_of_some hs.1)
  rw [Used, hget, get_new_eq_some, Used]
  constructor
  · intro h
    obtain ⟨h | ⟨hj, ⟨_, rfl⟩ | ht⟩, hfree⟩ := h
    · exact .inl h
    · cases hfree
    · exact .inr ⟨hj, ht, hfree⟩
  · intro h
    obtain ⟨rfl, rfl⟩ | h := h
    · exact ⟨.inl ⟨rfl, rfl⟩, hs.2⟩
    · exact ⟨.inr ⟨h.1, .inr h.2.1⟩, h.2.2⟩

theorem used_absorb {gone : Span} (hs : pc.Used i s) (hij : i ≠ j) {k : SpanId} :
    (pc.absorb pf i j gone).Used k t ↔
      (k = i ∧ { s with numPages := s.numPages + gone.numPages } = t) ∨
        (k ≠ i ∧ k ≠ j ∧ pc.Used k t) := by
  have hget : (pc.absorb pf i j gone).spans.get k = some t ↔ _ :=
    get_modify_delete_eq_some hs.1 hij
  rw [Used, hget, Used]
  constructor
  · intro h
    obtain ⟨h | h, hfree⟩ := h
    · exact .inl h
    · exact .inr ⟨h.1, h.2.1, h.2.2, hfree⟩
  · intro h
    obtain ⟨rfl, rfl⟩ | h := h
    · exact ⟨.inl ⟨rfl, rfl⟩, hs.2⟩
    · exact ⟨.inr ⟨h.1, h.2.1, h.2.2.1⟩, h.2.2.2⟩

/-! ## Requests -/

/-- What the system answers: nothing, or memory at a page that is in no mapping. -/
def SystemGrants (pf : Platform) (pc : PageCache) (answer bytes : ℕ) : Prop :=
  answer = 0 ∨
    (pf.systemPageSize ∣ answer ∧ ∀ r ∈ pc.mapped, Separate (answer, bytes) r)

/-- The pages of a request; a request for none gets one. -/
def wantedPages (requested : ℕ) : ℕ := if requested = 0 then 1 else requested

theorem wantedPages_pos (requested : ℕ) : 0 < wantedPages requested := by
  unfold wantedPages
  split <;> omega

/-- No span on the free lists is large enough. -/
def NoneFits (pc : PageCache) (n : ℕ) : Prop :=
  ∀ j t, pc.spans.get j = some t → t.inFreeList = true → t.numPages < n

/-- The system is not asked, or has nothing. -/
def SystemRefuses (pf : Platform) (answer n : ℕ) : Prop :=
  sizeMax / pf.systemPageSize < n ∨
    sizeMax - (pf.systemAllocGranularity - 1) < n * pf.systemPageSize ∨ answer = 0

/-- What a successful request has done. -/
structure Grants (pf : Platform) (pc : PageCache) (n : ℕ) (id : SpanId) (pc' : PageCache) :
    Prop where
  sound : Sound pf pc'
  span : ∃ s, pc'.Used id s ∧ n ≤ s.numPages
  fresh : ∀ s, ¬ pc.Used id s
  others : ∀ j t, j ≠ id → (pc'.Used j t ↔ pc.Used j t)

/-- The memory asked for is whole pages, and enough. -/
theorem askedBytes_spec {n : ℕ}
    (hfits : n * pf.systemPageSize ≤ sizeMax - (pf.systemAllocGranularity - 1)) :
    askedBytes pf n / pf.systemPageSize * pf.systemPageSize = askedBytes pf n ∧
      n ≤ askedBytes pf n / pf.systemPageSize := by
  obtain ⟨k, hk⟩ := pf.granularity_pow
  have hlt := pf.granularity_lt
  have hk64 : k ≤ 64 := by
    rw [hk] at hlt
    exact ((Nat.pow_lt_pow_iff_right (by omega)).mp hlt).le
  have hpos : 0 < pf.systemAllocGranularity := hk ▸ Nat.two_pow_pos k
  have hsum : n * pf.systemPageSize + (2 ^ k - 1) < 2 ^ 64 := by
    rw [sizeMax] at hfits
    omega
  obtain ⟨hdvd, hle, _⟩ := maskUp_spec hk64 hsum
  rw [askedBytes, hk]
  refine ⟨Nat.div_mul_cancel ((hk ▸ pf.page_dvd).trans hdvd), ?_⟩
  exact (Nat.le_div_iff_mul_le pf.page_pos).mpr hle

/-- A request that takes a free span. -/
theorem Sound.grant_listed (h : Sound pf pc) {n : ℕ} (hn : 0 < n) (hs : pc.spans.get id = some s)
    (hfree : s.inFreeList = true) (hle : n ≤ s.numPages) :
    Grants pf pc n id
      (if n < s.numPages then (pc.takeSpan s.numPages id s).splitSpan pf id s n
        else pc.takeSpan s.numPages id s) := by
  have htake := h.take hs hfree
  have hused : (pc.takeSpan s.numPages id s).Used id { s with inFreeList := false } :=
    (used_take hs).mpr (.inl ⟨rfl, rfl⟩)
  have hfresh : ∀ t, ¬ pc.Used id t := fun t ht => (ht.ne_of_free hs hfree) rfl
  split
  · next hlt =>
    have hsplit : Sound pf ((pc.takeSpan s.numPages id s).splitSpan pf id s n) := by
      refine htake.split hused.1 rfl hn hlt ?_
      intro j t ht htfree hfollows
      obtain ⟨_, rfl⟩ | ⟨_, ht⟩ := (get_modify_eq_some hs).mp ht
      · cases htfree
      · exact h.coalesced id j s t hs ht hfree htfree hfollows
    refine ⟨hsplit, ⟨_, (used_split hused).mpr (.inl ⟨rfl, rfl⟩), le_refl _⟩, hfresh, ?_⟩
    intro j t hj
    rw [used_split hused, used_take hs]
    simp [hj]
  · refine ⟨htake, ⟨_, hused, hle⟩, hfresh, ?_⟩
    intro j t hj
    rw [used_take hs]
    simp [hj]

/-- **What `allocateSpan` does.**  It hands out a free span that is large enough
if there is one; else it asks the system, and fails without a trace if that
fails. -/
theorem Sound.allocateSpan (h : Sound pf pc) (requested : ℕ) {answer : ℕ}
    (hsystem : SystemGrants pf pc answer (askedBytes pf (wantedPages requested))) :
    (∃ id pc', pc.allocateSpan pf answer requested = some (some id, pc') ∧
        Grants pf pc (wantedPages requested) id pc' ∧
        (pc'.mapped = pc.mapped ∨
          NoneFits pc (wantedPages requested) ∧ ∀ s, pc'.Used id s → s.Whole)) ∨
      (pc.allocateSpan pf answer requested = some (none, pc) ∧
        NoneFits pc (wantedPages requested) ∧ SystemRefuses pf answer (wantedPages requested)) := by
  have hn := wantedPages_pos requested
  unfold PageCache.allocateSpan
  simp only [← wantedPages.eq_def]
  cases hbound : pc.freeSpans.lowerBound (wantedPages requested) with
  | some found =>
      obtain ⟨key, id⟩ := found
      obtain ⟨hle, hmem, _⟩ := Buckets.lowerBound_eq_some hbound
      obtain ⟨s, hs, hfree, rfl⟩ := (h.listed key id).mp hmem
      have hgrant := h.grant_listed hn hs hfree hle
      refine .inl ⟨id, _, ?_, hgrant, .inl ?_⟩
      · simp only [hs]
      · split <;> rfl
  | none =>
      have hnone : NoneFits pc (wantedPages requested) := by
        intro j t ht hfree
        exact Buckets.lowerBound_eq_none hbound ((h.listed _ _).mpr ⟨t, ht, hfree, rfl⟩)
      simp only
      unfold systemAlloc
      split
      · next hrefused =>
        split at hrefused
        · next hpages => exact .inr ⟨rfl, hnone, .inl hpages⟩
        · split at hrefused
          · next hbytes => exact .inr ⟨rfl, hnone, .inr (.inl hbytes)⟩
          · split at hrefused
            · next hnull => exact .inr ⟨rfl, hnone, .inr (.inr hnull)⟩
            · cases hrefused
      · next memory pages pc' hgiven =>
        split at hgiven
        · cases hgiven
        · split at hgiven
          · cases hgiven
          · next hbytes =>
            split at hgiven
            · cases hgiven
            · next hnonnull =>
              cases hgiven
              obtain ⟨hwhole, hle⟩ := askedBytes_spec (not_lt.mp hbytes)
              obtain hnull | ⟨hpage, hsep⟩ := hsystem
              · exact absurd hnull hnonnull
              rw [h.mapped, ← hwhole] at hsep
              have hsound := h.newOrigin (Nat.pos_of_ne_zero hnonnull) (hn.trans_le hle)
                hpage hsep
              rw [hwhole] at hsound
              have hused := used_newOrigin pf pc answer
                (askedBytes pf (wantedPages requested) / pf.systemPageSize)
              have hfresh : ∀ s, ¬ pc.Used pc.spans.next s :=
                fun s hs => lt_irrefl _ (Objects.lt_next hs.1)
              refine .inl ⟨_, _, rfl, ⟨hsound, ⟨_, (hused _ _).mpr (.inl ⟨rfl, rfl⟩), hle⟩,
                hfresh, ?_⟩, .inr ⟨hnone, ?_⟩⟩
              · intro j t hj
                refine (hused j t).trans ?_
                simp [show j ≠ pc.spans.next from hj]
              · intro s hs
                obtain ⟨_, rfl⟩ | hs := (hused _ _).mp hs
                · exact ⟨rfl, rfl⟩
                · exact absurd hs (hfresh s)

/-! ## Spans that come back -/

/-- No free span follows. -/
def NoneAfter (pf : Platform) (pc : PageCache) (s : Span) : Prop :=
  ∀ j t, pc.spans.get j = some t → t.inFreeList = true → ¬ t.Follows pf s

/-- No free span is followed. -/
def NoneBefore (pf : Platform) (pc : PageCache) (s : Span) : Prop :=
  ∀ j t, pc.spans.get j = some t → t.inFreeList = true → ¬ s.Follows pf t

/-- The start of a span finds the span. -/
theorem Paged.find_start (h : Paged pf pc) (hs : pc.spans.get i = some s) :
    pc.findSpanLocked pf s.pageAddr = some i :=
  h.find_iff.mpr ⟨s, hs, le_refl _, Nat.lt_add_of_pos_right (h.bytes_pos hs)⟩

/-- The last byte of a span finds the span. -/
theorem Paged.find_last (h : Paged pf pc) (hs : pc.spans.get i = some s) :
    pc.findSpanLocked pf (s.stop pf - 1) = some i := by
  have hpos := h.bytes_pos hs
  refine h.find_iff.mpr ⟨s, hs, ?_⟩
  simp only [Segment.Holds, Span.bytes, Span.stop] at *
  omega

/-- A free span that is found is on the free list of its size. -/
theorem Sound.removeFromFreeList (h : Sound pf pc) (hs : pc.spans.get i = some s)
    (hfree : s.inFreeList = true) :
    pc.removeFromFreeList i s = some (pc.takeSpan s.numPages i s) :=
  if_pos (Buckets.mem_stack.mpr ((h.listed _ _).mpr ⟨s, hs, hfree, rfl⟩))

/-- **Joining with the next span** leaves none after that is free. -/
theorem Sound.mergeNext (h : Sound pf pc) (hs : pc.Used id s) :
    ∃ pc' s', pc.mergeNext pf id = some pc' ∧ Sound pf pc' ∧ pc'.Used id s' ∧
      NoneAfter pf pc' s' ∧ ∀ j t, j ≠ id → (pc'.Used j t ↔ pc.Used j t) := by
  unfold PageCache.mergeNext
  simp only [hs.1]
  split
  · next hnone =>
    refine ⟨pc, s, rfl, h, hs, ?_, fun _ _ _ => Iff.rfl⟩
    intro j t ht _ hfollows
    rw [← hfollows.1, h.find_start ht] at hnone
    cases hnone
  · next nextId hfind =>
    obtain ⟨next, hnext, hholds⟩ := h.find_iff.mp hfind
    simp only [hnext]
    split
    · next hcond =>
      obtain ⟨hne, hfree, haddr, horigin⟩ := hcond
      have htake := h.take hnext hfree
      have hs' : (pc.takeSpan next.numPages nextId next).Used id s :=
        (used_take hnext).mpr (.inr ⟨hne.symm, hs⟩)
      have hgone : (pc.takeSpan next.numPages nextId next).Used nextId
          { next with inFreeList := false } :=
        (used_take hnext).mpr (.inl ⟨rfl, rfl⟩)
      have hjoin : Sound pf ((pc.takeSpan next.numPages nextId next).absorb pf id nextId
          { next with inFreeList := false }) :=
        htake.absorb hs'.1 hgone.1 hne.symm hs.2 rfl ⟨haddr, horigin⟩
      rw [h.removeFromFreeList hnext hfree]
      refine ⟨_, _, rfl, hjoin, (used_absorb hs' hne.symm).mpr (.inl ⟨rfl, rfl⟩), ?_, ?_⟩
      · -- what follows the joined span followed the next one
        intro j t ht htfree hfollows
        obtain ⟨_, rfl⟩ | ⟨_, _, ht⟩ := (get_modify_delete_eq_some hs'.1 hne.symm).mp ht
        · exact absurd (hs.2.symm.trans htfree) Bool.false_ne_true
        · obtain ⟨_, rfl⟩ | ⟨_, ht⟩ := (get_modify_eq_some hnext).mp ht
          · cases htfree
          · refine h.coalesced nextId j next t hnext ht hfree htfree ⟨?_, ?_⟩
            · have hstop := hfollows.1
              simp only [Span.stop, add_mul] at *
              omega
            · exact hfollows.2.trans horigin.symm
      · intro j t hj
        rw [used_absorb hs' hne.symm, used_take hnext]
        constructor
        · intro hused
          obtain ⟨rfl, _⟩ | ⟨_, hj', ⟨rfl, _⟩ | ⟨_, hused⟩⟩ := hused
          · exact absurd rfl hj
          · exact absurd rfl hj'
          · exact hused
        · intro hused
          have hj' : j ≠ nextId := hused.ne_of_free hnext hfree
          exact .inr ⟨hj, hj', .inr ⟨hj', hused⟩⟩
    · next hcond =>
      refine ⟨pc, s, rfl, h, hs, ?_, fun _ _ _ => Iff.rfl⟩
      intro j t ht hfree hfollows
      have hj := h.find_start ht
      rw [hfollows.1, hfind] at hj
      obtain rfl := Option.some.inj hj
      obtain rfl : next = t := Option.some.inj (hnext.symm.trans ht)
      exact hcond ⟨(hs.ne_of_free ht hfree).symm, hfree, hfollows.1, hfollows.2⟩

/-- **Joining with the previous span** leaves none before that is free. -/
theorem Sound.mergePrev (h : Sound pf pc) (hs : pc.Used id s) (hafter : NoneAfter pf pc s) :
    ∃ id' pc' s', pc.mergePrev pf id = some (id', pc') ∧ Sound pf pc' ∧ pc'.Used id' s' ∧
      NoneAfter pf pc' s' ∧ NoneBefore pf pc' s' ∧ (id' ≠ id → ∀ t, ¬ pc.Used id' t) ∧
      ∀ j t, j ≠ id' → (pc'.Used j t ↔ j ≠ id ∧ pc.Used j t) := by
  have hstay : NoneBefore pf pc s →
      ∃ id' pc' s', some (id, pc) = some (id', pc') ∧ Sound pf pc' ∧ pc'.Used id' s' ∧
        NoneAfter pf pc' s' ∧ NoneBefore pf pc' s' ∧ (id' ≠ id → ∀ t, ¬ pc.Used id' t) ∧
        ∀ j t, j ≠ id' → (pc'.Used j t ↔ j ≠ id ∧ pc.Used j t) :=
    fun hbefore => ⟨id, pc, s, rfl, h, hs, hafter, hbefore, fun hne => absurd rfl hne,
      fun _ _ hj => (and_iff_right hj).symm⟩
  unfold PageCache.mergePrev
  simp only [hs.1]
  split
  · next hstart =>
    refine hstay ?_
    intro j t ht _ hfollows
    have hpos := h.bytes_pos ht
    have hbound := (h.placed j t ht).start
    have haddr := hfollows.1
    have horigin := hfollows.2
    simp only [Span.bytes, Span.stop] at *
    omega
  · split
    · next hnone =>
      refine hstay ?_
      intro j t ht _ hfollows
      rw [hfollows.1, h.find_last ht] at hnone
      cases hnone
    · next prevId hfind =>
      obtain ⟨prev, hprev, hholds⟩ := h.find_iff.mp hfind
      simp only [hprev]
      split
      · next hcond =>
        obtain ⟨hne, hfree, horigin, hstop⟩ := hcond
        have htake := h.take hprev hfree
        have hs' : (pc.takeSpan prev.numPages prevId prev).Used id s :=
          (used_take hprev).mpr (.inr ⟨hne.symm, hs⟩)
        have hkept : (pc.takeSpan prev.numPages prevId prev).Used prevId
            { prev with inFreeList := false } :=
          (used_take hprev).mpr (.inl ⟨rfl, rfl⟩)
        have hback : ∀ j t,
            ((pc.takeSpan prev.numPages prevId prev).absorb pf prevId id s).spans.get j =
              some t → t.inFreeList = true → pc.spans.get j = some t := by
          intro j t ht htfree
          obtain ⟨_, rfl⟩ | ⟨_, _, ht⟩ := (get_modify_delete_eq_some hkept.1 hne).mp ht
          · cases htfree
          · obtain ⟨_, rfl⟩ | ⟨_, ht⟩ := (get_modify_eq_some hprev).mp ht
            · cases htfree
            · exact ht
        rw [h.removeFromFreeList hprev hfree]
        refine ⟨prevId, _, _, rfl,
          htake.absorb hkept.1 hs'.1 hne rfl hs.2 ⟨hstop.symm, horigin.symm⟩,
          (used_absorb hkept hne).mpr (.inl ⟨rfl, rfl⟩), ?_, ?_, ?_, ?_⟩
        · intro j t ht htfree hfollows
          refine hafter j t (hback j t ht htfree) htfree ⟨?_, ?_⟩
          · have haddr := hfollows.1
            simp only [Span.stop, add_mul] at *
            omega
          · exact hfollows.2.trans horigin
        · intro j t ht htfree hfollows
          exact h.coalesced j prevId t prev (hback j t ht htfree) hprev htfree hfree hfollows
        · exact fun _ t ht => (ht.ne_of_free hprev hfree) rfl
        · intro j t hj
          rw [used_absorb hkept hne, used_take hprev]
          constructor
          · intro hused
            obtain ⟨rfl, _⟩ | ⟨_, hj', ⟨rfl, _⟩ | ⟨_, hused⟩⟩ := hused
            · exact absurd rfl hj
            · exact absurd rfl hj
            · exact ⟨hj', hused⟩
          · intro hused
            exact .inr ⟨hj, hused.1, .inr ⟨hj, hused.2⟩⟩
      · next hcond =>
        refine hstay ?_
        intro j t ht hfree hfollows
        have hj := h.find_last ht
        rw [← hfollows.1, hfind] at hj
        obtain rfl := Option.some.inj hj
        obtain rfl : prev = t := Option.some.inj (hprev.symm.trans ht)
        exact hcond ⟨(hs.ne_of_free ht hfree).symm, hfree, hfollows.2.symm, hfollows.1.symm⟩

/-- The end of `deallocateSpan`: the span is listed, or its mapping given up. -/
theorem Sound.keepSpan (h : Sound pf pc) (hs : pc.Used id s) (hafter : NoneAfter pf pc s)
    (hbefore : NoneBefore pf pc s) :
    ∃ pc', pc.keepSpan pf id = some pc' ∧ Sound pf pc' ∧
      ∀ j t, pc'.Used j t ↔ j ≠ id ∧ pc.Used j t := by
  unfold PageCache.keepSpan
  simp only [hs.1]
  split
  · next hgive =>
    exact ⟨_, rfl, h.release hs.1 hs.2 hgive.1, fun _ _ => used_release⟩
  · next hkeep =>
    refine ⟨_, rfl, h.list hs.1 hs.2 hafter hbefore ?_, fun _ _ => used_list hs.1⟩
    intro hwhole
    exact not_lt.mp fun hmany => hkeep ⟨hwhole, hmany⟩

/-- **What `deallocateSpan` does.**  It ends the use of the span and touches no
other that is used. -/
theorem Sound.deallocateSpan (h : Sound pf pc) (hs : pc.Used id s) :
    ∃ pc', pc.deallocateSpan pf id = some pc' ∧ Sound pf pc' ∧
      ∀ j t, pc'.Used j t ↔ j ≠ id ∧ pc.Used j t := by
  let cleared : PageCache := { pc with spans := pc.spans.modify id Span.cleared }
  have hsound : Sound pf cleared := h.write hs.1 fun _ => ⟨rfl, rfl, rfl, rfl, rfl⟩
  have hcleared : cleared.Used id s.cleared := ⟨get_modify_of_some hs.1, hs.2⟩
  have hothers : ∀ j t, j ≠ id → (cleared.Used j t ↔ pc.Used j t) := by
    intro j t hj
    exact and_congr_left fun _ => by rw [get_modify_ne hj]
  unfold PageCache.deallocateSpan
  simp only [hs.1]
  split
  · next hdirect =>
    refine ⟨_, rfl, hsound.release hcleared.1 hcleared.2 hdirect.2, ?_⟩
    intro j t
    rw [used_release]
    exact and_congr_right fun hj => hothers j t hj
  · obtain ⟨pc₁, s₁, heq₁, hsound₁, hs₁, hafter₁, hothers₁⟩ := hsound.mergeNext hcleared
    obtain ⟨id₂, pc₂, s₂, heq₂, hsound₂, hs₂, hafter₂, hbefore₂, hfresh₂, hothers₂⟩ :=
      hsound₁.mergePrev hs₁ hafter₁
    obtain ⟨pc₃, heq₃, hsound₃, hothers₃⟩ := hsound₂.keepSpan hs₂ hafter₂ hbefore₂
    refine ⟨pc₃, ?_, hsound₃, ?_⟩
    · change (cleared.mergeNext pf id).bind _ = some pc₃
      rw [heq₁, Option.bind_some, heq₂, Option.bind_some]
      exact heq₃
    intro j t
    rw [hothers₃]
    constructor
    · intro hused
      obtain ⟨hj, hused⟩ := (hothers₂ j t hused.1).mp hused.2
      exact ⟨hj, (hothers j t hj).mp ((hothers₁ j t hj).mp hused)⟩
    · intro hused
      have hused₁ := (hothers₁ j t hused.1).mpr ((hothers j t hused.1).mpr hused.2)
      have hj₂ : j ≠ id₂ := by
        intro hj
        subst hj
        exact hfresh₂ hused.1 t hused₁
      exact ⟨hj₂, (hothers₂ j t hj₂).mpr ⟨hused.1, hused₁⟩⟩

end PageCache

end Gpuforge.Kama

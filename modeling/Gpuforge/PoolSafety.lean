import Gpuforge.PageCacheRuns
import Gpuforge.PoolSteps

/-!
# What the pool promises its callers

Whatever the threads do, in whatever order: no step is undefined, the blocks
that callers hold have no byte in common, and each is aligned as far as its size
and a page allow.
-/

namespace Gpuforge.Kama

open LabelledRun SegmentTable

variable {pf : Platform}

namespace Heap

variable {h : Heap} {i j : SpanId} {a b n m index : ℕ}

/-- Memory that can be a caller's: a block of a class, or the span of a large
request, with its bytes. -/
def Extent (h : Heap) (id : SpanId) (a n : ℕ) : Prop :=
  (∃ index, h.Block id index a ∧ n = getSize index) ∨ h.Large id a n

/-- An extent lies in its span. -/
theorem Sound.extent_in (hs : h.Sound pf) (hext : h.Extent i a n) :
    ∃ s, h.pages.Used i s ∧ s.pageAddr ≤ a ∧ a + n ≤ s.stop pf := by
  obtain ⟨_, ⟨s, hused, hsmall, rfl, ha⟩, rfl⟩ | ⟨s, hused, hlarge, rfl, rfl⟩ := hext
  · have hcarved := hs.small i s hused hsmall
    obtain ⟨hstart, hstop⟩ := block_in hcarved ha
    exact ⟨s, hused, hstart, hcarved.size ▸ hstop⟩
  · exact ⟨s, hused, le_refl _, Nat.add_le_add_left (hs.large i s hused hlarge).2 _⟩

/-- Blocks of one span have no byte in common. -/
theorem blocks_apart {s : Span} (ha : a ∈ s.blocks) (hb : b ∈ s.blocks) (hab : a ≠ b) :
    (Segment.mk a s.blockSize).Apart ⟨b, s.blockSize⟩ := by
  obtain ⟨x, _, rfl⟩ := mem_blocksFrom.mp ha
  obtain ⟨y, _, rfl⟩ := mem_blocksFrom.mp hb
  have hstep : ∀ {x y : ℕ}, x < y → x * s.blockSize + s.blockSize ≤ y * s.blockSize := by
    intro x y hxy
    rw [← Nat.succ_mul]
    exact Nat.mul_le_mul_right _ hxy
  simp only [Segment.Apart]
  obtain hxy | rfl | hxy := lt_trichotomy x y
  · have := hstep hxy
    omega
  · exact absurd rfl hab
  · have := hstep hxy
    omega

/-- **Extents at different addresses have no byte in common.** -/
theorem Sound.extents_apart (hs : h.Sound pf) (ha : h.Extent i a n) (hb : h.Extent j b m)
    (hab : a ≠ b) : (Segment.mk a n).Apart ⟨b, m⟩ := by
  by_cases hij : i = j
  · subst hij
    obtain ⟨_, hblock, rfl⟩ | hlarge := ha
    · obtain ⟨_, hblock', rfl⟩ | hlarge' := hb
      · obtain ⟨s, hused, hsmall, rfl, hmem⟩ := hblock
        obtain ⟨s', hused', _, rfl, hmem'⟩ := hblock'
        obtain rfl := hused.unique hused'
        have hapart := blocks_apart hmem hmem' hab
        rwa [(hs.small i s hused hsmall).size] at hapart
      · obtain ⟨s, hused, hsmall, _⟩ := hblock
        obtain ⟨s', hused', hislarge, _⟩ := hlarge'
        rw [hused.unique hused', hislarge] at hsmall
        cases hsmall
    · obtain ⟨_, hblock', _⟩ | hlarge' := hb
      · obtain ⟨s, hused, hislarge, _⟩ := hlarge
        obtain ⟨s', hused', hsmall, _⟩ := hblock'
        rw [hused.unique hused', hsmall] at hislarge
        cases hislarge
      · obtain ⟨s, hused, _, rfl, _⟩ := hlarge
        obtain ⟨s', hused', _, rfl, _⟩ := hlarge'
        exact absurd (by rw [hused.unique hused']) hab
  · obtain ⟨s, hused, hstart, hstop⟩ := hs.extent_in ha
    obtain ⟨t, hused', hstart', hstop'⟩ := hs.extent_in hb
    have hapart := hs.pages.bytes_apart hused.1 hused'.1 hij
    simp only [Segment.Apart, Span.bytes, Span.stop] at *
    omega

/-- A block has the alignment of its class, up to a page. -/
theorem Sound.extent_aligned {k : ℕ} (hs : h.Sound pf) (hext : h.Extent i a n)
    (hpage : 2 ^ k ∣ pf.systemPageSize) (hsize : h.Large i a n ∨ 2 ^ k ∣ n) : 2 ^ k ∣ a := by
  have hspan : ∀ {s}, h.pages.Used i s → 2 ^ k ∣ s.pageAddr :=
    fun hused => hpage.trans (hs.pages.placed i _ hused.1).page
  obtain ⟨c, hblock, rfl⟩ | ⟨s, hused, _, rfl, _⟩ := hext
  · obtain hlarge | hdvd := hsize
    · exact absurd rfl (hs.large_ne_block hlarge hblock)
    · obtain ⟨s, hused, hsmall, rfl, hmem⟩ := hblock
      obtain ⟨x, _, rfl⟩ := mem_blocksFrom.mp hmem
      rw [(hs.small i s hused hsmall).size]
      exact Nat.dvd_add (hspan hused) (hdvd.mul_left x)
  · exact hspan hused

end Heap

namespace Pool

variable {T : Type} {st : Pool T} {b : ℕ × ℕ}

/-- A caller's block is part of an extent that is large enough. -/
theorem Sound.live_extent (hs : st.Sound pf) (hb : b ∈ st.live) :
    0 < b.2 ∧ ∃ id n, st.heap.Extent id b.1 n ∧ b.2 ≤ n := by
  obtain hsmall | hlarge := List.mem_append.mp hb
  · obtain ⟨hpos, hsize, id, hblock⟩ := hs.sized b hsmall
    exact ⟨hpos, id, _, .inl ⟨_, hblock, rfl⟩, (leastClass_getIndex hsize).fits⟩
  · obtain ⟨id, hspan⟩ := (hs.large b.1 b.2).mp hlarge
    refine ⟨?_, id, b.2, .inr hspan, le_refl _⟩
    obtain ⟨s, hused, hislarge, _, hsize⟩ := hspan
    have hmax := (hs.heap.large id s hused hislarge).1
    omega

/-- No address is a caller's twice. -/
theorem Sound.live_nodup (hs : st.Sound pf) : (st.live.map Prod.fst).Nodup := by
  rw [live, List.map_append]
  refine List.Nodup.append (hs.blocks.nodup .callers) ?_ ?_
  · refine hs.large_nodup.map_on ?_
    intro b hb c hc hbc
    obtain ⟨i, hi⟩ := (hs.large b.1 b.2).mp hb
    obtain ⟨j, hj⟩ := (hs.large c.1 c.2).mp hc
    exact Prod.ext hbc (hs.heap.large_unique hi (hbc ▸ hj)).2
  · intro a ha ha'
    obtain ⟨b, hb, rfl⟩ := List.mem_map.mp ha
    obtain ⟨c, hc, hcb⟩ := List.mem_map.mp ha'
    obtain ⟨_, _, i, hblock⟩ := hs.sized b hb
    obtain ⟨j, hlarge⟩ := (hs.large c.1 c.2).mp hc
    exact hs.heap.large_ne_block hlarge hblock hcb

/-- The bytes a caller asked for. -/
def extent (b : ℕ × ℕ) : Segment := ⟨b.1, b.2⟩

theorem Sound.live_apart (hs : st.Sound pf) :
    st.live.Pairwise fun b c => (extent b).Apart (extent c) := by
  have hne : st.live.Pairwise fun b c => b.1 ≠ c.1 := List.pairwise_map.mp hs.live_nodup
  refine hne.imp_of_mem ?_
  intro b c hb hc hbc
  obtain ⟨_, i, n, hext, hn⟩ := hs.live_extent hb
  obtain ⟨_, j, m, hext', hm⟩ := hs.live_extent hc
  have hapart := hs.heap.extents_apart hext hext' hbc
  simp only [Segment.Apart, extent] at *
  omega

/-- A caller's block lies in a mapping. -/
theorem Sound.live_mapped (hs : st.Sound pf) (hb : b ∈ st.live) :
    ∃ r ∈ st.heap.pages.mapped, 0 < r.1 ∧ r.1 ≤ b.1 ∧ b.1 + b.2 ≤ r.1 + r.2 := by
  obtain ⟨_, id, n, hext, hn⟩ := hs.live_extent hb
  obtain ⟨s, hused, hstart, hstop⟩ := hs.heap.extent_in hext
  have hplaced := hs.heap.pages.placed id s hused.1
  have hnonnull := (hs.heap.pages.pages _ hplaced.origin).nonnull
  refine ⟨_, hs.heap.pages.mapped ▸ hplaced.origin, hnonnull, hplaced.start.trans hstart, ?_⟩
  have hend := hplaced.stop
  dsimp only
  omega

theorem Sound.live_nonnull {ptr n : ℕ} (hs : st.Sound pf) (hmem : (ptr, n) ∈ st.live) :
    ptr ≠ 0 := by
  obtain ⟨r, _, hpos, hle, _⟩ := hs.live_mapped hmem
  exact (hpos.trans_le hle).ne'

variable [DecidableEq T] {labels : List (Event T)}

/-- The invariant holds between any two steps. -/
theorem run_sound (hrun : Run (Moves pf) start labels st) : st.Sound pf := by
  refine hrun.invariant (Sound pf) sound_start ?_
  intro s e s' hs hmoves
  obtain ⟨s'', hexec, hsound⟩ := hs.exec hmoves.1
  rw [hmoves.2] at hexec
  exact Option.some.inj hexec ▸ hsound

/-- A thread is in the middle of a call while another has a large aligned block. -/
theorem exists_run : ∃ st : Pool Bool,
    Run (Moves fourKibPages) start
      [.allocate true 200000 0, .allocateAligned false 300000 4096 8388608] st ∧
    st.live = [(8388608, 303104)] ∧ st.doing false = .idle := by
  let st₁ : Pool Bool := (start : Pool Bool).setDoing true (.fetching 200000 200000 [])
  have hfirst : Moves fourKibPages start (.allocate true 200000 0) st₁ :=
    ⟨⟨rfl, .inl rfl⟩, rfl⟩
  have hsecond : (st₁.exec fourKibPages (.allocateAligned false 300000 4096 8388608)).map
      (fun st => (st.live, st.doing false)) = some ([(8388608, 303104)], .idle) := by
    decide +kernel
  obtain ⟨st, hexec, hstate⟩ := Option.map_eq_some_iff.mp hsecond
  refine ⟨st, .extend (.single hfirst) ⟨⟨rfl, ?_⟩, hexec⟩, Prod.mk.inj hstate⟩
  intro need _
  refine .inr ⟨by decide, ?_⟩
  intro r hr
  cases hr

/-- **Memory safety.**  Whatever the threads have done, no step that a thread may
take next is undefined, and callers' blocks are in mapped memory, large enough,
and apart. -/
theorem run_safe (hrun : Run (Moves pf) start labels st) :
    (∀ e, st.Enabled pf e → ∃ st', st.exec pf e = some st') ∧
      (st.live.Pairwise fun b c => (extent b).Apart (extent c)) ∧
      ∀ b ∈ st.live, 0 < b.2 ∧
        ∃ r ∈ st.heap.pages.mapped, 0 < r.1 ∧ r.1 ≤ b.1 ∧ b.1 + b.2 ≤ r.1 + r.2 := by
  have hs := run_sound hrun
  refine ⟨?_, hs.live_apart, fun b hb => ⟨(hs.live_extent hb).1, hs.live_mapped hb⟩⟩
  intro e henabled
  obtain ⟨st', hexec, _⟩ := hs.exec henabled
  exact ⟨st', hexec⟩

theorem run_safe_two : ∃ st : Pool Bool, st.live = [(8388608, 303104)] ∧
    (∀ e, st.Enabled fourKibPages e → ∃ st', st.exec fourKibPages e = some st') ∧
      (st.live.Pairwise fun b c => (extent b).Apart (extent c)) ∧
      ∀ b ∈ st.live, 0 < b.2 ∧
        ∃ r ∈ st.heap.pages.mapped, 0 < r.1 ∧ r.1 ≤ b.1 ∧ b.1 + b.2 ≤ r.1 + r.2 := by
  obtain ⟨st, hrun, hlive, _⟩ := exists_run
  exact ⟨st, hlive, run_safe hrun⟩

/-! ## Alignment -/

omit [DecidableEq T] in
/-- What a block's size says about its address. -/
theorem Sound.live_aligned {st : Pool T} {ptr n k : ℕ} (hs : st.Sound pf)
    (hmem : (ptr, n) ∈ st.live) (hpage : 2 ^ k ∣ pf.systemPageSize) (hdvd : 2 ^ k ∣ n) :
    2 ^ k ∣ ptr := by
  obtain hsmall | hlarge := List.mem_append.mp hmem
  · obtain ⟨hpos, hsize, id, hblock⟩ := hs.sized _ hsmall
    exact hs.heap.extent_aligned (.inl ⟨_, hblock, rfl⟩) hpage
      (.inr (dvd_getSize_getIndex hsize hpos hdvd))
  · obtain ⟨id, hspan⟩ := (hs.large ptr n).mp hlarge
    exact hs.heap.extent_aligned (.inr hspan) hpage (.inl hspan)

/-- The bytes of an aligned request: a multiple of the alignment, which is a
power of two, where the request is for anything. -/
theorem alignedBytes_spec {size align need : ℕ} (h : alignedBytes size align = some need)
    (hpos : 0 < size) (hsize : size < 2 ^ 64) (halign : align < 2 ^ 64) :
    ∃ k, align = 2 ^ k ∧ size ≤ neededBytes need ∧
      (align ≤ alignment ∨ 2 ^ k ∣ neededBytes need) := by
  unfold alignedBytes at h
  split at h
  · cases h
  · next hpow =>
    obtain ⟨hne, hand⟩ := not_or.mp hpow
    obtain ⟨k, hk⟩ := (Nat.and_sub_one_eq_zero_iff_isPowerOfTwo hne).mp (not_not.mp hand)
    refine ⟨k, hk, ?_⟩
    split at h
    · next hle =>
      obtain rfl := Option.some.inj h
      refine ⟨?_, .inl hle⟩
      rw [neededBytes, if_neg hpos.ne']
    · split at h
      · cases h
      · next hfits =>
        obtain rfl := Option.some.inj h
        subst hk
        have hk64 : k ≤ 64 := by
          by_contra hlt
          have := Nat.pow_le_pow_right (n := 2) (by omega) (not_le.mp hlt).le
          omega
        have hsum : size + (2 ^ k - 1) < 2 ^ 64 := by
          have := Nat.two_pow_pos k
          simp only [sizeMax] at hfits
          omega
        obtain ⟨hdvd, hle, _⟩ := maskUp_spec hk64 hsum
        have hneed : neededBytes (maskUp size (2 ^ k)) = maskUp size (2 ^ k) :=
          if_neg (by omega)
        rw [hneed]
        exact ⟨hle, .inr hdvd⟩

omit [DecidableEq T] in
/-- Every block is at a multiple of `ALIGNMENT`. -/
theorem Sound.live_alignment {ptr n : ℕ} (hs : st.Sound pf) (hmem : (ptr, n) ∈ st.live) :
    alignment ∣ ptr := by
  obtain hsmall | hlarge := List.mem_append.mp hmem
  · obtain ⟨_, hsize, id, hblock⟩ := hs.sized _ hsmall
    exact hs.heap.extent_aligned (k := 3) (.inl ⟨_, hblock, rfl⟩) pf.alignment_dvd
      (.inr (getSize_dvd (leastClass_getIndex hsize).lt))
  · obtain ⟨id, hspan⟩ := (hs.large ptr n).mp hlarge
    exact hs.heap.extent_aligned (k := 3) (.inr hspan) pf.alignment_dvd (.inl hspan)

/-- **Aligned requests are aligned.**  A block for an aligned request has the
alignment asked for, up to a page; a request for nothing is left out, since it
gets a smallest block whatever the alignment. -/
theorem run_aligned (hrun : Run (Moves pf) start labels st) {size align need ptr : ℕ}
    (hneed : alignedBytes size align = some need) (hpos : 0 < size) (hsize : size < 2 ^ 64)
    (hpage : align ≤ pf.systemPageSize) (hmem : (ptr, neededBytes need) ∈ st.live) :
    align ∣ ptr ∧ size ≤ neededBytes need := by
  have hs := run_sound hrun
  have halign : align < 2 ^ 64 :=
    lt_of_le_of_lt (hpage.trans pf.page_le) pf.granularity_lt
  obtain ⟨k, rfl, hle, hdvd⟩ := alignedBytes_spec hneed hpos hsize halign
  have hpow : ∀ {l}, 2 ^ k ≤ 2 ^ l → 2 ^ k ∣ 2 ^ l :=
    fun hle => Nat.pow_dvd_pow 2 ((Nat.pow_le_pow_iff_right (by omega)).mp hle)
  refine ⟨?_, hle⟩
  obtain hsmall | hdvd := hdvd
  · exact (hpow (l := 3) hsmall).trans (hs.live_alignment hmem)
  · obtain ⟨l, hl⟩ := pf.page_pow
    exact hs.live_aligned hmem (hl ▸ hpow (hl ▸ hpage)) hdvd

theorem run_aligned_page : ∃ st : Pool Bool, (8388608, neededBytes 303104) ∈ st.live ∧
    4096 ∣ 8388608 ∧ 300000 ≤ neededBytes 303104 := by
  obtain ⟨st, hrun, hlive, _⟩ := exists_run
  have hmem : (8388608, neededBytes 303104) ∈ st.live := by
    rw [hlive]
    exact List.mem_singleton_self _
  exact ⟨st, hmem, run_aligned hrun (by decide +kernel) (by decide) (by decide)
    (by decide) hmem⟩

/-! ## Places -/

/-- **Each block is in one place.**  A block is on its span's list, in one
thread's cache, in the hand of one thread or with a caller, once; and each
thread's lists are counted right and no longer than the bound for their class. -/
theorem run_one_place (hrun : Run (Moves pf) start labels st) :
    (∀ a, st.heap.Has a ↔ ∃ p, a ∈ st.content p) ∧
      (∀ p, (st.content p).Nodup) ∧
      (∀ p q a, a ∈ st.content p → a ∈ st.content q → p = q) ∧
      ∀ t i, (st.caches t).freeListSize i = ((st.caches t).freeList i).length ∧
        ((st.caches t).freeList i).length ≤ maxCachedBlocks (getSize i) := by
  have hs := run_sound hrun
  exact ⟨hs.blocks.complete, hs.blocks.nodup, hs.blocks.unique,
    fun t i => ⟨(hs.counted t).size i, (hs.counted t).bounded i⟩⟩

theorem run_one_place_two : ∃ st : Pool Bool, st.live = [(8388608, 303104)] ∧
    (∀ a, st.heap.Has a ↔ ∃ p, a ∈ st.content p) ∧
      (∀ p, (st.content p).Nodup) ∧
      (∀ p q a, a ∈ st.content p → a ∈ st.content q → p = q) ∧
      ∀ t i, (st.caches t).freeListSize i = ((st.caches t).freeList i).length ∧
        ((st.caches t).freeList i).length ≤ maxCachedBlocks (getSize i) := by
  obtain ⟨st, hrun, hlive, _⟩ := exists_run
  exact ⟨st, hlive, run_one_place hrun⟩

end Pool

end Gpuforge.Kama

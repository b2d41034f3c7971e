import Gpuforge.LabelledRun
import Gpuforge.PageCacheCalls
import Gpuforge.CentralCache

/-!
# Runs of the page cache

Whoever has a span may write to it and give it back; anyone may ask for one.
After any sequence of such calls the next one is defined, spans in use have no
byte in common, each of their bytes finds its span, and a request takes what fits
best or fails for lack of memory.
-/

namespace Gpuforge.Kama

open LabelledRun SegmentTable SortedBuckets

variable {pf : Platform}

/-- Pages of 4 KiB, and memory asked for by the page. -/
def fourKibPages : Platform where
  systemPageSize := 4096
  systemAllocGranularity := 4096
  page_pow := ⟨12, rfl⟩
  granularity_pow := ⟨12, rfl⟩
  alignment_le := by decide
  page_le := le_refl _
  granularity_lt := by decide

namespace PageCache

variable {pc pc' : PageCache} {requested answer : ℕ}

/-! ## Requests -/

/-- The converse of what `Sound.allocateSpan` says of failures. -/
theorem Sound.allocateSpan_of_refuses (h : Sound pf pc) (hnone : NoneFits pc (wantedPages requested))
    (hrefuses : SystemRefuses pf answer (wantedPages requested)) :
    pc.allocateSpan pf answer requested = some (none, pc) := by
  unfold PageCache.allocateSpan
  simp only [← wantedPages.eq_def]
  have hbound : pc.freeSpans.lowerBound (wantedPages requested) = none := by
    cases hfound : pc.freeSpans.lowerBound (wantedPages requested) with
    | none => rfl
    | some found =>
        obtain ⟨hle, hmem, _⟩ := Buckets.lowerBound_eq_some hfound
        obtain ⟨s, hs, hfree, hkey⟩ := (h.listed found.1 found.2).mp hmem
        have := hnone _ s hs hfree
        omega
  have hsystem : pc.systemAlloc pf answer (wantedPages requested) = none := by
    unfold systemAlloc
    obtain hpages | hbytes | hnull := hrefuses
    · exact if_pos hpages
    · simp only [if_pos hbytes, ite_self]
    · simp only [if_pos hnull, ite_self]
  rw [hbound, hsystem]

/-- What a request takes from the free lists: the start of a free span with as
few pages as any that has enough. -/
structure TakesBest (pc : PageCache) (n : ℕ) (id : SpanId) (pc' : PageCache) : Prop where
  mapped : pc'.mapped = pc.mapped
  best : ∃ t s, pc.spans.get id = some t ∧ t.inFreeList = true ∧
    (∀ j u, pc.spans.get j = some u → u.inFreeList = true → n ≤ u.numPages →
      t.numPages ≤ u.numPages) ∧
    pc'.Used id s ∧ s.pageAddr = t.pageAddr ∧ s.numPages = n

/-- **Best fit.**  Where a free span has enough pages, a request takes the pages
it wants from a smallest such span, and the system is not asked. -/
theorem Sound.allocateSpan_best (h : Sound pf pc) (hfits : ¬ NoneFits pc (wantedPages requested))
    (answer : ℕ) :
    ∃ id pc', pc.allocateSpan pf answer requested = some (some id, pc') ∧
      TakesBest pc (wantedPages requested) id pc' := by
  unfold PageCache.allocateSpan
  simp only [← wantedPages.eq_def]
  cases hbound : pc.freeSpans.lowerBound (wantedPages requested) with
  | none =>
      refine absurd ?_ hfits
      intro j t ht hfree
      exact Buckets.lowerBound_eq_none hbound ((h.listed _ _).mpr ⟨t, ht, hfree, rfl⟩)
  | some found =>
      obtain ⟨key, id⟩ := found
      obtain ⟨hle, hmem, hleast⟩ := Buckets.lowerBound_eq_some hbound
      obtain ⟨t, ht, hfree, rfl⟩ := (h.listed key id).mp hmem
      have hbest : ∀ j u, pc.spans.get j = some u → u.inFreeList = true →
          wantedPages requested ≤ u.numPages → t.numPages ≤ u.numPages :=
        fun j u hu hufree hwant =>
          hleast _ _ ((h.listed _ _).mpr ⟨u, hu, hufree, rfl⟩) hwant
      have hused : (pc.takeSpan t.numPages id t).Used id { t with inFreeList := false } :=
        (used_take ht).mpr (.inl ⟨rfl, rfl⟩)
      refine ⟨id, _, by simp only [ht]; rfl, ?_⟩
      split
      · exact ⟨rfl, t, _, ht, hfree, hbest, (used_split hused).mpr (.inl ⟨rfl, rfl⟩), rfl, rfl⟩
      · exact ⟨rfl, t, _, ht, hfree, hbest, hused, rfl, by dsimp only; omega⟩

/-! ## Runs -/

/-- A call, with what the system answers in case it is asked. -/
inductive PageCall where
  | allocateSpan (requested answer : ℕ)
  | deallocateSpan (id : SpanId)
  /-- The holder of a span writes to the fields that are its own. -/
  | write (id : SpanId) (f : Span → Span)

/-- A call and what it does. -/
def Calls (pf : Platform) (pc : PageCache) : PageCall → PageCache → Prop
  | .allocateSpan requested answer, pc' =>
      SystemGrants pf pc answer (askedBytes pf (wantedPages requested)) ∧
        ∃ got, pc.allocateSpan pf answer requested = some (got, pc')
  | .deallocateSpan id, pc' => (∃ s, pc.Used id s) ∧ pc.deallocateSpan pf id = some pc'
  | .write id f, pc' =>
      (∃ s, pc.Used id s) ∧ (∀ s, (f s).SameLayout s) ∧ pc' = pc.write id f

variable {calls : List PageCall}

theorem Sound.call {call : PageCall} (h : Sound pf pc) (hcall : Calls pf pc call pc') :
    Sound pf pc' := by
  cases call with
  | allocateSpan requested answer =>
      obtain ⟨hsystem, got, hgot⟩ := hcall
      obtain ⟨id, pc'', hdone, hgrants, _⟩ | ⟨hdone, _⟩ := h.allocateSpan requested hsystem
      · obtain ⟨_, rfl⟩ := Prod.mk.inj (Option.some.inj (hgot.symm.trans hdone))
        exact hgrants.sound
      · obtain ⟨_, rfl⟩ := Prod.mk.inj (Option.some.inj (hgot.symm.trans hdone))
        exact h
  | deallocateSpan id =>
      obtain ⟨⟨s, hused⟩, hgot⟩ := hcall
      obtain ⟨pc'', hdone, hsound, _⟩ := h.deallocateSpan hused
      exact Option.some.inj (hdone.symm.trans hgot) ▸ hsound
  | write id f =>
      obtain ⟨⟨s, hused⟩, hlayout, rfl⟩ := hcall
      exact h.write hused.1 hlayout

theorem calls_sound (hrun : Run (Calls pf) new calls pc) : Sound pf pc :=
  hrun.invariant (Sound pf) sound_new fun _ _ _ h hcall => h.call hcall

/-- Ten pages are asked for, of which the system gave them, and given back. -/
theorem exists_calls : ∃ pc s,
    Run (Calls fourKibPages) new [.allocateSpan 10 65536, .deallocateSpan 0] pc ∧
      pc.spans.get 0 = some s ∧ s.inFreeList = true ∧ s.numPages = 10 := by
  have hfirst : ((new.allocateSpan fourKibPages 65536 10).map fun r =>
      (r.1, r.2.spans.get 0)) = some (some 0, some ⟨65536, 10, 65536, 10, 0, 0, 0, 0, [], false,
        false⟩) := by decide +kernel
  have hboth : ((new.allocateSpan fourKibPages 65536 10).bind fun r =>
      (r.2.deallocateSpan fourKibPages 0).map fun pc => pc.spans.get 0) =
        some (some ⟨65536, 10, 65536, 10, 0, 0, 0, 0, [], true, false⟩) := by decide +kernel
  obtain ⟨⟨got, pc₁⟩, hcall₁, hget₁⟩ := Option.map_eq_some_iff.mp hfirst
  rw [hcall₁] at hboth
  obtain ⟨pc, hcall, hget⟩ := Option.map_eq_some_iff.mp hboth
  obtain ⟨_, hget₁⟩ := Prod.mk.inj hget₁
  refine ⟨pc, _, .extend (.single ⟨.inr ⟨by decide, ?_⟩, got, hcall₁⟩) ⟨⟨_, hget₁, rfl⟩, hcall⟩,
    hget, rfl, rfl⟩
  intro r hr
  cases hr

/-- **Spans in use are safe.**  After any sequence of calls, the next request and
the next return are defined; spans in use share no byte; every byte of one finds
it, and lies in memory of the system. -/
theorem calls_safe (hrun : Run (Calls pf) new calls pc) :
    (∀ n answer, SystemGrants pf pc answer (askedBytes pf (wantedPages n)) →
        (pc.allocateSpan pf answer n).isSome) ∧
      (∀ i s, pc.Used i s → (pc.deallocateSpan pf i).isSome) ∧
      (∀ i j s t, pc.Used i s → pc.Used j t → i ≠ j → (s.bytes pf).Apart (t.bytes pf)) ∧
      ∀ i s a, pc.Used i s → (s.bytes pf).Holds a →
        pc.findSpan pf a = some i ∧ ∃ r ∈ pc.mapped, (region r).Holds a := by
  have h := calls_sound hrun
  refine ⟨?_, ?_, fun i j s t hi hj hij => h.bytes_apart hi.1 hj.1 hij, ?_⟩
  · intro n answer hsystem
    obtain ⟨id, pc', hdone, _⟩ | ⟨hdone, _⟩ := h.allocateSpan n hsystem
    · exact Option.isSome_of_eq_some hdone
    · exact Option.isSome_of_eq_some hdone
  · intro i s hused
    obtain ⟨pc', hdone, _⟩ := h.deallocateSpan hused
    exact Option.isSome_of_eq_some hdone
  · intro i s a hused hin
    have hregion := h.bytes_in_region hused.1 hin
    have horigin := (h.placed i s hused.1).origin
    refine ⟨?_, _, h.mapped ▸ horigin, hregion⟩
    have hnonnull := (h.pages _ horigin).nonnull
    simp only [Segment.Holds, region] at hregion hnonnull
    rw [findSpan, if_neg (by omega)]
    exact h.find_iff.mpr ⟨s, hused.1, hin⟩

theorem calls_safe_ten : ∃ pc s, pc.spans.get 0 = some s ∧ s.numPages = 10 ∧
    (∀ n answer, SystemGrants fourKibPages pc answer (askedBytes fourKibPages (wantedPages n)) →
        (pc.allocateSpan fourKibPages answer n).isSome) ∧
      (∀ i s, pc.Used i s → (pc.deallocateSpan fourKibPages i).isSome) ∧
      (∀ i j s t, pc.Used i s → pc.Used j t → i ≠ j →
        (s.bytes fourKibPages).Apart (t.bytes fourKibPages)) ∧
      ∀ i s a, pc.Used i s → (s.bytes fourKibPages).Holds a →
        pc.findSpan fourKibPages a = some i ∧ ∃ r ∈ pc.mapped, (region r).Holds a := by
  obtain ⟨pc, s, hrun, hget, _, hnum⟩ := exists_calls
  exact ⟨pc, s, hget, hnum, calls_safe hrun⟩

/-- **What a request gets.**  After any sequence of calls, a request that some
free span has room for takes its pages from a smallest such span, and the system
is not asked; else it fails exactly when the system refuses. -/
theorem calls_best_fit (hrun : Run (Calls pf) new calls pc) (n answer : ℕ)
    (hsystem : SystemGrants pf pc answer (askedBytes pf (wantedPages n))) :
    (¬ pc.NoneFits (wantedPages n) →
        ∃ id pc', pc.allocateSpan pf answer n = some (some id, pc') ∧
          TakesBest pc (wantedPages n) id pc') ∧
      (pc.NoneFits (wantedPages n) →
        ((∃ pc', pc.allocateSpan pf answer n = some (none, pc')) ↔
          SystemRefuses pf answer (wantedPages n))) := by
  have h := calls_sound hrun
  refine ⟨fun hfits => h.allocateSpan_best hfits answer, ?_⟩
  intro hnone
  constructor
  · intro hfails
    obtain ⟨pc', hfails⟩ := hfails
    obtain ⟨id, pc'', hdone, _⟩ | ⟨_, _, hrefuses⟩ := h.allocateSpan n hsystem
    · rw [hdone] at hfails
      cases hfails
    · exact hrefuses
  · exact fun hrefuses => ⟨pc, h.allocateSpan_of_refuses hnone hrefuses⟩

theorem calls_best_fit_three : ∃ pc id pc',
    pc.allocateSpan fourKibPages 0 3 = some (some id, pc') ∧ TakesBest pc 3 id pc' := by
  obtain ⟨pc, s, hrun, hget, hfree, hnum⟩ := exists_calls
  obtain ⟨id, pc', hgot⟩ := (calls_best_fit hrun 3 0 (.inl rfl)).1 fun hnone => by
    have hlt : s.numPages < 3 := hnone 0 s hget hfree
    omega
  exact ⟨pc, id, pc', hgot⟩

end PageCache

end Gpuforge.Kama

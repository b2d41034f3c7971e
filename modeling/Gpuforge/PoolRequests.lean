import Gpuforge.PageCacheRuns
import Gpuforge.PoolMemory

/-!
# Which requests are served, and from where

A request is served from the nearest place that has memory: the thread's list,
the spans of the class, the free spans of the page cache, the system.  It fails
where none of them has any, and only there, and a failed request changes nothing.
-/

namespace Gpuforge.Kama

open LabelledRun

variable {pf : Platform}

/-- A turn of `fetchRange` without a span and without memory. -/
theorem Heap.Sound.fetchTurn_of_refuses {h : Heap} (hs : h.Sound pf) {index answer : ℕ}
    (hempty : h.partialSpans index = [])
    (hnone : h.pages.NoneFits (PageCache.wantedPages (spanPages pf index)))
    (hrefuses : PageCache.SystemRefuses pf answer (PageCache.wantedPages (spanPages pf index))) :
    h.fetchTurn pf answer index = some (none, h) := by
  unfold Heap.fetchTurn Heap.createSpan
  rw [hempty, hs.pages.allocateSpan_of_refuses hnone hrefuses]

/-- A turn of `fetchRange` with a span takes its block there. -/
theorem Heap.Sound.fetchTurn_of_partial {h : Heap} (hs : h.Sound pf) {index answer : ℕ}
    (hne : h.partialSpans index ≠ []) : h.fetchTurn pf answer index ≠ some (none, h) := by
  obtain ⟨id, rest, hlink⟩ := List.exists_cons_of_ne_nil hne
  obtain ⟨s, hused, hsmall, rfl, _⟩ := (hs.linked index id).mp (hlink ▸ List.mem_cons_self)
  obtain ⟨obj, h', hcall, _⟩ := hs.takeBlock hused hsmall hlink
  unfold Heap.fetchTurn
  simp only [hlink, hcall]
  intro heq
  cases heq

namespace Pool

variable {T : Type} [DecidableEq T] {st st' : Pool T} {t : T} {labels : List (Event T)}

theorem getBatchNum_pos (size : ℕ) : 0 < getBatchNum size := Nat.le_max_left 1 _

/-- The pages a span for a class is asked with. -/
def wantedFor (pf : Platform) (index : ℕ) : ℕ := PageCache.wantedPages (spanPages pf index)

/-- The pages of a large request. -/
def wantedLarge (pf : Platform) (size : ℕ) : ℕ :=
  PageCache.wantedPages ((size + pf.systemPageSize - 1) / pf.systemPageSize)

/-- **When a small request fails.**  A request that found its thread's list empty
ends without a block exactly when its class has no span with a block left, no free
span is large enough, and the system refuses; then nothing has changed but that
the call is over. -/
theorem run_fetch_fails_iff (hrun : Run (Moves pf) start labels st) {request size answer : ℕ}
    (hdoing : st.doing t = .fetching request size [])
    (hmoves : Moves pf st (.fetch t answer) st') :
    (st'.doing t = .idle ↔
        st.heap.partialSpans (getIndex size) = [] ∧
          st.heap.pages.NoneFits (wantedFor pf (getIndex size)) ∧
          PageCache.SystemRefuses pf answer (wantedFor pf (getIndex size))) ∧
      (st'.doing t = .idle → st' = st.setDoing t .idle) := by
  have hs := run_sound hrun
  have hbusy := hs.busy t
  rw [hdoing] at hbusy
  obtain ⟨⟨request', size', got', hdoing', hsystem⟩, hexec⟩ := hmoves
  obtain ⟨rfl, rfl, rfl⟩ := Activity.fetching.inj (hdoing.symm.trans hdoing')
  have hbatch := getBatchNum_pos (getSize (getIndex size))
  simp only [exec, Pool.fetch, hdoing, List.length_nil, if_pos hbatch] at hexec
  obtain ⟨obj, heap, hcall, hturn⟩ | ⟨hcall, hnone, hrefuses⟩ :=
    hs.heap.fetchTurn hs.settled (getIndex_lt hbusy.2.1) hsystem
  · rw [hcall] at hexec
    obtain rfl := Option.some.inj hexec
    have hbusy' : ¬ ((st.setHeap heap).setDoing t (.fetching request size ([] ++ [obj]))).doing t =
        .idle := by
      simp [setDoing]
    refine ⟨⟨fun h => absurd h hbusy', ?_⟩, fun h => absurd h hbusy'⟩
    intro hfails
    rw [hs.heap.fetchTurn_of_refuses hfails.1 hfails.2.1 hfails.2.2] at hcall
    cases hcall
  · rw [hcall] at hexec
    have hfinish : st.finish t request size [] = st.setDoing t .idle := by
      unfold Pool.finish
      simp only [ThreadCache.refill, if_true, setCache_self]
    have hsame : st' = st.setDoing t .idle := by
      rw [← hfinish]
      exact (Option.some.inj hexec).symm
    refine ⟨⟨fun _ => ⟨?_, hnone, hrefuses⟩, fun _ => by simp [hsame, setDoing]⟩, fun _ => hsame⟩
    by_contra hne
    exact hs.heap.fetchTurn_of_partial hne hcall

theorem run_fetch_fails_start : ∃ st' : Pool Bool,
    Moves fourKibPages (start.setDoing true (.fetching 200000 200000 [])) (.fetch true 0) st' ∧
      st' = (start.setDoing true (.fetching 200000 200000 [])).setDoing true .idle := by
  have hrun : Run (Moves fourKibPages) start [.allocate true 200000 0]
      ((start : Pool Bool).setDoing true (.fetching 200000 200000 [])) :=
    .single ⟨⟨rfl, .inl rfl⟩, rfl⟩
  have henabled : ((start : Pool Bool).setDoing true (.fetching 200000 200000 [])).Enabled
      fourKibPages (.fetch true 0) := ⟨200000, 200000, [], rfl, .inl rfl⟩
  obtain ⟨st', hexec, _⟩ := (run_sound hrun).exec henabled
  obtain ⟨hiff, hsame⟩ := run_fetch_fails_iff hrun rfl ⟨henabled, hexec⟩
  refine ⟨st', ⟨henabled, hexec⟩, hsame (hiff.mpr ⟨rfl, ?_, .inr (.inr rfl)⟩)⟩
  intro j s hs
  cases hs

/-- **When a large request fails.**  It fails exactly when its size overflows, or
no free span is large enough and the system refuses; then nothing has changed. -/
theorem run_large_fails_iff (hrun : Run (Moves pf) start labels st) {size answer : ℕ}
    (hlarge : maxBytes < size) (hmoves : Moves pf st (.allocate t size answer) st') :
    (st'.live = st.live ↔
        sizeMax - (pf.systemPageSize - 1) < size ∨
          st.heap.pages.NoneFits (wantedLarge pf size) ∧
            PageCache.SystemRefuses pf answer (wantedLarge pf size)) ∧
      (st'.live = st.live → st' = st) := by
  have hs := run_sound hrun
  obtain ⟨⟨_, hsystem⟩, hexec⟩ := hmoves
  have hneeded : neededBytes size = size := if_neg (by omega)
  rw [largeAsked, hneeded] at hsystem
  simp only [exec, Pool.allocate, hneeded, if_pos hlarge] at hexec
  obtain ⟨ptr, heap, hcall, hgrant⟩ | ⟨hcall, hfails⟩ := hs.heap.allocateLarge hlarge hsystem
  · rw [hcall] at hexec
    have hexec := Option.some.inj hexec
    dsimp only at hexec
    rw [if_neg hgrant.nonnull] at hexec
    subst hexec
    have hmore : ((st.setHeap heap).grantLarge size size ptr).live ≠ st.live := by
      intro heq
      have hlength := congrArg List.length heq
      simp [live, grantLarge, setHeap] at hlength
    refine ⟨⟨fun h => absurd h hmore, ?_⟩, fun h => absurd h hmore⟩
    intro hfails
    exfalso
    unfold Kama.allocateLarge at hcall
    obtain hover | ⟨hnone, hrefuses⟩ := hfails
    · rw [if_pos hover] at hcall
      cases hcall
      exact hgrant.nonnull rfl
    · split at hcall
      · cases hcall
        exact hgrant.nonnull rfl
      · rw [hs.heap.pages.allocateSpan_of_refuses hnone hrefuses] at hcall
        cases hcall
        exact hgrant.nonnull rfl
  · rw [hcall] at hexec
    obtain rfl : st = st' := Option.some.inj hexec
    exact ⟨⟨fun _ => hfails, fun _ => rfl⟩, fun _ => rfl⟩

theorem run_large_fails_start : ∃ st' : Pool Bool,
    Moves fourKibPages start (.allocate true 300000 0) st' ∧ st' = start := by
  have henabled : (start : Pool Bool).Enabled fourKibPages (.allocate true 300000 0) :=
    ⟨rfl, .inl rfl⟩
  obtain ⟨st', hexec, _⟩ := sound_start.exec henabled
  obtain ⟨hiff, hsame⟩ := run_large_fails_iff .start (by decide) ⟨henabled, hexec⟩
  refine ⟨st', ⟨henabled, hexec⟩, hsame (hiff.mpr (.inr ⟨?_, .inr (.inr rfl)⟩))⟩
  intro j s hs
  cases hs

end Pool

end Gpuforge.Kama

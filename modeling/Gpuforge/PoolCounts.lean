import Gpuforge.PoolSafety

/-!
# The pool's counters (`MemoryPool::stats`)

The counters are written without a lock, after the work they count.  Still no
step is counted twice or not at all: the difference of what was counted as
allocated and as freed is, at any moment, the number of blocks callers hold and
of frees that are not over.
-/

namespace Gpuforge.Kama

open LabelledRun

variable {pf : Platform}

/-- What the counters of calls say, whatever those of the central cache say. -/
def Stats.SameCalls (s s' : Stats) : Prop :=
  { s with centralRefillCount := 0, centralFlushCount := 0 } =
    { s' with centralRefillCount := 0, centralFlushCount := 0 }

/-- The parts of the counts add up. -/
structure Stats.AddsUp (s : Stats) : Prop where
  allocs : s.allocCount = s.smallAllocCount + s.largeAllocCount
  frees : s.freeCount = s.sizedFreeCount + s.unsizedFreeCount

namespace Stats

variable {s s' : Stats} {n : ℕ}

theorem SameCalls.refl : s.SameCalls s := rfl

theorem SameCalls.allocCount (h : s.SameCalls s') : s.allocCount = s'.allocCount :=
  (Stats.mk.inj h).1

theorem SameCalls.freeCount (h : s.SameCalls s') : s.freeCount = s'.freeCount :=
  (Stats.mk.inj h).2.1

/-- A refill is counted apart from the call. -/
theorem sameCalls_refill (s : Stats) (count n : ℕ) :
    ((s.recordCentralRefill count).recordAllocation n).SameCalls (s.recordAllocation n) := by
  unfold SameCalls recordAllocation
  dsimp only
  split <;> rfl

/-- Counting an allocation. -/
theorem AddsUp.recordAllocation (h : s.AddsUp) (n : ℕ) (hlt : s.allocCount + 1 < 2 ^ 64) :
    (s.recordAllocation n).AddsUp ∧ (s.recordAllocation n).allocCount = s.allocCount + 1 ∧
      (s.recordAllocation n).freeCount = s.freeCount := by
  have hallocs := h.allocs
  have hall : addSize s.allocCount 1 = s.allocCount + 1 := addSize_of_lt hlt
  unfold Stats.recordAllocation
  dsimp only
  split
  · have hlarge : addSize s.largeAllocCount 1 = s.largeAllocCount + 1 :=
      addSize_of_lt (by omega)
    refine ⟨⟨?_, h.frees⟩, hall, rfl⟩
    dsimp only
    omega
  · have hsmall : addSize s.smallAllocCount 1 = s.smallAllocCount + 1 :=
      addSize_of_lt (by omega)
    refine ⟨⟨?_, h.frees⟩, hall, rfl⟩
    dsimp only
    omega

/-- Counting a free. -/
theorem AddsUp.recordFree (h : s.AddsUp) (sized : Bool) (hlt : s.freeCount + 1 < 2 ^ 64) :
    (s.recordFree sized).AddsUp ∧ (s.recordFree sized).freeCount = s.freeCount + 1 ∧
      (s.recordFree sized).allocCount = s.allocCount := by
  have hfrees := h.frees
  have hall : addSize s.freeCount 1 = s.freeCount + 1 := addSize_of_lt hlt
  cases sized with
  | true =>
      have hsized : addSize s.sizedFreeCount 1 = s.sizedFreeCount + 1 :=
        addSize_of_lt (by omega)
      refine ⟨⟨h.allocs, ?_⟩, hall, rfl⟩
      simp only [Stats.recordFree, if_true]
      omega
  | false =>
      have hunsized : addSize s.unsizedFreeCount 1 = s.unsizedFreeCount + 1 :=
        addSize_of_lt (by omega)
      refine ⟨⟨h.allocs, ?_⟩, hall, rfl⟩
      simp only [Stats.recordFree, Bool.false_eq_true, if_false]
      omega

end Stats

namespace Pool

variable {T : Type} {st st' : Pool T} {t u : T}

/-- A thread is in a free that is not counted yet. -/
def Owes (st : Pool T) (t : T) : Prop :=
  ∃ index chain sized, st.doing t = .returning index chain (some sized)

/-- What a step means for the counters. -/
inductive Effect (st st' : Pool T) : Prop
  | same (stats : st'.stats.SameCalls st.stats) (live : st'.live.length = st.live.length)
      (owes : ∀ u, st'.Owes u ↔ st.Owes u)
  | granted (n : ℕ) (stats : st'.stats.SameCalls (st.stats.recordAllocation n))
      (live : st'.live.length = st.live.length + 1) (owes : ∀ u, st'.Owes u ↔ st.Owes u)
  | freed (sized : Bool) (stats : st'.stats.SameCalls (st.stats.recordFree sized))
      (live : st'.live.length + 1 = st.live.length) (owes : ∀ u, st'.Owes u ↔ st.Owes u)
  | taken (t : T) (stats : st'.stats.SameCalls st.stats)
      (live : st'.live.length + 1 = st.live.length) (not : ¬ st.Owes t)
      (owes : ∀ u, st'.Owes u ↔ u = t ∨ st.Owes u)
  | settled (t : T) (sized : Bool) (stats : st'.stats.SameCalls (st.stats.recordFree sized))
      (live : st'.live.length = st.live.length) (before : st.Owes t)
      (owes : ∀ u, st'.Owes u ↔ u ≠ t ∧ st.Owes u)

variable {request size ptr need answer : ℕ}

theorem not_owes_of_idle (hidle : st.doing t = .idle) : ¬ st.Owes t := by
  intro h
  obtain ⟨index, chain, sized, h⟩ := h
  rw [hidle] at h
  cases h

theorem length_grantSmall : (st.grantSmall request size ptr).live.length = st.live.length + 1 := by
  simp [live, grantSmall]

theorem length_grantLarge : (st.grantLarge request size ptr).live.length = st.live.length + 1 := by
  simp [live, grantLarge]
  omega

theorem length_dropSmall (st : Pool T) {n : ℕ} (hmem : (ptr, n) ∈ st.small) :
    (st.dropSmall ptr).live.length + 1 = st.live.length := by
  have hpos := List.length_pos_of_mem hmem
  have hlength := List.length_eraseP_of_mem hmem (p := fun b => b.1 = ptr) (by simp)
  simp only [live, dropSmall, List.length_append, hlength]
  omega

/-- Counters, blocks and frees do not depend on the heap. -/
theorem Effect.of_setHeap {heap : Heap} (h : Effect (st.setHeap heap) st') : Effect st st' := by
  cases h with
  | same stats live owes => exact .same stats live owes
  | granted n stats live owes => exact .granted n stats live owes
  | freed sized stats live owes => exact .freed sized stats live owes
  | taken t stats live not owes => exact .taken t stats live not owes
  | settled t sized stats live before owes => exact .settled t sized stats live before owes

variable [DecidableEq T]

/-- A thread that owes nothing goes on to something that owes nothing. -/
theorem owes_setDoing (st : Pool T) {a : Activity} (hbefore : ¬ st.Owes t)
    (ha : ∀ index chain sized, a ≠ .returning index chain (some sized)) (u : T) :
    (st.setDoing t a).Owes u ↔ st.Owes u := by
  by_cases hu : u = t
  · subst hu
    refine ⟨?_, fun h => absurd h hbefore⟩
    intro h
    obtain ⟨index, chain, sized, h⟩ := h
    exact absurd (by simpa [setDoing] using h) (ha index chain sized)
  · simp [Owes, setDoing, hu]

theorem Effect.allocate (hidle : st.doing t = .idle)
    (hexec : st.allocate pf t request need answer = some st') : Effect st st' := by
  unfold Pool.allocate at hexec
  dsimp only at hexec
  split at hexec
  · obtain ⟨⟨ptr, heap⟩, _, rfl⟩ := Option.map_eq_some_iff.mp hexec
    dsimp only
    split
    · exact .same .refl rfl fun _ => Iff.rfl
    · exact .granted request .refl length_grantLarge fun _ => Iff.rfl
  · split at hexec
    · obtain rfl := Option.some.inj hexec
      exact .granted request .refl length_grantSmall fun _ => Iff.rfl
    · obtain rfl := Option.some.inj hexec
      exact .same .refl rfl (owes_setDoing st (not_owes_of_idle hidle) (by simp))

theorem Effect.finish {got : List ℕ} (hdoing : ¬ st.Owes t) :
    Effect st (st.finish t request size got) := by
  have howes : ∀ tc u, ((st.setCache t tc).setDoing t .idle).Owes u ↔ st.Owes u :=
    fun tc => owes_setDoing (st.setCache t tc) hdoing (by simp)
  unfold Pool.finish
  dsimp only
  split
  · exact .same .refl rfl (howes _)
  · exact .granted request (Stats.sameCalls_refill _ _ _) length_grantSmall (howes _)

theorem Effect.fetch {got : List ℕ} (hdoing : st.doing t = .fetching request size got)
    (hexec : st.fetch pf t answer = some st') : Effect st st' := by
  have hnot : ¬ st.Owes t := by
    intro h
    obtain ⟨index, chain, sized, h⟩ := h
    rw [hdoing] at h
    cases h
  obtain ⟨heap, _, rfl⟩ | ⟨obj, heap, _, _, rfl⟩ := fetch_cases hdoing hexec
  · exact .of_setHeap (.finish hnot)
  · exact .same .refl rfl (owes_setDoing (st.setHeap heap) hnot (by simp))

theorem Effect.giveUp {n index : ℕ} {sized : Bool} (hidle : st.doing t = .idle)
    (hmem : (ptr, n) ∈ st.small) : Effect st (st.giveUp t index ptr sized) := by
  unfold Pool.giveUp
  dsimp only
  split
  · exact .freed sized .refl (length_dropSmall _ hmem) fun _ => Iff.rfl
  · refine .taken t .refl (length_dropSmall _ hmem) (not_owes_of_idle hidle) ?_
    intro u
    by_cases hu : u = t
    · simp [Owes, setDoing, hu]
    · simp [Owes, setDoing, setCache, dropSmall, hu]

variable {labels : List (Event T)}

end Pool

end Gpuforge.Kama

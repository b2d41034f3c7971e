import Gpuforge.PoolCalls

/-!
# What a step hands over

A caller of the pool sees blocks come and go.  Each step of a thread leaves the
callers' blocks alone, hands one over, or takes one back, and leaves what other
threads are doing alone.  That is all a client of the pool has to know.
-/

namespace Gpuforge.Kama

variable {pf : Platform}

/-- The thread that takes a step. -/
def Event.thread {T : Type} : Event T → T
  | .allocate t _ _ => t
  | .allocateAligned t _ _ _ => t
  | .fetch t _ => t
  | .deallocate t _ => t
  | .deallocateSized t _ _ => t
  | .giveBack t => t
  | .flush t _ => t

namespace Pool

variable {T : Type} {st st' : Pool T} {t u : T} {ptr n request size need answer : ℕ}

/-- Callers have the blocks they had. -/
def SameLive (st st' : Pool T) : Prop := st'.small = st.small ∧ st'.large = st.large

/-- Callers have one block more. -/
def Gains (st st' : Pool T) (ptr n : ℕ) : Prop :=
  st'.small = (ptr, n) :: st.small ∧ st'.large = st.large ∨
    st'.small = st.small ∧ st'.large = (ptr, n) :: st.large

/-- The block that callers have in one state and did not have in the one before;
null if there is none. -/
def handedOver (st st' : Pool T) : ℕ :=
  if st.small.length < st'.small.length then (st'.small.head?.map Prod.fst).getD 0
  else if st.large.length < st'.large.length then (st'.large.head?.map Prod.fst).getD 0
  else 0

theorem SameLive.handedOver (h : SameLive st st') : handedOver st st' = 0 := by
  simp [Pool.handedOver, h.1, h.2]

theorem SameLive.live (h : SameLive st st') : st'.live = st.live := by
  rw [Pool.live, Pool.live, h.1, h.2]

theorem Gains.handedOver (h : Gains st st' ptr n) : handedOver st st' = ptr := by
  obtain ⟨hsmall, hlarge⟩ | ⟨hsmall, hlarge⟩ := h <;> simp [Pool.handedOver, hsmall, hlarge]

theorem Gains.live (h : Gains st st' ptr n) : st'.live.Perm ((ptr, n) :: st.live) := by
  obtain ⟨hsmall, hlarge⟩ | ⟨hsmall, hlarge⟩ := h
  · rw [Pool.live, Pool.live, hsmall, hlarge]
    exact List.Perm.refl _
  · rw [Pool.live, Pool.live, hsmall, hlarge]
    exact List.perm_middle

/-- A step of a call to `allocate`: it goes on, or is over with or without a block. -/
inductive Allocates (st st' : Pool T) (t : T) (request size : ℕ) : Prop
  | waits (got : List ℕ) (doing : st'.doing t = .fetching request size got)
      (live : SameLive st st')
  | fails (doing : st'.doing t = .idle) (live : SameLive st st')
  | returns (ptr : ℕ) (doing : st'.doing t = .idle) (live : Gains st st' ptr size)

/-- A step of a call to `deallocate` that takes a block back. -/
structure Takes (st st' : Pool T) (t : T) (ptr n : ℕ) (sized : Bool) : Prop where
  live : st.live.Perm ((ptr, n) :: st'.live)
  doing : st'.doing t = .idle ∨ ∃ index chain, st'.doing t = .returning index chain (some sized)

variable [DecidableEq T]

/-- The first step of `allocate`. -/
theorem allocates_allocate (hidle : st.doing t = .idle)
    (hexec : st.allocate pf t request need answer = some st') :
    Allocates st st' t request (neededBytes need) := by
  unfold Pool.allocate at hexec
  dsimp only at hexec
  split at hexec
  · obtain ⟨⟨ptr, heap⟩, _, rfl⟩ := Option.map_eq_some_iff.mp hexec
    dsimp only
    split
    · exact .fails hidle ⟨rfl, rfl⟩
    · exact .returns ptr hidle (.inr ⟨rfl, rfl⟩)
  · cases hpop : (st.caches t).pop (getIndex (neededBytes need)) with
    | some popped =>
        rw [hpop] at hexec
        obtain rfl := Option.some.inj hexec
        exact .returns popped.1 hidle (.inl ⟨rfl, rfl⟩)
    | none =>
        rw [hpop] at hexec
        obtain rfl := Option.some.inj hexec
        exact .waits [] (if_pos rfl) ⟨rfl, rfl⟩

/-- The end of a fetch. -/
theorem allocates_finish (got : List ℕ) :
    Allocates st (st.finish t request size got) t request size := by
  cases got with
  | nil => exact .fails (if_pos rfl) ⟨rfl, rfl⟩
  | cons ptr rest => exact .returns ptr (if_pos rfl) (.inl ⟨rfl, rfl⟩)

/-- The other steps of `allocate`. -/
theorem allocates_fetch {got : List ℕ} (hdoing : st.doing t = .fetching request size got)
    (hexec : st.fetch pf t answer = some st') : Allocates st st' t request size := by
  obtain ⟨heap, _, rfl⟩ | ⟨obj, heap, _, _, rfl⟩ := fetch_cases hdoing hexec
  · have hfinish : Allocates (st.setHeap heap) ((st.setHeap heap).finish t request size got) t
        request size := allocates_finish got
    obtain ⟨got', doing, live⟩ | ⟨doing, live⟩ | ⟨ptr, doing, live⟩ := hfinish
    · exact .waits got' doing live
    · exact .fails doing live
    · exact .returns ptr doing live
  · exact .waits _ (if_pos rfl) ⟨rfl, rfl⟩

/-- The first step of `deallocate`. -/
theorem Sound.takes_deallocate {sized : Bool} (hs : st.Sound pf) (hidle : st.doing t = .idle)
    (hmem : (ptr, n) ∈ st.live) (hexec : st.deallocate pf t ptr sized = some st') :
    Takes st st' t ptr n sized := by
  obtain hsmall | hlarge := List.mem_append.mp hmem
  · rw [hs.deallocate_small hsmall] at hexec
    obtain rfl := Option.some.inj hexec
    have hlive := hs.live_dropSmall hsmall
    unfold Pool.giveUp
    dsimp only
    split
    · exact ⟨hlive, .inl hidle⟩
    · exact ⟨hlive, .inr ⟨_, _, if_pos rfl⟩⟩
  · obtain ⟨heap, _, _, _, hcall⟩ := hs.deallocate_large (t := t) hlarge sized
    rw [hcall] at hexec
    obtain rfl := Option.some.inj hexec
    exact ⟨hs.live_dropLarge hlarge, .inl hidle⟩

/-- The other steps of `deallocate`, and those of `flushAll`. -/
theorem giveBack_outcome {index : ℕ} {chain : List ℕ} {freed : Option Bool}
    (hdoing : st.doing t = .returning index chain freed)
    (hexec : st.giveBack pf t = some st') :
    SameLive st st' ∧
      (st'.doing t = .idle ∨ ∃ chain', st'.doing t = .returning index chain' freed) := by
  obtain ⟨rfl, rfl⟩ | ⟨cur, rest, heap, rfl, _, rfl⟩ := giveBack_cases hdoing hexec
  · cases freed with
    | none => exact ⟨⟨rfl, rfl⟩, .inl (if_pos rfl)⟩
    | some sized => exact ⟨⟨rfl, rfl⟩, .inl (if_pos rfl)⟩
  · exact ⟨⟨rfl, rfl⟩, .inr ⟨rest, if_pos rfl⟩⟩

/-- The first step of `flushAll` at a class. -/
theorem flush_outcome (hidle : st.doing t = .idle) (index : ℕ) :
    SameLive st (st.flush t index) ∧
      ((st.flush t index).doing t = .idle ∨
        ∃ chain, (st.flush t index).doing t = .returning index chain none) := by
  unfold Pool.flush
  dsimp only
  split
  · exact ⟨⟨rfl, rfl⟩, .inr ⟨_, if_pos rfl⟩⟩
  · exact ⟨⟨rfl, rfl⟩, .inl hidle⟩

/-! ## Other threads -/

omit [DecidableEq T] in
theorem doing_recordFree (freed : Option Bool) : (st.recordFree freed).doing u = st.doing u := by
  cases freed <;> rfl

theorem doing_giveUp {index : ℕ} {sized : Bool} (hu : u ≠ t) :
    (st.giveUp t index ptr sized).doing u = st.doing u := by
  unfold Pool.giveUp
  dsimp only
  split
  · rfl
  · exact if_neg hu

theorem doing_deallocate {sized : Bool} (hu : u ≠ t)
    (hexec : st.deallocate pf t ptr sized = some st') : st'.doing u = st.doing u := by
  unfold Pool.deallocate at hexec
  split at hexec
  · obtain rfl := Option.some.inj hexec
    rfl
  · split at hexec
    · cases hexec
    · split at hexec
      · obtain ⟨_, _, rfl⟩ := Option.map_eq_some_iff.mp hexec
        rfl
      · split at hexec
        · obtain rfl := Option.some.inj hexec
          rfl
        · obtain rfl := Option.some.inj hexec
          exact doing_giveUp hu

theorem doing_allocate (hu : u ≠ t)
    (hexec : st.allocate pf t request need answer = some st') : st'.doing u = st.doing u := by
  unfold Pool.allocate at hexec
  dsimp only at hexec
  split at hexec
  · obtain ⟨⟨ptr, heap⟩, _, rfl⟩ := Option.map_eq_some_iff.mp hexec
    dsimp only
    split <;> rfl
  · split at hexec
    · obtain rfl := Option.some.inj hexec
      rfl
    · obtain rfl := Option.some.inj hexec
      exact if_neg hu

theorem doing_finish {got : List ℕ} (hu : u ≠ t) :
    (st.finish t request size got).doing u = st.doing u := by
  unfold Pool.finish
  dsimp only
  split <;> exact if_neg hu

/-- **A step is its thread's own**: no other thread is anywhere else afterwards. -/
theorem doing_exec {e : Event T} (hexec : st.exec pf e = some st') (hu : u ≠ e.thread) :
    st'.doing u = st.doing u := by
  cases e with
  | allocate t size answer => exact doing_allocate hu hexec
  | allocateAligned t size align answer =>
      simp only [Pool.exec] at hexec
      split at hexec
      · obtain rfl := Option.some.inj hexec
        rfl
      · exact doing_allocate hu hexec
  | fetch t answer =>
      simp only [Pool.exec, Pool.fetch] at hexec
      split at hexec
      · split at hexec
        · obtain ⟨⟨obj, heap⟩, _, rfl⟩ := Option.map_eq_some_iff.mp hexec
          cases obj with
          | none => exact doing_finish hu
          | some obj => exact if_neg hu
        · obtain rfl := Option.some.inj hexec
          exact doing_finish hu
      · obtain rfl := Option.some.inj hexec
        rfl
  | deallocate t ptr =>
      simp only [Pool.exec] at hexec
      split at hexec
      · obtain rfl := Option.some.inj hexec
        rfl
      · exact doing_deallocate hu hexec
  | deallocateSized t ptr size =>
      simp only [Pool.exec, Pool.deallocateSized] at hexec
      split at hexec
      · obtain rfl := Option.some.inj hexec
        rfl
      · split at hexec
        · exact doing_deallocate hu hexec
        · split at hexec
          · exact doing_deallocate hu hexec
          · obtain rfl := Option.some.inj hexec
            exact doing_giveUp hu
  | giveBack t =>
      simp only [Pool.exec, Pool.giveBack] at hexec
      split at hexec
      · obtain ⟨heap, _, rfl⟩ := Option.map_eq_some_iff.mp hexec
        exact if_neg hu
      · obtain rfl := Option.some.inj hexec
        rw [doing_recordFree]
        exact if_neg hu
      · obtain rfl := Option.some.inj hexec
        rfl
  | flush t index =>
      obtain rfl := Option.some.inj hexec
      unfold Pool.flush
      dsimp only
      split
      · exact if_neg hu
      · rfl

end Pool

end Gpuforge.Kama

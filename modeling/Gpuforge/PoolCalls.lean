import Gpuforge.PoolSafety

/-!
# Calls that are not interrupted

A call of the code is a function of its own, with its loop inside.  In the
process it is a sequence of steps, between which other threads may move.  Where
none does, the steps compute what the function computes: the same block, the
same lists, the same shared caches.
-/

namespace Gpuforge.Kama

open LabelledRun

variable {pf : Platform}

namespace Pool

variable {T : Type} {st st' : Pool T} {t : T} {answers : ℕ → ℕ} {request size n : ℕ}

/-! ## Requests -/

/-- The turns of `fetchRange`, with the system's answers in turn. -/
def fetches (t : T) (answers : ℕ → ℕ) (n : ℕ) : List (Event T) :=
  (List.range n).map fun k => .fetch t (answers k)

theorem fetches_succ : fetches t answers (n + 1) = fetches t answers n ++ [.fetch t (answers n)] := by
  rw [fetches, List.range_succ, List.map_append]
  rfl

/-- The answers for the turns from one on. -/
def answersFrom (answers : ℕ → ℕ) (k batchNum : ℕ) : List ℕ :=
  (List.range' k (batchNum - k)).map answers

theorem answersFrom_of_lt {k batchNum : ℕ} (h : k < batchNum) :
    answersFrom answers k batchNum = answers k :: answersFrom answers (k + 1) batchNum := by
  obtain ⟨m, hm⟩ : ∃ m, batchNum - k = m + 1 := ⟨batchNum - k - 1, by omega⟩
  rw [answersFrom, answersFrom, hm, show batchNum - (k + 1) = m by omega, List.range'_succ]
  rfl

theorem answersFrom_self (k : ℕ) : answersFrom answers k k = [] := by
  rw [answersFrom, Nat.sub_self]
  rfl

/-- The loop from the blocks it has got on. -/
def loopFrom (pf : Platform) (index : ℕ) (got : List ℕ) (rest : List ℕ) (h : Heap) :
    Option (List ℕ × Heap) :=
  (h.fetchLoop pf index rest).map fun r => (got ++ r.1, r.2)

/-- What the caller has when the loop has ended with some blocks. -/
structure Ended (st st' : Pool T) (t : T) (size : ℕ) (got : List ℕ) : Prop where
  idle : st'.doing t = .idle
  cache : st'.caches t = ((st.caches t).refill (getIndex size) got).2
  small : st'.small = (got.head?.map fun ptr => (ptr, size)).toList ++ st.small
  large : st'.large = st.large

/-- Where the call is after some turns: in the loop, with the rest of it to come,
or at its end. -/
inductive Turns (pf : Platform) (st st' : Pool T) (t : T) (answers : ℕ → ℕ)
    (request size n : ℕ) (whole : Option (List ℕ × Heap)) : Prop
  | fetching (got : List ℕ) (doing : st'.doing t = .fetching request size got)
      (length : got.length = n) (bound : n ≤ getBatchNum (getSize (getIndex size)))
      (rest : whole = loopFrom pf (getIndex size) got
        (answersFrom answers n (getBatchNum (getSize (getIndex size)))) st'.heap)
      (cache : st'.caches t = st.caches t) (small : st'.small = st.small)
      (large : st'.large = st.large)
  | ended (got : List ℕ) (done : whole = some (got, st'.heap)) (ended : Ended st st' t size got)

variable [DecidableEq T]

theorem ended_finish {got : List ℕ} :
    Ended st (st.finish t request size got) t size got := by
  unfold Pool.finish
  cases got with
  | nil => exact ⟨by simp [setDoing], by simp [setCache, setDoing], rfl, rfl⟩
  | cons ptr rest =>
      refine ⟨by simp [setDoing, grantSmall], by simp [setCache, setDoing, grantSmall], ?_, ?_⟩
      · simp [grantSmall, setDoing, setCache, ThreadCache.refill]
      · simp [grantSmall, setDoing, setCache]

/-- **A turn** of the process is a turn of the loop. -/
theorem Turns.next {whole : Option (List ℕ × Heap)} {st₁ : Pool T}
    (h : Turns pf st st₁ t answers request size n whole)
    (hmoves : Moves pf st₁ (.fetch t (answers n)) st') :
    Turns pf st st' t answers request size (n + 1) whole := by
  obtain ⟨⟨request', size', got', hdoing, _⟩, hexec⟩ := hmoves
  cases h with
  | ended got done ended =>
      rw [ended.idle] at hdoing
      cases hdoing
  | fetching got doing length bound rest cache small large =>
      clear hdoing
      simp only [exec, Pool.fetch, doing] at hexec
      have hend : ∀ {heap : Heap} {st₂ : Pool T}, st₂ = st₁.setHeap heap →
          Ended st (st₂.finish t request size got) t size got := by
        intro heap st₂ hst
        have hended : Ended st₂ (st₂.finish t request size got) t size got := ended_finish
        subst hst
        exact ⟨hended.idle, cache ▸ hended.cache, small ▸ hended.small, large ▸ hended.large⟩
      split at hexec
      · next hroom =>
        rw [length] at hroom
        rw [answersFrom_of_lt hroom, loopFrom, Heap.fetchLoop] at rest
        obtain ⟨⟨obj, heap⟩, hturn, rfl⟩ := Option.map_eq_some_iff.mp hexec
        rw [hturn] at rest
        cases obj with
        | none =>
            have hwhole : whole = some (got, heap) := by simpa using rest
            refine .ended got ?_ (hend rfl)
            rw [hwhole]
            unfold Pool.finish
            dsimp only
            split <;> rfl
        | some obj =>
            refine .fetching (got ++ [obj]) (by simp [setDoing]) (by simp [length]) hroom ?_ cache
              small large
            rw [rest, loopFrom]
            simp [setDoing, setHeap, Option.map_map, Function.comp_def]
      · next hfull =>
        have hn : n = getBatchNum (getSize (getIndex size)) := by omega
        obtain rfl := Option.some.inj hexec
        rw [hn, answersFrom_self, loopFrom, Heap.fetchLoop] at rest
        have hwhole : whole = some (got, st₁.heap) := by simpa using rest
        refine .ended got ?_ (hend rfl)
        rw [hwhole]
        unfold Pool.finish
        dsimp only
        split <;> rfl

theorem Turns.run {whole : Option (List ℕ × Heap)} {st₁ : Pool T}
    (h : Turns pf st st₁ t answers request size 0 whole)
    (hrun : Run (Moves pf) st₁ (fetches t answers n) st') :
    Turns pf st st' t answers request size n whole := by
  induction n generalizing st' with
  | zero =>
      rw [hrun.nil_inv]
      exact h
  | succ n ih =>
      rw [fetches_succ] at hrun
      obtain ⟨st₂, hbefore, hlast⟩ := hrun.last_inv
      exact (ih hbefore).next hlast

/-- A thread that is not in the loop takes no turns. -/
theorem fetches_idle (st : Pool T) (hidle : st.doing t = .idle)
    (hrun : Run (Moves pf) st (fetches t answers n) st') : st' = st := by
  induction n generalizing st' with
  | zero => exact hrun.nil_inv
  | succ n ih =>
      rw [fetches_succ] at hrun
      obtain ⟨st₂, hbefore, hlast⟩ := hrun.last_inv
      obtain rfl := ih hbefore
      obtain ⟨_, _, _, hdoing, _⟩ := hlast.1
      rw [hidle] at hdoing
      cases hdoing

variable {before : List (Event T)}

/-- **A request that is not interrupted** does what `allocate` does, and its
caller has the block that `allocate` returns. -/
theorem run_allocate (hbefore : Run (Moves pf) start before st)
    (hrun : Run (Moves pf) st (.allocate t request (answers 0) :: fetches t answers n) st')
    (hdone : st'.doing t = .idle) :
    ∃ ptr, ThreadCache.allocate pf answers (st.caches t) st.heap request =
        some (ptr, st'.caches t, st'.heap) ∧
      (ptr = 0 → st'.live = st.live) ∧
      (ptr ≠ 0 → st'.live.Perm ((ptr, neededBytes request) :: st.live)) := by
  have hs := run_sound hbefore
  obtain ⟨st₁, ⟨⟨hidle, _⟩, hexec⟩, hturns⟩ := hrun.first_inv
  have hs' := run_sound (hbefore.trans hrun)
  simp only [exec, Pool.allocate] at hexec
  unfold ThreadCache.allocate
  dsimp only
  split at hexec
  · next hlarge =>
    rw [if_pos hlarge]
    obtain ⟨⟨ptr, heap⟩, hcall, rfl⟩ := Option.map_eq_some_iff.mp hexec
    dsimp only at hturns
    rw [hcall]
    by_cases hnull : ptr = 0
    · rw [if_pos hnull] at hturns
      rw [fetches_idle (st.setHeap heap) hidle hturns]
      exact ⟨ptr, rfl, fun _ => rfl, fun hne => absurd hnull hne⟩
    · rw [if_neg hnull] at hturns
      rw [fetches_idle ((st.setHeap heap).grantLarge _ _ _) hidle hturns]
      refine ⟨ptr, rfl, fun h => absurd h hnull, fun _ => ?_⟩
      exact List.perm_middle
  · next hsmall =>
    rw [if_neg hsmall]
    have hsize := not_lt.mp hsmall
    cases hpop : (st.caches t).pop (getIndex (neededBytes request)) with
    | some popped =>
      rw [hpop] at hexec
      obtain ⟨ptr, tc⟩ := popped
      obtain rfl := Option.some.inj hexec
      rw [fetches_idle ((st.setCache t tc).grantSmall _ _ _) hidle hturns]
      have hgrant : ((st.setCache t tc).grantSmall request (neededBytes request) ptr).Sound pf :=
        hs.pop hidle (neededBytes_pos request) hsize hpop
      refine ⟨ptr, by simp [grantSmall, setCache], ?_, fun _ => List.Perm.refl _⟩
      exact fun hnull => absurd hnull (hgrant.live_nonnull List.mem_cons_self)
    | none =>
      rw [hpop] at hexec
      obtain rfl := Option.some.inj hexec
      have hlt := getIndex_lt hsize
      have hwhole : Turns pf st (st.setDoing t (.fetching request (neededBytes request) [])) t
          answers request (neededBytes request) 0
          (st.heap.fetchRange pf answers (getIndex (neededBytes request))
            (getBatchNum (getSize (getIndex (neededBytes request))))) := by
        refine .fetching [] (by simp [setDoing]) rfl (Nat.zero_le _) ?_ rfl rfl rfl
        rw [Heap.fetchRange, if_neg (not_le.mpr hlt), answersFrom, Nat.sub_zero,
          ← List.range_eq_range', loopFrom]
        simp [setDoing]
      cases hwhole.run hturns with
      | fetching got doing _ _ _ _ _ _ =>
          rw [hdone] at doing
          cases doing
      | ended got done ended =>
          rw [done]
          refine ⟨_, by rw [Option.map_some, ended.cache], ?_⟩
          have hsmall := ended.small
          cases got with
          | nil =>
              refine ⟨fun _ => ?_, fun hne => absurd rfl hne⟩
              rw [live, live, hsmall, ended.large]
              rfl
          | cons ptr rest =>
              have hlive : st'.live = (ptr, neededBytes request) :: st.live := by
                rw [live, live, hsmall, ended.large]
                rfl
              refine ⟨fun hnull => absurd hnull ?_, fun _ => hlive ▸ List.Perm.refl _⟩
              exact hs'.live_nonnull (n := neededBytes request) (hlive ▸ List.mem_cons_self)

theorem run_allocate_large : ∃ st' : Pool Bool, ∃ ptr,
    ThreadCache.allocate fourKibPages (fun _ => 8388608) .new .new 300000 =
        some (ptr, st'.caches true, st'.heap) ∧
      (ptr = 0 → st'.live = []) ∧ (ptr ≠ 0 → st'.live.Perm [(ptr, neededBytes 300000)]) := by
  have hfirst : ((start : Pool Bool).exec fourKibPages (.allocate true 300000 8388608)).map
      (fun st => st.doing true) = some .idle := by decide +kernel
  obtain ⟨st', hexec, hidle⟩ := Option.map_eq_some_iff.mp hfirst
  have hrun : Run (Moves fourKibPages) start
      (.allocate true 300000 8388608 :: fetches true (fun _ => 8388608) 0) st' := by
    refine .single ⟨⟨rfl, .inr ⟨by decide, ?_⟩⟩, hexec⟩
    intro r hr
    cases hr
  exact ⟨st', run_allocate .start hrun hidle⟩

/-! ## Frees -/

/-- A thread has come to the end of a call without meeting the others. -/
structure Alone (st st' : Pool T) (t : T) : Prop where
  idle : st'.doing t = .idle
  caches : ∀ u, u ≠ t → st'.caches u = st.caches u
  doing : ∀ u, u ≠ t → st'.doing u = st.doing u

theorem alone_finish {got : List ℕ} : Alone st (st.finish t request size got) t := by
  have hended : Ended st (st.finish t request size got) t size got := ended_finish
  refine ⟨hended.idle, ?_, ?_⟩ <;>
  · intro u hu
    unfold Pool.finish
    dsimp only
    split <;> simp [setDoing, setCache, grantSmall, hu]

/-- **The turns of `returnRange`** can be taken to their end, and do what the loop
does. -/
theorem Sound.return_all {index : ℕ} {chain : List ℕ} {freed : Option Bool} (hs : st.Sound pf)
    (hdoing : st.doing t = .returning index chain freed) :
    ∃ m st', Run (Moves pf) st (List.replicate m (.giveBack t)) st' ∧ st'.Sound pf ∧
      Alone st st' t ∧ st'.caches t = st.caches t ∧ st'.live = st.live ∧
      st.heap.returnLoop pf index chain = some st'.heap := by
  induction chain generalizing st with
  | nil =>
      have henabled : st.Enabled pf (.giveBack t) := ⟨index, [], freed, hdoing⟩
      have hexec : st.exec pf (.giveBack t) = some ((st.setDoing t .idle).recordFree freed) := by
        simp only [Pool.exec, Pool.giveBack, hdoing]
      obtain ⟨st', hexec', hsound⟩ := hs.exec henabled
      obtain rfl := Option.some.inj (hexec.symm.trans hexec')
      refine ⟨1, _, .single ⟨henabled, hexec⟩, hsound, ?_⟩
      cases freed <;>
        exact ⟨⟨by simp [Pool.recordFree, setDoing], fun _ _ => rfl,
          fun u hu => by simp [Pool.recordFree, setDoing, hu]⟩, rfl, rfl, rfl⟩
  | cons cur chain ih =>
      have henabled : st.Enabled pf (.giveBack t) := ⟨index, cur :: chain, freed, hdoing⟩
      obtain ⟨heap, hturn, hsound⟩ := hs.gaveBack hdoing
      have hexec : st.exec pf (.giveBack t) =
          some ((st.setHeap heap).setDoing t (.returning index chain freed)) := by
        simp only [Pool.exec, Pool.giveBack, hdoing, hturn]
        rfl
      obtain ⟨m, st', hrun, hsound', halone, hcache, hlive, hloop⟩ :=
        ih hsound (by simp [setDoing])
      refine ⟨m + 1, st', (Run.single ⟨henabled, hexec⟩).trans hrun, hsound', ?_, hcache, hlive, ?_⟩
      · refine ⟨halone.idle, halone.caches, ?_⟩
        intro u hu
        rw [halone.doing u hu]
        simp [setDoing, setHeap, hu]
      · rw [Heap.returnLoop, hturn]
        exact hloop

omit [DecidableEq T] in
/-- What is left of the callers' blocks. -/
theorem Sound.live_dropSmall {ptr : ℕ} (hs : st.Sound pf) (hmem : (ptr, n) ∈ st.small) :
    st.live.Perm ((ptr, n) :: (st.dropSmall ptr).live) := by
  show (st.small ++ st.large).Perm ((ptr, n) :: ((st.dropSmall ptr).small ++ st.large))
  rw [hs.dropSmall_eq hmem, ← List.cons_append]
  exact (List.perm_cons_erase hmem).append_right _

omit [DecidableEq T] in
theorem Sound.live_dropLarge {ptr : ℕ} (hs : st.Sound pf) (hmem : (ptr, n) ∈ st.large) :
    st.live.Perm ((ptr, n) :: (st.dropLarge ptr).live) := by
  show (st.small ++ st.large).Perm ((ptr, n) :: (st.small ++ (st.dropLarge ptr).large))
  rw [hs.dropLarge_eq hmem]
  exact ((List.perm_cons_erase hmem).append_left _).trans List.perm_middle

omit [DecidableEq T] in
/-- `deallocate` of a small block: the thread's cache takes it, and gives back
what is too much. -/
theorem Sound.call_deallocate_small {ptr : ℕ} (hs : st.Sound pf) (hmem : (ptr, n) ∈ st.small) :
    (st.caches t).deallocate pf st.heap ptr =
      (st.heap.returnLoop pf (getIndex n) ((st.caches t).giveUp (getIndex n) ptr).1).map
        fun h => (true, ((st.caches t).giveUp (getIndex n) ptr).2, h) := by
  obtain ⟨_, hsize, id, hblock⟩ := hs.sized _ hmem
  have hlt := not_le.mpr (getIndex_lt hsize)
  unfold ThreadCache.deallocate
  rw [hs.heap.find_block hblock]
  obtain ⟨s, hused, hnotlarge, hclass, _⟩ := hblock
  simp only [hused.1, hnotlarge, hclass, if_neg hlt, Bool.false_eq_true, if_false, Heap.returnRange]

/-- The turns of a free can be taken to their end, and do what `deallocate` does. -/
theorem Sound.free {ptr : ℕ} (hs : st.Sound pf) (hidle : st.doing t = .idle)
    (hmem : (ptr, n) ∈ st.live) :
    ∃ m st', Run (Moves pf) st (.deallocate t ptr :: List.replicate m (.giveBack t)) st' ∧
      st'.Sound pf ∧ Alone st st' t ∧ st.live.Perm ((ptr, n) :: st'.live) ∧
      (st.caches t).deallocate pf st.heap ptr = some (true, st'.caches t, st'.heap) := by
  have henabled : st.Enabled pf (.deallocate t ptr) := ⟨hidle, .inr ⟨n, hmem⟩⟩
  have hexec : st.exec pf (.deallocate t ptr) = st.deallocate pf t ptr false :=
    if_neg (hs.live_nonnull hmem)
  obtain hsmall | hlarge := List.mem_append.mp hmem
  · rw [hs.deallocate_small hsmall] at hexec
    have hlive := hs.live_dropSmall hsmall
    have hsound := hs.giveUp hidle hsmall false
    rw [hs.call_deallocate_small hsmall]
    by_cases hnil : ((st.caches t).giveUp (getIndex n) ptr).1 = []
    · have hgive : st.giveUp t (getIndex n) ptr false =
          ((st.setCache t ((st.caches t).giveUp (getIndex n) ptr).2).dropSmall ptr).recordFree
            (some false) := if_pos hnil
      rw [hgive] at hexec hsound
      refine ⟨0, _, .single ⟨henabled, hexec⟩, hsound, ⟨hidle, ?_, fun _ _ => rfl⟩, hlive, ?_⟩
      · intro u hu
        simp [Pool.recordFree, dropSmall, setCache, hu]
      · rw [hnil]
        simp [Pool.recordFree, dropSmall, setCache, Heap.returnLoop]
    · let flushed := (st.caches t).freeListSize (getIndex n) + 1 -
        ((st.caches t).giveUp (getIndex n) ptr).2.freeListSize (getIndex n)
      let st₁ := (st.setCache t ((st.caches t).giveUp (getIndex n) ptr).2).dropSmall ptr
      have hgive : st.giveUp t (getIndex n) ptr false =
          { st₁ with stats := st₁.stats.recordCentralFlush flushed }.setDoing t
            (.returning (getIndex n) ((st.caches t).giveUp (getIndex n) ptr).1 (some false)) :=
        if_neg hnil
      rw [hgive] at hexec hsound
      obtain ⟨m, st', hrun, hsound', halone, hcache, hsame, hloop⟩ :=
        hsound.return_all (t := t) (if_pos rfl)
      refine ⟨m, st', (Run.single ⟨henabled, hexec⟩).trans hrun, hsound',
        ⟨halone.idle, ?_, ?_⟩, ?_, ?_⟩
      · intro u hu
        rw [halone.caches u hu]
        simp [setDoing, st₁, dropSmall, setCache, hu]
      · intro u hu
        rw [halone.doing u hu]
        simp [setDoing, st₁, dropSmall, setCache, hu]
      · rw [hsame]
        exact hlive
      · have hheap : st.heap.returnLoop pf (getIndex n)
            ((st.caches t).giveUp (getIndex n) ptr).1 = some st'.heap := hloop
        rw [hheap, hcache]
        simp [setDoing, st₁, dropSmall, setCache]
  · obtain ⟨id, hspan⟩ := (hs.large ptr n).mp hlarge
    have hfind := (hs.heap.find_large hspan).2
    have hlive := hs.live_dropLarge hlarge
    have hblock := hspan
    obtain ⟨s, hused, hislarge, _⟩ := hblock
    obtain ⟨pages, hcall, hreturn⟩ := hs.heap.deallocateLarge hused hislarge
    have hgive : st.deallocate pf t ptr false = some
        (((st.setHeap { st.heap with pages := pages }).dropLarge ptr).recordFree (some false)) := by
      unfold Pool.deallocate
      simp only [hfind, hused.1, hislarge, hcall]
      rfl
    rw [hgive] at hexec
    refine ⟨0, _, .single ⟨henabled, hexec⟩, (hs.deallocatedLarge hspan hreturn).recordFree _,
      ⟨hidle, fun _ _ => rfl, fun _ _ => rfl⟩, hlive, ?_⟩
    unfold ThreadCache.deallocate
    simp only [hfind, hused.1, hislarge, hcall]
    rfl

/-- **A flush can always be finished**, and does what the loop of `flushAll` does. -/
theorem Sound.flush_from {left i : ℕ} (hs : st.Sound pf) (hidle : st.doing t = .idle)
    (hclasses : i + left ≤ classCount) :
    ∃ labels st', Run (Moves pf) st labels st' ∧ st'.Sound pf ∧ Alone st st' t ∧
      st'.live = st.live ∧
      ThreadCache.flushFrom pf left i (st.caches t) st.heap = some (st'.caches t, st'.heap) ∧
      ∀ j, (st'.caches t).freeList j =
        if i ≤ j ∧ j < i + left then [] else (st.caches t).freeList j := by
  induction left generalizing st i with
  | zero =>
      refine ⟨[], st, .start, hs, ⟨hidle, fun _ _ => rfl, fun _ _ => rfl⟩, rfl, rfl, ?_⟩
      intro j
      rw [if_neg (by omega)]
  | succ left ih =>
      rw [ThreadCache.flushFrom]
      by_cases hfull : (st.caches t).freeList i ≠ [] ∧ 0 < (st.caches t).freeListSize i
      · have henabled : st.Enabled pf (.flush t i) := ⟨hidle, by omega⟩
        have hflush : st.flush t i = (st.setCache t ((st.caches t).setList i [] 0)).setDoing t
            (.returning i ((st.caches t).freeList i) none) := if_pos hfull
        have hexec : st.exec pf (.flush t i) = some _ := congrArg some hflush
        have hsound := hs.flush hidle i
        rw [hflush] at hsound
        obtain ⟨m, st₁, hrun₁, hs₁, halone₁, hcache₁, hlive₁, hloop₁⟩ :=
          hsound.return_all (t := t) (if_pos rfl)
        have hloop : st.heap.returnLoop pf i ((st.caches t).freeList i) = some st₁.heap := hloop₁
        have hcache : st₁.caches t = (st.caches t).setList i [] 0 := by
          rw [hcache₁]
          simp [setDoing, setCache]
        obtain ⟨labels, st', hrun, hs', halone, hlive, hrest, hlists⟩ :=
          ih hs₁ halone₁.idle (i := i + 1) (by omega)
        refine ⟨_, st', ((Run.single ⟨henabled, hexec⟩).trans hrun₁).trans hrun, hs',
          ⟨halone.idle, ?_, ?_⟩, hlive.trans hlive₁, ?_, ?_⟩
        · intro u hu
          rw [halone.caches u hu, halone₁.caches u hu]
          simp [setDoing, setCache, hu]
        · intro u hu
          rw [halone.doing u hu, halone₁.doing u hu]
          simp [setDoing, setCache, hu]
        · rw [if_pos hfull, Heap.returnRange, if_neg (by omega), hloop, Option.bind_some, ← hcache]
          exact hrest
        · intro j
          rw [hlists, hcache]
          by_cases hj : j = i
          · subst hj
            rw [if_neg (by omega), if_pos (by omega), ThreadCache.setList_self]
          · rw [ThreadCache.setList_ne hj]
            exact if_congr (by omega) rfl rfl
      · have hnil : (st.caches t).freeList i = [] := by
          by_contra hne
          refine hfull ⟨hne, ?_⟩
          rw [(hs.counted t).size]
          exact List.length_pos_iff.mpr hne
        obtain ⟨labels, st', hrun, hs', halone, hlive, hrest, hlists⟩ :=
          ih hs hidle (i := i + 1) (by omega)
        refine ⟨labels, st', hrun, hs', halone, hlive, by rw [if_neg hfull]; exact hrest, ?_⟩
        intro j
        rw [hlists]
        by_cases hj : j = i
        · subst hj
          rw [if_neg (by omega), if_pos (by omega), hnil]
        · exact if_congr (by omega) rfl rfl

end Pool

end Gpuforge.Kama

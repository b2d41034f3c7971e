import Gpuforge.PoolCalls
import Gpuforge.PoolMemory

/-!
# The pool can always be emptied

No state that the threads can reach is a trap.  Whatever calls are running, they
can be brought to their end without help from the system; then the blocks can be
freed one by one and the caches flushed, and what is kept is within the bound of
the page cache.
-/

namespace Gpuforge.Kama

open LabelledRun

variable {pf : Platform}

namespace Pool

variable {T : Type} [DecidableEq T] {st : Pool T} {t : T}

/-- A call that fetches comes to its end, also when the system refuses. -/
theorem Sound.end_fetch (k : ℕ) {request size : ℕ} {got : List ℕ} (hs : st.Sound pf)
    (hdoing : st.doing t = .fetching request size got)
    (hk : getBatchNum (getSize (getIndex size)) ≤ got.length + k) :
    ∃ labels st', Run (Moves pf) st labels st' ∧ st'.Sound pf ∧ Alone st st' t := by
  induction k generalizing st got with
  | zero =>
      have henabled : st.Enabled pf (.fetch t 0) := ⟨request, size, got, hdoing, .inl rfl⟩
      have hexec : st.exec pf (.fetch t 0) = some (st.finish t request size got) := by
        simp only [Pool.exec, Pool.fetch, hdoing]
        rw [if_neg (by omega)]
      exact ⟨_, _, .single ⟨henabled, hexec⟩, hs.finish hdoing, alone_finish⟩
  | succ k ih =>
      have henabled : st.Enabled pf (.fetch t 0) := ⟨request, size, got, hdoing, .inl rfl⟩
      have hbusy := hs.busy t
      rw [hdoing] at hbusy
      by_cases hroom : got.length < getBatchNum (getSize (getIndex size))
      · have hsystem : PageCache.SystemGrants pf st.heap.pages 0 (spanAsked pf (getIndex size)) :=
          .inl rfl
        obtain ⟨obj, heap, hturn, hfetched⟩ | ⟨hturn, _⟩ :=
          hs.heap.fetchTurn hs.settled (getIndex_lt hbusy.2.1) hsystem
        · have hexec : st.exec pf (.fetch t 0) = some
              ((st.setHeap heap).setDoing t (.fetching request size (got ++ [obj]))) := by
            simp only [Pool.exec, Pool.fetch, hdoing]
            rw [if_pos hroom, hturn]
            rfl
          obtain ⟨labels, st', hrun, hs', halone⟩ :=
            ih (hs.fetched hdoing hroom hfetched) (if_pos rfl)
              (by rw [List.length_append, List.length_singleton]; omega)
          refine ⟨_, st', (Run.single ⟨henabled, hexec⟩).trans hrun, hs', halone.idle,
            halone.caches, ?_⟩
          intro u hu
          rw [halone.doing u hu]
          exact if_neg hu
        · have hexec : st.exec pf (.fetch t 0) =
              some ((st.setHeap st.heap).finish t request size got) := by
            simp only [Pool.exec, Pool.fetch, hdoing]
            rw [if_pos hroom, hturn]
            rfl
          exact ⟨_, _, .single ⟨henabled, hexec⟩, hs.finish hdoing, alone_finish⟩
      · exact ih hs hdoing (by omega)

/-- Any call comes to its end. -/
theorem Sound.end_call (hs : st.Sound pf) (t : T) :
    ∃ labels st', Run (Moves pf) st labels st' ∧ st'.Sound pf ∧ Alone st st' t := by
  cases hdoing : st.doing t with
  | idle => exact ⟨[], st, .start, hs, hdoing, fun _ _ => rfl, fun _ _ => rfl⟩
  | fetching request size got => exact hs.end_fetch _ hdoing (Nat.le_add_left _ _)
  | returning index chain freed =>
      obtain ⟨_, st', hrun, hs', halone, _⟩ := hs.return_all hdoing
      exact ⟨_, st', hrun, hs', halone⟩

/-- The calls of any number of threads come to their ends, one after another. -/
theorem Sound.end_calls (hs : st.Sound pf) (threads : List T) :
    ∃ labels st', Run (Moves pf) st labels st' ∧ st'.Sound pf ∧
      ∀ t ∈ threads, st'.doing t = .idle := by
  induction threads generalizing st with
  | nil => exact ⟨[], st, .start, hs, by simp⟩
  | cons t threads ih =>
      obtain ⟨labels, st₁, hrun₁, hs₁, hidle₁⟩ := ih hs
      obtain ⟨labels', st', hrun, hs', halone⟩ := hs₁.end_call t
      refine ⟨_, st', hrun₁.trans hrun, hs', ?_⟩
      intro u hu
      by_cases hut : u = t
      · exact hut ▸ halone.idle
      · rw [halone.doing u hut]
        exact hidle₁ u ((List.mem_cons.mp hu).resolve_left hut)

/-- All blocks can be freed, by any thread. -/
theorem Sound.free_all (k : ℕ) (hs : st.Sound pf) (hidle : ∀ u, st.doing u = .idle)
    (hk : st.live.length = k) (t : T) :
    ∃ labels st', Run (Moves pf) st labels st' ∧ st'.Sound pf ∧
      (∀ u, st'.doing u = .idle) ∧ st'.live = [] := by
  induction k generalizing st with
  | zero => exact ⟨[], st, .start, hs, hidle, List.length_eq_zero_iff.mp hk⟩
  | succ k ih =>
      obtain ⟨⟨ptr, n⟩, rest, hlive⟩ := List.exists_of_length_succ st.live hk
      obtain ⟨m, st₁, hrun₁, hs₁, halone, hperm, _⟩ :=
        hs.free (t := t) (hidle t) (hlive ▸ List.mem_cons_self)
      have hidle₁ : ∀ u, st₁.doing u = .idle := by
        intro u
        by_cases hu : u = t
        · exact hu ▸ halone.idle
        · rw [halone.doing u hu]
          exact hidle u
      have hlength := hperm.length_eq
      rw [List.length_cons] at hlength
      obtain ⟨labels, st', hrun, hrest⟩ := ih hs₁ hidle₁ (by omega)
      exact ⟨_, st', hrun₁.trans hrun, hrest⟩

/-- All caches can be flushed. -/
theorem Sound.flush_all (hs : st.Sound pf) (hidle : ∀ u, st.doing u = .idle)
    (threads : List T) :
    ∃ labels st', Run (Moves pf) st labels st' ∧ st'.Sound pf ∧
      (∀ u, st'.doing u = .idle) ∧ st'.live = st.live ∧
      ∀ t ∈ threads, ∀ i < classCount, (st'.caches t).freeList i = [] := by
  induction threads generalizing st with
  | nil => exact ⟨[], st, .start, hs, hidle, rfl, by simp⟩
  | cons t threads ih =>
      obtain ⟨labels₁, st₁, hrun₁, hs₁, hidle₁, hlive₁, hempty₁⟩ := ih hs hidle
      obtain ⟨labels, st', hrun, hs', halone, hlive, _, hlists⟩ :=
        hs₁.flush_from (hidle₁ t) (i := 0) (le_of_eq (Nat.zero_add classCount))
      refine ⟨_, st', hrun₁.trans hrun, hs', ?_, hlive.trans hlive₁, ?_⟩
      · intro u
        by_cases hu : u = t
        · exact hu ▸ halone.idle
        · rw [halone.doing u hu]
          exact hidle₁ u
      · intro u hu i hi
        by_cases hut : u = t
        · rw [hut, hlists, if_pos (by omega)]
        · rw [halone.caches u hut]
          exact hempty₁ u ((List.mem_cons.mp hu).resolve_left hut) i hi

/-- **The pool can always be emptied.**  From every state that finitely many
threads can reach, there is a run after which no call is running, callers and
caches have no blocks, and at most 64 MiB are kept from the system. -/
theorem run_drain [Fintype T] [Nonempty T] {before : List (Event T)}
    (hbefore : Run (Moves pf) start before st) :
    ∃ labels st', Run (Moves pf) st labels st' ∧ (∀ t, st'.doing t = .idle) ∧ st'.live = [] ∧
      (∀ t, ∀ i < classCount, (st'.caches t).freeList i = []) ∧
      st'.heap.pages.reservedBytes ≤ 64 * 1024 * 1024 := by
  obtain ⟨t⟩ := ‹Nonempty T›
  have hmem : ∀ u : T, u ∈ (Finset.univ : Finset T).toList :=
    fun u => Finset.mem_toList.mpr (Finset.mem_univ u)
  obtain ⟨_, st₁, hrun₁, hs₁, hidle₁⟩ := (run_sound hbefore).end_calls Finset.univ.toList
  obtain ⟨_, st₂, hrun₂, hs₂, hidle₂, hlive₂⟩ :=
    hs₁.free_all _ (fun u => hidle₁ u (hmem u)) rfl t
  obtain ⟨_, st₃, hrun₃, hs₃, hidle₃, hlive₃, hempty₃⟩ := hs₂.flush_all hidle₂ Finset.univ.toList
  have hlive := hlive₃.trans hlive₂
  have hempty : ∀ u, ∀ i < classCount, (st₃.caches u).freeList i = [] :=
    fun u => hempty₃ u (hmem u)
  exact ⟨_, st₃, (hrun₁.trans hrun₂).trans hrun₃, hidle₃, hlive, hempty,
    (hs₃.heap.pages.reserved_of_unused (hs₃.unused hidle₃ hempty hlive)).2⟩

theorem run_drain_two : ∃ (st : Pool Bool) (labels : List (Event Bool)) (st' : Pool Bool),
    st.live = [(8388608, 303104)] ∧ Run (Moves fourKibPages) st labels st' ∧
      (∀ t, st'.doing t = .idle) ∧ st'.live = [] ∧
      (∀ t, ∀ i < classCount, (st'.caches t).freeList i = []) ∧
      st'.heap.pages.reservedBytes ≤ 64 * 1024 * 1024 := by
  obtain ⟨st, hrun, hlive, _⟩ := exists_run
  obtain ⟨labels, st', hrest⟩ := run_drain hrun
  exact ⟨st, labels, st', hlive, hrest⟩

end Pool

end Gpuforge.Kama

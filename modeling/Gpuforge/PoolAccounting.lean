import Gpuforge.LabelledRun
import Gpuforge.MemoryPool

/-!
# The pool's accounts

Any number of threads call `allocate` and `release`, with any arguments; a run
is an interleaving of their calls.  Beside the pool a run carries what an
observer of the calls writes down: the allocations that were returned and not
yet released, all pointers ever returned, and the calls that reached the
backend.  The backend answers with null or with a pointer that is not
outstanding.

The pool's counter and map agree with these notes in every state
(`Accounts`), whatever the order of the calls (`pool_accounts`).
-/

namespace Gpuforge

open LabelledRun

/-- A call, with the answer of the backend in case it is asked. -/
inductive PoolCall where
  | allocate (n a answer : Nat)
  | release (p : Nat)
  deriving DecidableEq, Repr

/-- A pool and the notes of an observer. -/
structure PoolLedger where
  pool : MemoryPool
  outstanding : List (Nat × Nat) := []
  returned : List Nat := []
  calls : List BackendCall := []

namespace PoolLedger

open MemoryPool

/-- A new pool. -/
def start (capacity : Nat) (h : capacity < 2 ^ 64) : PoolLedger :=
  { pool := .new capacity h }

/-- What a call does and what the observer notes. -/
def exec (st : PoolLedger) : PoolCall → PoolLedger
  | .allocate n a answer =>
      match st.pool.allocate n a answer with
      | (.error _, pool, calls) => { st with pool := pool, calls := st.calls ++ calls }
      | (.ok p, pool, calls) =>
          if p = 0 then { st with pool := pool, calls := st.calls ++ calls }
          else
            { pool := pool
              outstanding := (p, n) :: st.outstanding
              returned := p :: st.returned
              calls := st.calls ++ calls }
  | .release p =>
      { st with
        pool := (st.pool.release p).1
        outstanding := st.outstanding.filter fun entry => entry.1 ≠ p
        calls := st.calls ++ (st.pool.release p).2 }

/-- A pointer was returned and not yet released. -/
abbrev Outstanding (st : PoolLedger) (p : Nat) : Prop := p ∈ st.outstanding.map Prod.fst

/-- The backend answers with null or a pointer that is not outstanding. -/
def BackendSound (st : PoolLedger) : PoolCall → Prop
  | .allocate _ _ answer => answer = 0 ∨ ¬ st.Outstanding answer
  | .release _ => True

/-- A thread makes a call. -/
def Moves {T : Type} (st : PoolLedger) (label : T × PoolCall) (st' : PoolLedger) : Prop :=
  st.BackendSound label.2 ∧ st' = st.exec label.2

/-! ## The invariant -/

/-- **The accounts.**  The pool holds the outstanding allocations; the counter is
their total size, within the capacity; each pointer went back to the backend as
often as it was returned, not counting the one time that is outstanding. -/
structure Accounts (st : PoolLedger) : Prop where
  held : st.pool.held = st.outstanding
  used : st.pool.used = totalSize st.outstanding
  within : st.pool.used ≤ st.pool.capacity
  nonnull : ¬ st.Outstanding 0
  deallocated : ∀ p, st.calls.count (.deallocate p) + (if st.Outstanding p then 1 else 0) =
    st.returned.count p

variable {st : PoolLedger}

/-- A new pool is in order. -/
theorem accounts_start (capacity : Nat) (h : capacity < 2 ^ 64) : Accounts (start capacity h) :=
  ⟨rfl, rfl, Nat.zero_le _, by simp [start, Outstanding], by simp [start, Outstanding]⟩

/-- The map has the outstanding pointers. -/
theorem Accounts.mem_iff (h : Accounts st) (p : Nat) :
    p ∈ st.pool.allocations ↔ st.Outstanding p := by
  rw [← mem_held_iff, h.held, Outstanding]

/-- **When an allocation fails.**  It fails when the rest of the capacity is too
small or the backend has nothing, and then it changes nothing. -/
theorem Accounts.allocate_fails_iff (h : Accounts st) {n : Nat} (hn : 0 < n) (a answer : Nat) :
    ((st.pool.allocate n a answer).1 = .error .badAlloc ↔
        st.pool.capacity - st.pool.used < n ∨ answer = 0) ∧
      ∀ e, (st.pool.allocate n a answer).1 = .error e →
        e = .badAlloc ∧ (st.pool.allocate n a answer).2.1 = st.pool := by
  have hwithin : st.pool.usedBytes ≤ st.pool.capacity := h.within
  have hne : n ≠ 0 := by omega
  unfold MemoryPool.allocate MemoryPool.used
  rw [if_neg hne, Nat.min_eq_right hwithin]
  simp only
  by_cases hlarge : st.pool.capacity - st.pool.usedBytes < n
  · simp [hlarge]
  · by_cases hanswer : answer = 0
    · simp [hanswer, hlarge]
    · simp [hanswer, hlarge]

/-- An allocation that succeeds enters its pointer and its size. -/
theorem Accounts.allocate_ok (h : Accounts st) {n a answer : Nat} (hn : 0 < n)
    (hroom : n ≤ st.pool.capacity - st.pool.used) (hanswer : answer ≠ 0)
    (hsound : ¬ st.Outstanding answer) :
    ∃ call, (∀ p, call ≠ .deallocate p) ∧ st.pool.allocate n a answer =
      (.ok answer,
        st.pool.setUsage (st.pool.usedBytes + n) (st.pool.allocations.insert answer n),
        [call]) := by
  have hwithin : st.pool.usedBytes ≤ st.pool.capacity := h.within
  have hcapacity := st.pool.capacity_lt
  have hroom' : n ≤ st.pool.capacity - st.pool.usedBytes := hroom
  have hsum : addSize st.pool.usedBytes n = st.pool.usedBytes + n :=
    addSize_of_lt (by omega)
  have hnew : answer ∉ st.pool.allocations := fun hmem => hsound ((h.mem_iff answer).mp hmem)
  refine ⟨if 8 < a then .allocateAligned n a else .allocate n, ?_, ?_⟩
  · intro p
    split <;> simp
  · unfold MemoryPool.allocate emplace
    rw [if_neg (by omega), Nat.min_eq_right hwithin]
    simp only
    rw [if_neg (by omega), if_neg hanswer, if_neg hnew, hsum]

/-- Releasing a pointer that is not outstanding does nothing. -/
theorem Accounts.release_foreign (h : Accounts st) {p : Nat} (hp : ¬ st.Outstanding p) :
    st.pool.release p = (st.pool, []) := by
  have hlookup : st.pool.allocations.lookup p = none :=
    AList.lookup_eq_none.mpr fun hmem => hp ((h.mem_iff p).mp hmem)
  unfold MemoryPool.release
  rw [hlookup]
  split <;> rfl

/-- Releasing an outstanding pointer gives it to the backend and takes its size
off. -/
theorem Accounts.release_outstanding (h : Accounts st) {p : Nat} (hp : st.Outstanding p) :
    ∃ n, st.pool.allocations.lookup p = some n ∧ n ≤ st.pool.usedBytes ∧
      st.pool.release p =
        (st.pool.setUsage (st.pool.usedBytes - n) (st.pool.allocations.erase p),
          [.deallocate p]) := by
  obtain ⟨n, hlookup⟩ := Option.isSome_iff_exists.mp
    (AList.lookup_isSome.mpr ((h.mem_iff p).mpr hp))
  obtain ⟨_, hsize⟩ := held_erase hlookup 0
  have hused : st.pool.usedBytes = totalSize st.pool.held := by
    rw [h.held]
    exact h.used
  have hle : n ≤ st.pool.usedBytes := by omega
  have hwithin : st.pool.usedBytes ≤ st.pool.capacity := h.within
  have hcapacity := st.pool.capacity_lt
  have hdiff : subSize st.pool.usedBytes n = st.pool.usedBytes - n :=
    subSize_of_le hle (by omega)
  have hnonnull : p ≠ 0 := fun hzero => h.nonnull (hzero ▸ hp)
  refine ⟨n, hlookup, hle, ?_⟩
  unfold MemoryPool.release
  rw [if_neg hnonnull, hlookup]
  simp only [hdiff]

/-! ## One call -/

/-- A failed or empty allocation keeps the accounts. -/
theorem Accounts.idle (h : Accounts st) {calls : List BackendCall}
    (hcalls : ∀ p, .deallocate p ∉ calls) :
    Accounts { st with calls := st.calls ++ calls } := by
  refine ⟨h.held, h.used, h.within, h.nonnull, ?_⟩
  intro p
  rw [List.count_append, List.count_eq_zero_of_not_mem (hcalls p)]
  exact h.deallocated p

/-- `allocate` keeps the accounts. -/
theorem Accounts.allocate (h : Accounts st) (n a answer : Nat)
    (hsound : answer = 0 ∨ ¬ st.Outstanding answer) :
    Accounts (st.exec (.allocate n a answer)) := by
  by_cases hn : n = 0
  · have hempty : st.pool.allocate n a answer = (.ok 0, st.pool, []) := by
      rw [MemoryPool.allocate, if_pos hn]
    rw [exec, hempty]
    simp only [if_true]
    exact h.idle (by simp)
  · obtain ⟨hfails, hsame⟩ := h.allocate_fails_iff (Nat.pos_of_ne_zero hn) a answer
    by_cases hbad : st.pool.capacity - st.pool.used < n ∨ answer = 0
    · have herror := hfails.mpr hbad
      obtain ⟨_, hpool⟩ := hsame _ herror
      have hcalls : ∀ p, BackendCall.deallocate p ∉ (st.pool.allocate n a answer).2.2 := by
        intro p
        unfold MemoryPool.allocate
        split
        · simp
        · simp only
          split
          · simp
          · split <;> (split <;> simp)
      rw [exec]
      generalize st.pool.allocate n a answer = result at *
      obtain ⟨outcome, pool, calls⟩ := result
      cases herror
      cases hpool
      exact h.idle hcalls
    · simp only [not_or, Nat.not_lt] at hbad
      obtain ⟨hroom, hanswer⟩ := hbad
      have hnew := hsound.resolve_left hanswer
      obtain ⟨call, hcall, hres⟩ := h.allocate_ok (Nat.pos_of_ne_zero hn) hroom hanswer hnew
        (a := a)
      have hwithin : st.pool.usedBytes ≤ st.pool.capacity := h.within
      have hused : st.pool.usedBytes = totalSize st.outstanding := h.used
      have hroom' : n ≤ st.pool.capacity - st.pool.usedBytes := hroom
      rw [exec, hres]
      simp only [if_neg hanswer]
      refine ⟨?_, ?_, ?_, ?_, ?_⟩
      · have hnot : answer ∉ st.pool.allocations := fun hmem => hnew ((h.mem_iff answer).mp hmem)
        rw [← h.held]
        simp only [MemoryPool.held, setUsage_allocations, AList.entries_insert_of_notMem hnot,
          List.map_cons]
      · simp only [MemoryPool.used, setUsage_usedBytes, totalSize, List.map_cons,
          List.sum_cons] at hused ⊢
        omega
      · simp only [MemoryPool.used, setUsage_usedBytes, setUsage_capacity]
        omega
      · simp only [Outstanding, List.map_cons, List.mem_cons, not_or]
        exact ⟨fun hzero => hanswer hzero.symm, h.nonnull⟩
      · intro p
        have hcount := h.deallocated p
        rw [List.count_append, List.count_singleton, List.count_cons]
        simp only [Outstanding, List.map_cons, List.mem_cons] at hcount ⊢
        by_cases hp : p = answer
        · subst hp
          have hnot : p ∉ st.outstanding.map Prod.fst := hnew
          simp only [hnot, if_false] at hcount
          simp [hcall, hcount]
        · have hp' : ¬ answer = p := fun heq => hp heq.symm
          simp only [hp, false_or]
          simp [hcall, hp', hcount]

/-- `release` keeps the accounts. -/
theorem Accounts.release (h : Accounts st) (p : Nat) : Accounts (st.exec (.release p)) := by
  rw [exec]
  by_cases hp : st.Outstanding p
  · obtain ⟨n, hlookup, hle, hres⟩ := h.release_outstanding hp
    obtain ⟨hheld, hsize⟩ := held_erase hlookup (st.pool.usedBytes - n)
    have hused : st.pool.usedBytes = totalSize st.outstanding := h.used
    have hwithin : st.pool.usedBytes ≤ st.pool.capacity := h.within
    rw [h.held] at hheld hsize
    rw [hres]
    refine ⟨hheld, ?_, ?_, ?_, ?_⟩
    · simp only [MemoryPool.used, setUsage_usedBytes]
      omega
    · simp only [MemoryPool.used, setUsage_usedBytes, setUsage_capacity]
      omega
    · intro hzero
      obtain ⟨entry, hentry, hfst⟩ := List.mem_map.mp hzero
      exact h.nonnull (List.mem_map.mpr ⟨entry, (List.mem_filter.mp hentry).1, hfst⟩)
    · intro q
      have hcount := h.deallocated q
      rw [List.count_append, List.count_singleton]
      by_cases hq : q = p
      · subst hq
        have hnot : ¬ q ∈ (st.outstanding.filter fun entry => entry.1 ≠ q).map Prod.fst := by
          simp
        simp only [if_pos hp] at hcount
        simp only [Outstanding, hnot, if_false]
        simpa using hcount
      · have hsame : q ∈ (st.outstanding.filter fun entry => entry.1 ≠ p).map Prod.fst ↔
            q ∈ st.outstanding.map Prod.fst := by
          simp [hq]
        have hq' : ¬ p = q := fun heq => hq heq.symm
        simp only [Outstanding, hsame] at hcount ⊢
        simpa [hq'] using hcount
  · have hkeep : (st.outstanding.filter fun entry => entry.1 ≠ p) = st.outstanding := by
      apply List.filter_eq_self.mpr
      intro entry hentry
      have hne : entry.1 ≠ p := fun heq => hp (List.mem_map.mpr ⟨entry, hentry, heq⟩)
      simpa using hne
    rw [h.release_foreign hp, hkeep]
    exact h.idle (by simp)

/-- **One call** keeps the accounts. -/
theorem Accounts.exec (h : Accounts st) {call : PoolCall} (hsound : st.BackendSound call) :
    Accounts (st.exec call) := by
  cases call with
  | allocate n a answer => exact h.allocate n a answer hsound
  | release p => exact h.release p

/-- No call changes the capacity. -/
theorem exec_capacity (st : PoolLedger) (call : PoolCall) :
    (st.exec call).pool.capacity = st.pool.capacity := by
  cases call with
  | allocate n a answer =>
      have hkeep := st.pool.allocate_capacity n a answer
      rw [PoolLedger.exec]
      generalize st.pool.allocate n a answer = result at hkeep
      obtain ⟨outcome, pool, calls⟩ := result
      cases outcome with
      | error e => exact hkeep
      | ok p =>
          simp only
          split <;> exact hkeep
  | release p =>
      rw [PoolLedger.exec]
      exact st.pool.release_capacity p

/-! ## Runs -/

/-- What the pool promises its callers in a state. -/
structure Exact (capacity : Nat) (st : PoolLedger) : Prop where
  used : st.pool.used = totalSize st.outstanding
  within : st.pool.used ≤ capacity
  throws : ∀ n a answer, 0 < n →
    ((st.pool.allocate n a answer).1 = .error .badAlloc ↔
      capacity - st.pool.used < n ∨ answer = 0)
  unchanged : ∀ n a answer e, (st.pool.allocate n a answer).1 = .error e →
    (st.pool.allocate n a answer).2.1 = st.pool
  foreign : ∀ p, ¬ st.Outstanding p → st.pool.release p = (st.pool, [])
  released : ∀ p, st.Outstanding p → (st.pool.release p).2 = [.deallocate p] ∧
    ¬ (st.exec (.release p)).Outstanding p
  once : ∀ p, st.calls.count (.deallocate p) + (if st.Outstanding p then 1 else 0) =
    st.returned.count p
  empty : st.outstanding = [] → st.pool.used = 0

/-- Accounts in order are exact. -/
theorem Accounts.exact (h : Accounts st) : Exact st.pool.capacity st where
  used := h.used
  within := h.within
  throws := fun n a answer hn => (h.allocate_fails_iff hn a answer).1
  unchanged := by
    intro n a answer e herror
    rcases Nat.eq_zero_or_pos n with hn | hn
    · rw [MemoryPool.allocate, if_pos hn] at herror
      cases herror
    · exact ((h.allocate_fails_iff hn a answer).2 e herror).2
  foreign := fun p hp => h.release_foreign hp
  released := by
    intro p hp
    obtain ⟨n, _, _, hres⟩ := h.release_outstanding hp
    refine ⟨by rw [hres], ?_⟩
    rw [PoolLedger.exec]
    simp
  once := h.deallocated
  empty := by
    intro hempty
    rw [h.used, hempty]
    rfl

/-- **The accounts are exact** in every state of every interleaving, for any
number of threads and any arguments. -/
theorem pool_accounts {T : Type} {capacity : Nat} {hcapacity : capacity < 2 ^ 64}
    {labels : List (T × PoolCall)} {st : PoolLedger}
    (hrun : Run Moves (start capacity hcapacity) labels st) : Exact capacity st := by
  have hinv : Accounts st ∧ st.pool.capacity = capacity := by
    refine hrun.invariant (fun st => Accounts st ∧ st.pool.capacity = capacity)
      ⟨accounts_start capacity hcapacity, rfl⟩ ?_
    intro st label st' h hstep
    obtain ⟨hsound, rfl⟩ := hstep
    exact ⟨h.1.exec hsound, (st.exec_capacity label.2).trans h.2⟩
  obtain ⟨haccounts, rfl⟩ := hinv
  exact haccounts.exact

/-- Two threads, an address used twice, a double and a foreign release, and a
request that does not fit. -/
theorem pool_accounts_example :
    let labels : List (Bool × PoolCall) :=
      [(true, .allocate 64 16 4096), (false, .allocate 8 8 8192), (true, .release 4096),
        (false, .release 4096), (true, .allocate 16 0 4096), (false, .allocate 100 256 512)]
    ∃ st, Run Moves (start 100 (by omega)) labels st ∧
      st.outstanding = [(4096, 16), (8192, 8)] ∧ st.pool.used = 24 ∧ Exact 100 st := by
  intro labels
  have hrun : Run Moves (start 100 (by omega)) labels _ :=
    .extend (.extend (.extend (.extend (.extend (.extend .start
      ⟨Or.inr (by decide +kernel), rfl⟩) ⟨Or.inr (by decide +kernel), rfl⟩) ⟨trivial, rfl⟩)
      ⟨trivial, rfl⟩) ⟨Or.inr (by decide +kernel), rfl⟩) ⟨Or.inr (by decide +kernel), rfl⟩
  have hexact := pool_accounts hrun
  exact ⟨_, hrun, by decide +kernel, by rw [hexact.used]; decide +kernel, hexact⟩

end PoolLedger

end Gpuforge

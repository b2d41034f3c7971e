import Mathlib.Data.List.AList
import Gpuforge.CallOutcome

/-!
# The memory pool (`memory.cpp`)

`MemoryPool` limits what its callers hold of a backend allocator.  It keeps the
bytes in use and a map from pointers to sizes.  Both calls run under one mutex,
so each is one atomic step.

Pointers are numbers, and null is 0.  The backend is outside: its answer to a
request is a parameter of `allocate`, and the calls made to it are part of what
a call returns.
-/

namespace Gpuforge

/-- A pool; its capacity is a `size_t`. -/
structure MemoryPool where
  capacity : Nat
  capacity_lt : capacity < 2 ^ 64
  usedBytes : Nat := 0
  allocations : AList (fun _ : Nat => Nat) := ∅

/-- A call to the backend allocator. -/
inductive BackendCall where
  | allocate (n : Nat)
  | allocateAligned (n a : Nat)
  | deallocate (p : Nat)
  deriving DecidableEq, Repr

namespace MemoryPool

/-- The constructor. -/
def new (n : Nat) (h : n < 2 ^ 64) : MemoryPool :=
  { capacity := n, capacity_lt := h }

/-- The pool with other accounts. -/
def setUsage (pool : MemoryPool) (usedBytes : Nat) (allocations : AList fun _ : Nat => Nat) :
    MemoryPool :=
  { pool with usedBytes := usedBytes, allocations := allocations }

@[simp] theorem setUsage_capacity (pool : MemoryPool) (usedBytes : Nat)
    (allocations : AList fun _ : Nat => Nat) :
    (pool.setUsage usedBytes allocations).capacity = pool.capacity :=
  rfl

@[simp] theorem setUsage_usedBytes (pool : MemoryPool) (usedBytes : Nat)
    (allocations : AList fun _ : Nat => Nat) :
    (pool.setUsage usedBytes allocations).usedBytes = usedBytes :=
  rfl

@[simp] theorem setUsage_allocations (pool : MemoryPool) (usedBytes : Nat)
    (allocations : AList fun _ : Nat => Nat) :
    (pool.setUsage usedBytes allocations).allocations = allocations :=
  rfl

/-- `allocations_.emplace(p, n)`: an entry that is there stays. -/
def emplace (allocations : AList fun _ : Nat => Nat) (p n : Nat) : AList fun _ : Nat => Nat :=
  if p ∈ allocations then allocations else allocations.insert p n

/-- `allocate`, with the answer of the backend in case it is asked. -/
def allocate (pool : MemoryPool) (n a answer : Nat) :
    Except Exn Nat × MemoryPool × List BackendCall :=
  if n = 0 then (.ok 0, pool, [])
  else
    let available := pool.capacity - min pool.capacity pool.usedBytes
    if available < n then (.error .badAlloc, pool, [])
    else
      let call := if 8 < a then BackendCall.allocateAligned n a else BackendCall.allocate n
      if answer = 0 then (.error .badAlloc, pool, [call])
      else
        (.ok answer,
          pool.setUsage (addSize pool.usedBytes n) (emplace pool.allocations answer n), [call])

def release (pool : MemoryPool) (p : Nat) : MemoryPool × List BackendCall :=
  if p = 0 then (pool, [])
  else
    match pool.allocations.lookup p with
    | none => (pool, [])
    | some n =>
        (pool.setUsage (subSize pool.usedBytes n) (pool.allocations.erase p), [.deallocate p])

def used (pool : MemoryPool) : Nat := pool.usedBytes

/-- Allocations keep the capacity. -/
theorem allocate_capacity (pool : MemoryPool) (n a answer : Nat) :
    (pool.allocate n a answer).2.1.capacity = pool.capacity := by
  unfold allocate
  split
  · rfl
  · simp only
    split
    · rfl
    · split
      · rfl
      · exact setUsage_capacity ..

/-- Releases keep the capacity. -/
theorem release_capacity (pool : MemoryPool) (p : Nat) :
    (pool.release p).1.capacity = pool.capacity := by
  unfold release
  split
  · rfl
  · split
    · rfl
    · exact setUsage_capacity ..

/-! ## Entries -/

/-- The pointers of a pool with their sizes. -/
def held (pool : MemoryPool) : List (Nat × Nat) :=
  pool.allocations.entries.map fun entry => (entry.1, entry.2)

/-- The sizes of a list of allocations. -/
def totalSize (allocations : List (Nat × Nat)) : Nat := (allocations.map Prod.snd).sum

/-- Pointers that are held are keys. -/
theorem mem_held_iff (pool : MemoryPool) (p : Nat) :
    p ∈ pool.held.map Prod.fst ↔ p ∈ pool.allocations := by
  rw [AList.mem_keys]
  simp [held, AList.keys, List.keys]

/-- Erasing a pointer leaves the allocations under the other pointers, and
takes off its size. -/
theorem held_erase {pool : MemoryPool} {p n : Nat}
    (h : pool.allocations.lookup p = some n) (usedBytes : Nat) :
    (pool.setUsage usedBytes (pool.allocations.erase p)).held =
        pool.held.filter (fun entry => entry.1 ≠ p) ∧
      totalSize pool.held =
        n + totalSize (pool.held.filter fun entry => entry.1 ≠ p) := by
  have hmem : p ∈ pool.allocations.entries.keys := by
    rw [← List.dlookup_isSome]
    exact Option.isSome_iff_exists.mpr ⟨n, h⟩
  obtain ⟨size, before, after, hbefore, hentries, herased⟩ := List.exists_of_kerase hmem
  have hsize : size = n := by
    have hself : pool.allocations.lookup p = some size := by
      apply AList.mem_lookup_iff.mpr
      rw [hentries]
      simp
    rw [h] at hself
    exact (Option.some.inj hself).symm
  have hnodup := pool.allocations.nodupKeys
  rw [hentries, List.NodupKeys, List.keys, List.map_append, List.map_cons] at hnodup
  -- no other entry has the pointer
  have hbefore' : ∀ entry ∈ before, entry.1 ≠ p := by
    intro entry hentry heq
    exact hbefore (heq ▸ List.mem_map_of_mem hentry)
  have hafter' : ∀ entry ∈ after, entry.1 ≠ p := by
    intro entry hentry heq
    have hnot := (List.nodup_cons.mp (List.nodup_append.mp hnodup).2.1).1
    have hkey : entry.1 ∈ after.map Sigma.fst := List.mem_map_of_mem hentry
    rw [heq] at hkey
    exact hnot hkey
  have hfilter : pool.held.filter (fun entry => entry.1 ≠ p) =
      (before ++ after).map fun entry => (entry.1, entry.2) := by
    rw [held, hentries, List.filter_map, List.filter_append, List.filter_cons_of_neg (by simp),
      List.filter_eq_self.mpr (by simpa using hbefore'),
      List.filter_eq_self.mpr (by simpa using hafter')]
  refine ⟨?_, ?_⟩
  · have hrest : (pool.allocations.erase p).entries = before ++ after := herased
    rw [hfilter, held, setUsage_allocations, hrest]
  · rw [hfilter, held, hentries, ← hsize]
    simp only [totalSize, List.map_append, List.map_cons, List.sum_append, List.sum_cons]
    omega

end MemoryPool

end Gpuforge

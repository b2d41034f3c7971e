import Gpuforge.CentralSound
import Gpuforge.ExclusivePlaces
import Gpuforge.PoolThreads

/-!
# Where the blocks are

A block of a small span is in one place: on the list of its span, in the cache
of a thread, in the hand of a thread that is in the middle of a call, or with a
caller.  That there is no other place, and never two, is the invariant of the
process; it holds between any two steps, whichever thread takes them.
-/

namespace Gpuforge.Kama

open ExclusivePlaces

/-! ## One thread's lists -/

theorem maxCachedBlocks_pos (size : ℕ) : 1 ≤ maxCachedBlocks size := by
  unfold maxCachedBlocks
  dsimp only
  split_ifs <;> omega

/-- A batch fits in the cache. -/
theorem getBatchNum_le (size : ℕ) : getBatchNum size ≤ maxCachedBlocks size := by
  have hdiv : 64 * 1024 / max size alignment ≤ 256 * 1024 / max size alignment :=
    Nat.div_le_div_right (by omega)
  unfold getBatchNum maxCachedBlocks
  dsimp only
  split_ifs <;> omega

namespace ThreadCache

variable {tc tc' : ThreadCache} {index i ptr : ℕ} {list : List ℕ} {n : ℕ}

/-- The lists have the lengths the cache goes by, and those are bounded. -/
structure Counted (tc : ThreadCache) : Prop where
  size : ∀ i, tc.freeListSize i = (tc.freeList i).length
  bounded : ∀ i, (tc.freeList i).length ≤ maxCachedBlocks (getSize i)

theorem counted_new : ThreadCache.new.Counted :=
  ⟨fun _ => rfl, fun _ => Nat.zero_le _⟩

theorem setList_self : (tc.setList index list n).freeList index = list := if_pos rfl

theorem setList_ne (hi : i ≠ index) : (tc.setList index list n).freeList i = tc.freeList i :=
  if_neg hi

theorem Counted.setList (h : tc.Counted) (hn : n = list.length)
    (hbound : list.length ≤ maxCachedBlocks (getSize index)) :
    (tc.setList index list n).Counted := by
  constructor
  · intro i
    by_cases hi : i = index
    · simp [ThreadCache.setList, hi, hn]
    · simpa [ThreadCache.setList, hi] using h.size i
  · intro i
    by_cases hi : i = index
    · simpa [ThreadCache.setList, hi] using hbound
    · simpa [ThreadCache.setList, hi] using h.bounded i

/-- What a push leaves, with what it may give back. -/
structure GaveUp (tc : ThreadCache) (index ptr : ℕ) (chain : List ℕ) (tc' : ThreadCache) :
    Prop where
  counted : tc'.Counted
  split : ptr :: tc.freeList index = tc'.freeList index ++ chain
  others : ∀ i, i ≠ index → tc'.freeList i = tc.freeList i

/-- **A push** splits the list with the new block in what stays and what goes. -/
theorem Counted.giveUp (h : tc.Counted) (index ptr : ℕ) :
    GaveUp tc index ptr (tc.giveUp index ptr).1 (tc.giveUp index ptr).2 := by
  have hsize := h.size index
  have hbound := h.bounded index
  have hpos := maxCachedBlocks_pos (getSize index)
  have hpushed : (tc.push index ptr).freeList index = ptr :: tc.freeList index := setList_self
  have hcount : (tc.push index ptr).freeListSize index = tc.freeListSize index + 1 := if_pos rfl
  have hkept : ∀ i, i ≠ index → (tc.push index ptr).freeList i = tc.freeList i :=
    fun i hi => setList_ne hi
  unfold ThreadCache.giveUp
  dsimp only
  split
  · next hreturn =>
    rw [shouldReturn, hcount] at hreturn
    -- the list is one longer than the bound, so it is cut
    have hcut : ∃ k, k ≤ maxCachedBlocks (getSize index) ∧ k ≤ (tc.freeList index).length + 1 ∧
        (tc.push index ptr).cut index =
          ((ptr :: tc.freeList index).drop k,
            (tc.push index ptr).setList index ((ptr :: tc.freeList index).take k) k) := by
      refine ⟨min (max ((tc.freeListSize index + 1) / 2) 1) (maxCachedBlocks (getSize index)),
        by omega, by omega, ?_⟩
      unfold ThreadCache.cut
      rw [hcount, hpushed]
      rw [if_neg (by omega)]
      rw [if_neg (by omega), if_neg (by rw [List.length_cons]; omega)]
    obtain ⟨k, hk, hlength, heq⟩ := hcut
    rw [heq]
    refine ⟨⟨?_, ?_⟩, ?_, ?_⟩
    · intro i
      by_cases hi : i = index
      · subst hi
        rw [setList_self, List.length_take, List.length_cons]
        simp only [ThreadCache.setList, if_true]
        omega
      · rw [setList_ne hi, hkept i hi]
        simpa [ThreadCache.setList, ThreadCache.push, hi] using h.size i
    · intro i
      by_cases hi : i = index
      · subst hi
        rw [setList_self, List.length_take]
        omega
      · rw [setList_ne hi, hkept i hi]
        exact h.bounded i
    · rw [setList_self, List.take_append_drop]
    · intro i hi
      rw [setList_ne hi, hkept i hi]
  · next hkeep =>
    rw [shouldReturn, hcount] at hkeep
    refine ⟨h.setList ?_ ?_, ?_, hkept⟩
    · rw [hsize, List.length_cons]
    · rw [List.length_cons]
      omega
    · rw [hpushed, List.append_nil]

end ThreadCache

/-! ## The process -/

namespace Activity

/-- The class of the blocks in hand. -/
def index : Activity → ℕ
  | .idle => 0
  | .fetching _ size _ => getIndex size
  | .returning index _ _ => index

variable {request size i : ℕ} {got chain : List ℕ} {freed : Option Bool}

@[simp] theorem blocks_idle : Activity.idle.blocks = [] := rfl

@[simp] theorem blocks_fetching : (fetching request size got).blocks = got := rfl

@[simp] theorem blocks_returning : (returning i chain freed).blocks = chain := rfl

@[simp] theorem index_fetching : (fetching request size got).index = getIndex size := rfl

@[simp] theorem index_returning : (returning i chain freed).index = i := rfl

end Activity

/-- Where a block can be. -/
inductive Place (T : Type) where
  | span (id : SpanId)
  | cache (t : T) (index : ℕ)
  | hand (t : T)
  | callers
  deriving DecidableEq

/-- There is such a block. -/
def Heap.Has (h : Heap) (a : ℕ) : Prop := ∃ id index, h.Block id index a

namespace Pool

variable {T : Type}

def content (st : Pool T) : Place T → List ℕ
  | .span id => st.heap.free id
  | .cache t index => (st.caches t).freeList index
  | .hand t => (st.doing t).blocks
  | .callers => st.small.map Prod.fst

/-- The blocks a place is for. -/
def May (st : Pool T) : Place T → ℕ → Prop
  | .span id, a => ∃ index, st.heap.Block id index a
  | .cache _ index, a => ∃ id, st.heap.Block id index a
  | .hand t, a => ∃ id, st.heap.Block id (st.doing t).index a
  | .callers, _ => True

/-- A small block that a caller holds is of the class of its request. -/
def Sized (h : Heap) (b : ℕ × ℕ) : Prop :=
  0 < b.2 ∧ b.2 ≤ maxBytes ∧ ∃ id, h.Block id (getIndex b.2) b.1

/-- A call that fetches has a small request and nothing cached for it. -/
def Busy (tc : ThreadCache) : Activity → Prop
  | .fetching _ size got =>
      0 < size ∧ size ≤ maxBytes ∧ tc.freeList (getIndex size) = [] ∧
        got.length ≤ getBatchNum (getSize (getIndex size))
  | _ => True

variable (pf : Platform)

/-- **The invariant of the process.** -/
structure Sound (st : Pool T) : Prop where
  heap : st.heap.Sound pf
  settled : ∀ id, st.heap.Settled id
  blocks : Accounts st.heap.Has st.May st.content
  sized : ∀ b ∈ st.small, Sized st.heap b
  large : ∀ a n, (a, n) ∈ st.large ↔ ∃ id, st.heap.Large id a n
  large_nodup : st.large.Nodup
  counted : ∀ t, (st.caches t).Counted
  busy : ∀ t, Busy (st.caches t) (st.doing t)

end Pool

end Gpuforge.Kama

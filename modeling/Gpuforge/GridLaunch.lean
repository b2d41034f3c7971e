import Mathlib.Data.List.Nodup
import Mathlib.Data.List.ProdSigma
import Gpuforge.ForLoop

/-!
# Kernel launches

A launch runs a kernel once for each position of a grid of blocks, and a block
has one thread for each position of a box.  The order in which positions take
their turn is up to the device; it is a parameter, about which only one thing is
known: each position has one turn.

Threads store into a device array.  A launch is described by the list of its
stores, each with the thread that made it.  An entry stored to by exactly one
store (`WrittenOnce`) has the value of that store afterwards.
-/

namespace GridLaunch

open ForLoop

universe u v w

/-- `blockIdx` or `threadIdx`. -/
structure Idx where
  x : Nat
  y : Nat
  deriving DecidableEq, Repr

/-- An order of turns: each position of a box has one. -/
structure TurnOrder where
  turns : Nat → Nat → List Idx
  nodup : ∀ x y, (turns x y).Nodup
  mem_iff : ∀ x y (i : Idx), i ∈ turns x y ↔ i.x < x ∧ i.y < y

/-- The positions of a box, column by column. -/
def box (x y : Nat) : List Idx :=
  (List.range x ×ˢ List.range y).map fun p => ⟨p.1, p.2⟩

/-- The order of the positions themselves. -/
def TurnOrder.sequential : TurnOrder where
  turns := box
  nodup := by
    intro x y
    apply List.Nodup.map
    · intro p q heq
      obtain ⟨hx, hy⟩ := Idx.mk.inj heq
      exact Prod.ext hx hy
    · exact List.nodup_range.product List.nodup_range
  mem_iff := by
    intro x y i
    constructor
    · intro hmem
      obtain ⟨p, hp, rfl⟩ := List.mem_map.mp hmem
      obtain ⟨hx, hy⟩ := List.mem_product.mp hp
      exact ⟨List.mem_range.mp hx, List.mem_range.mp hy⟩
    · intro hlt
      apply List.mem_map.mpr ⟨(i.x, i.y), List.mem_product.mpr ⟨?_, ?_⟩, rfl⟩
      · exact List.mem_range.mpr hlt.1
      · exact List.mem_range.mpr hlt.2

/-- The orders of the blocks of a grid and of the threads of a block. -/
structure Device where
  blocks : TurnOrder
  threads : TurnOrder

/-- A store of a thread into a device array. -/
structure Store (α : Type u) where
  blockIdx : Idx
  threadIdx : Idx
  index : Nat
  value : α
  deriving DecidableEq, Repr

/-- Collect what the turns of an order give. -/
def gather {ι : Type v} {ε : Type w} {β : Type u} (f : ι → Except ε (List β))
    (order : List ι) : Except ε (List β) :=
  loop (fun i collected =>
      match f i with
      | .error e => .error e
      | .ok new => .ok (collected ++ new))
    order []

/-- The array after the stores. -/
def commit {α : Type u} (stores : List (Store α)) (memory : List α) : List α :=
  stores.foldl (fun memory store => memory.set store.index store.value) memory

/-- **Written once.**  Exactly one store goes to the entry, with the value. -/
def WrittenOnce {α : Type u} (stores : List (Store α)) (index : Nat) (value : α) : Prop :=
  ∃ store, stores.filter (fun store => store.index = index) = [store] ∧ store.value = value

/-- Turns that all succeed give one list. -/
theorem gather_eq {ι : Type v} {ε : Type w} {β : Type u} {f : ι → Except ε (List β)}
    {g : ι → List β} {order : List ι} (h : ∀ i ∈ order, f i = .ok (g i)) :
    gather f order = .ok (order.flatMap g) := by
  have hfrom : ∀ rest collected, (∀ i ∈ rest, f i = .ok (g i)) →
      loop (fun i collected =>
        match f i with
        | .error e => .error e
        | .ok new => .ok (collected ++ new)) rest collected =
        .ok (collected ++ rest.flatMap g) := by
    intro rest
    induction rest with
    | nil =>
        intro collected _
        rw [List.flatMap_nil, List.append_nil]
        rfl
    | cons i rest ih =>
        intro collected hall
        have hi := hall i List.mem_cons_self
        rw [loop, hi, List.flatMap_cons, ← List.append_assoc]
        exact ih _ fun j hj => hall j (List.mem_cons_of_mem i hj)
  rw [gather, hfrom order [] h, List.nil_append]

/-- The errors of the turns of an order are those of a turn. -/
theorem endsIn_gather {ι : Type v} {ε : Type w} {β : Type u} {errors : ε → Prop}
    {f : ι → Except ε (List β)} {order : List ι} (h : ∀ i ∈ order, EndsIn errors (f i)) :
    EndsIn errors (gather f order) := by
  apply endsIn_loop
  intro i hi collected
  cases hturn : f i with
  | error e => exact endsIn_error (h i hi e hturn)
  | ok new => exact endsIn_ok _

/-- Turns that end were all taken. -/
theorem gather_ran {ι : Type v} {ε : Type w} {β : Type u} {f : ι → Except ε (List β)}
    {order : List ι} {all : List β} (h : gather f order = .ok all) {i : ι} (hi : i ∈ order) :
    ∃ new, f i = .ok new := by
  obtain ⟨s₁, s₂, hturn⟩ := loop_ran h hi
  cases hnew : f i with
  | error e =>
      rw [hnew] at hturn
      cases hturn
  | ok new => exact ⟨new, rfl⟩

section stores

variable {α : Type u} {stores : List (Store α)} {memory : List α} {index : Nat} {value : α}

@[simp] theorem length_commit : (commit stores memory).length = memory.length := by
  induction stores generalizing memory with
  | nil => rfl
  | cons store stores ih =>
      rw [commit, List.foldl_cons, ← commit, ih, List.length_set]

/-- An entry no store goes to. -/
theorem commit_of_unwritten (h : stores.filter (fun store => store.index = index) = []) :
    (commit stores memory)[index]? = memory[index]? := by
  induction stores generalizing memory with
  | nil => rfl
  | cons store stores ih =>
      have hne : store.index ≠ index := by
        intro heq
        simp [heq] at h
      rw [List.filter_cons_of_neg (by simpa using hne)] at h
      rw [commit, List.foldl_cons, ← commit, ih h, List.getElem?_set_ne hne]

/-- **An entry written once has the value of its store.** -/
theorem WrittenOnce.commit (h : WrittenOnce stores index value) (hin : index < memory.length) :
    (commit stores memory)[index]? = some value := by
  obtain ⟨only, hfilter, hvalue⟩ := h
  induction stores generalizing memory with
  | nil => cases hfilter
  | cons store stores ih =>
      rw [GridLaunch.commit, List.foldl_cons, ← GridLaunch.commit]
      by_cases heq : store.index = index
      · rw [List.filter_cons_of_pos (by simpa using heq)] at hfilter
        obtain ⟨rfl, hrest⟩ := List.cons.inj hfilter
        rw [commit_of_unwritten hrest, ← hvalue, ← heq]
        exact List.getElem?_set_self (by omega)
      · rw [List.filter_cons_of_neg (by simpa using heq)] at hfilter
        exact ih (by simpa using hin) hfilter

/-- **One turn of an order writes an entry, and it does so once.** -/
theorem writtenOnce_flatMap {ι : Type v} {order : List ι} {storesOf : ι → List (Store α)}
    (hnodup : order.Nodup) {i : ι} (hi : i ∈ order)
    (hothers : ∀ j ∈ order, ∀ store ∈ storesOf j, store.index = index → j = i)
    (h : WrittenOnce (storesOf i) index value) :
    WrittenOnce (order.flatMap storesOf) index value := by
  obtain ⟨store, hfilter, hvalue⟩ := h
  refine ⟨store, ?_, hvalue⟩
  obtain ⟨front, back, rfl⟩ := List.append_of_mem hi
  have hnot : ∀ j ∈ front ++ i :: back, j ≠ i →
      (storesOf j).filter (fun store => store.index = index) = [] := by
    intro j hj hne
    apply List.filter_eq_nil_iff.mpr
    intro other hother heq
    exact hne (hothers j hj other hother (by simpa using heq))
  have hi' := List.nodup_middle.mp hnodup
  rw [List.nodup_cons, List.mem_append, not_or] at hi'
  rw [List.filter_flatMap, List.flatMap_append, List.flatMap_cons, hfilter]
  have hfront : front.flatMap (fun j => (storesOf j).filter fun store => store.index = index)
      = [] := by
    apply List.flatMap_eq_nil_iff.mpr
    intro j hj
    exact hnot j (by simp [hj]) (by
      intro heq
      exact hi'.1.1 (heq ▸ hj))
  have hback : back.flatMap (fun j => (storesOf j).filter fun store => store.index = index)
      = [] := by
    apply List.flatMap_eq_nil_iff.mpr
    intro j hj
    exact hnot j (by simp [hj]) (by
      intro heq
      exact hi'.1.2 (heq ▸ hj))
  rw [hfront, hback, List.nil_append, List.append_nil]

end stores

end GridLaunch

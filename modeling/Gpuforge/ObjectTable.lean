import Mathlib.Algebra.BigOperators.Group.Finset.Basic
import Mathlib.Algebra.Order.BigOperators.Group.Finset

/-!
# Objects behind pointers

A program that creates objects, writes their fields and deletes them has a table
from pointers to objects.  A pointer that was given out is not given out again,
so a pointer to a deleted object stays one: reading through it finds nothing.

A total over all objects changes with each operation by what the operation did
to the one object it is about.
-/

namespace ObjectTable

universe u

/-- A table of objects.  Nothing is at a pointer that has not been given out. -/
structure Objects (σ : Type u) where
  get : ℕ → Option σ
  next : ℕ
  fresh : ∀ i, next ≤ i → get i = none

variable {σ : Type u}

/-- The table before the first object. -/
def Objects.empty : Objects σ where
  get := fun _ => none
  next := 0
  fresh := fun _ _ => rfl

/-- Create an object; its pointer is `next`. -/
def Objects.new (o : Objects σ) (v : σ) : Objects σ where
  get := fun j => if j = o.next then some v else o.get j
  next := o.next + 1
  fresh := fun j hj => by
    rw [if_neg (by omega)]
    exact o.fresh j (by omega)

/-- Write to the object at a pointer. -/
def Objects.modify (o : Objects σ) (i : ℕ) (f : σ → σ) : Objects σ where
  get := fun j => if j = i then (o.get i).map f else o.get j
  next := o.next
  fresh := fun j hj => by
    split
    · next h => rw [← h, o.fresh j hj, Option.map_none]
    · exact o.fresh j hj

/-- Delete the object at a pointer. -/
def Objects.delete (o : Objects σ) (i : ℕ) : Objects σ where
  get := fun j => if j = i then none else o.get j
  next := o.next
  fresh := fun j hj => by
    split
    · rfl
    · exact o.fresh j hj

variable {o : Objects σ} {i j : ℕ} {v s : σ} {f : σ → σ}

@[simp] theorem get_empty (i : ℕ) : (Objects.empty : Objects σ).get i = none := rfl

/-- A pointer at which there is an object has been given out. -/
theorem Objects.lt_next (h : o.get i = some s) : i < o.next := by
  by_contra hge
  rw [o.fresh i (by omega)] at h
  cases h

@[simp] theorem get_new_self : (o.new v).get o.next = some v := if_pos rfl

theorem get_new_ne (h : j ≠ o.next) : (o.new v).get j = o.get j := if_neg h

/-- Objects that were there are still there. -/
theorem get_new_of_some (h : o.get j = some s) : (o.new v).get j = some s := by
  rw [get_new_ne (Objects.lt_next h).ne, h]

theorem get_modify_self : (o.modify i f).get i = (o.get i).map f := if_pos rfl

theorem get_modify_of_some (h : o.get i = some s) : (o.modify i f).get i = some (f s) := by
  rw [get_modify_self, h, Option.map_some]

theorem get_modify_ne (h : j ≠ i) : (o.modify i f).get j = o.get j := if_neg h

@[simp] theorem get_delete_self : (o.delete i).get i = none := if_pos rfl

theorem get_delete_ne (h : j ≠ i) : (o.delete i).get j = o.get j := if_neg h

/-- What is found after a write: the written object, or another as before. -/
theorem get_modify_eq_some (hi : o.get i = some s) :
    (o.modify i f).get j = some v ↔ (j = i ∧ f s = v) ∨ (j ≠ i ∧ o.get j = some v) := by
  by_cases h : j = i
  · subst h
    simp [get_modify_of_some hi]
  · simp [get_modify_ne h, h]

/-- What is found after a deletion. -/
theorem get_delete_eq_some : (o.delete i).get j = some v ↔ j ≠ i ∧ o.get j = some v := by
  by_cases h : j = i
  · subst h
    simp
  · simp [get_delete_ne h, h]

/-- What is found after a write to one object and the deletion of another. -/
theorem get_modify_delete_eq_some (hi : o.get i = some s) (hij : i ≠ j) {k : ℕ} :
    ((o.modify i f).delete j).get k = some v ↔
      (k = i ∧ f s = v) ∨ (k ≠ i ∧ k ≠ j ∧ o.get k = some v) := by
  rw [get_delete_eq_some, get_modify_eq_some hi]
  constructor
  · intro h
    obtain ⟨hkj, h | h⟩ := h
    · exact .inl h
    · exact .inr ⟨h.1, hkj, h.2⟩
  · intro h
    obtain h | h := h
    · exact ⟨h.1 ▸ hij, .inl h⟩
    · exact ⟨h.2.1, .inr ⟨h.1, h.2.2⟩⟩

/-- What is found after a creation. -/
theorem get_new_eq_some :
    (o.new v).get j = some s ↔ (j = o.next ∧ v = s) ∨ o.get j = some s := by
  by_cases h : j = o.next
  · subst h
    simp [o.fresh _ (le_refl _)]
  · simp [get_new_ne h, h]

/-! ## Totals -/

/-- The total of a measure of the objects. -/
def Objects.tally (o : Objects σ) (f : σ → ℕ) : ℕ :=
  ∑ i ∈ Finset.range o.next, (o.get i).elim 0 f

variable {w : σ → ℕ}

/-- The objects other than one keep their share of a total. -/
theorem tally_split (hi : i < o.next) (w : σ → ℕ) :
    o.tally w =
      (o.get i).elim 0 w + ∑ j ∈ (Finset.range o.next).erase i, (o.get j).elim 0 w :=
  (Finset.add_sum_erase _ _ (Finset.mem_range.mpr hi)).symm

@[simp] theorem tally_empty : (Objects.empty : Objects σ).tally w = 0 := by
  simp [Objects.tally, Objects.empty]

theorem tally_new : (o.new v).tally w = o.tally w + w v := by
  have hrest : ∀ j ∈ Finset.range o.next,
      ((o.new v).get j).elim 0 w = (o.get j).elim 0 w := by
    intro j hj
    rw [get_new_ne (Finset.mem_range.mp hj).ne]
  unfold Objects.tally
  rw [show (o.new v).next = o.next + 1 from rfl, Finset.sum_range_succ, get_new_self,
    Finset.sum_congr rfl hrest]
  rfl

theorem tally_modify (h : o.get i = some s) :
    (o.modify i f).tally w + w s = o.tally w + w (f s) := by
  have hi : i < o.next := Objects.lt_next h
  have hrest : ∀ j ∈ (Finset.range o.next).erase i,
      ((o.modify i f).get j).elim 0 w = (o.get j).elim 0 w := by
    intro j hj
    rw [get_modify_ne (Finset.ne_of_mem_erase hj)]
  rw [tally_split hi, tally_split (o := o.modify i f) hi, get_modify_of_some h, h,
    show (o.modify i f).next = o.next from rfl, Finset.sum_congr rfl hrest]
  simp only [Option.elim_some]
  omega

theorem tally_delete (h : o.get i = some s) : (o.delete i).tally w + w s = o.tally w := by
  have hi : i < o.next := Objects.lt_next h
  have hrest : ∀ j ∈ (Finset.range o.next).erase i,
      ((o.delete i).get j).elim 0 w = (o.get j).elim 0 w := by
    intro j hj
    rw [get_delete_ne (Finset.ne_of_mem_erase hj)]
  rw [tally_split hi, tally_split (o := o.delete i) hi, get_delete_self, h,
    show (o.delete i).next = o.next from rfl, Finset.sum_congr rfl hrest]
  simp only [Option.elim_some, Option.elim_none]
  omega

/-- A write and a deletion. -/
theorem tally_modify_delete {t : σ} (hi : o.get i = some s) (hj : o.get j = some t) (hij : i ≠ j) :
    ((o.modify i f).delete j).tally w + w t + w s = o.tally w + w (f s) := by
  have hdel := tally_delete (o := o.modify i f) (w := w) ((get_modify_ne hij.symm).trans hj)
  have hmod := tally_modify (f := f) (w := w) hi
  omega

/-- Measures that add up object by object have totals that add up. -/
theorem tally_add {u w t : σ → ℕ} (h : ∀ i s, o.get i = some s → u s + w s = t s) :
    o.tally u + o.tally w = o.tally t := by
  unfold Objects.tally
  rw [← Finset.sum_add_distrib]
  refine Finset.sum_congr rfl ?_
  intro i _
  cases hget : o.get i with
  | none => rfl
  | some s => exact h i s hget

/-- Larger measures have larger totals. -/
theorem tally_mono {u w : σ → ℕ} (h : ∀ i s, o.get i = some s → u s ≤ w s) :
    o.tally u ≤ o.tally w := by
  refine Finset.sum_le_sum ?_
  intro i _
  cases hget : o.get i with
  | none => exact le_refl _
  | some s => exact h i s hget

/-- A total is zero where every object's share is. -/
theorem tally_eq_zero (h : ∀ i s, o.get i = some s → w s = 0) : o.tally w = 0 := by
  refine Finset.sum_eq_zero ?_
  intro i _
  cases hget : o.get i with
  | none => rfl
  | some s => exact h i s hget

end ObjectTable

import Mathlib.Algebra.Order.Ring.Nat
import Mathlib.Data.List.Perm.Basic
import Mathlib.Data.List.Nodup

/-!
# Tables of rows

A table is a list of rows addressed by index, a row past the end being empty.
Appending an item to a row or clearing a row changes the multiset of all items
in the table by exactly that item or that row, and touches no other row.
These facts are what ownership and accounting arguments over a table need.
-/

namespace ListTable

universe u

variable {α : Type u} {table : List (List α)} {s t i j : Nat}

/-- The row at an index; empty past the end. -/
abbrev row (table : List (List α)) (s : Nat) : List α := table.getD s []

/-- A written row reads back. -/
theorem row_set_self {r : List α} (hs : s < table.length) :
    row (table.set s r) s = r := by
  simp [row, List.getD_eq_getElem?_getD, hs]

/-- Writing a row leaves the others alone. -/
theorem row_set_ne {r : List α} (h : t ≠ s) : row (table.set s r) t = row table t := by
  simp [row, List.getD_eq_getElem?_getD, List.getElem?_set_ne h.symm]

/-- A nonempty row is inside the table. -/
theorem lt_length_of_mem_row {x : α} (h : x ∈ row table s) : s < table.length := by
  by_contra hge
  simp [row, List.getD_eq_getElem?_getD, List.getElem?_eq_none (Nat.le_of_not_lt hge)] at h

/-- The items of the table are the items of its rows. -/
theorem mem_flatten_iff {x : α} : x ∈ table.flatten ↔ ∃ s, x ∈ row table s := by
  constructor
  · intro h
    obtain ⟨r, hr, hx⟩ := List.mem_flatten.mp h
    obtain ⟨s, hs, rfl⟩ := List.mem_iff_getElem.mp hr
    exact ⟨s, by simpa [row, List.getD_eq_getElem?_getD, hs] using hx⟩
  · intro hrow
    obtain ⟨s, hx⟩ := hrow
    have hs := lt_length_of_mem_row hx
    refine List.mem_flatten.mpr ⟨table[s], List.getElem_mem hs, ?_⟩
    simpa [row, List.getD_eq_getElem?_getD, hs] using hx

/-- Pushing an item on a row adds exactly that item to the table. -/
theorem flatten_push_perm (x : α) (hs : s < table.length) :
    (table.set s (row table s ++ [x])).flatten.Perm (x :: table.flatten) := by
  induction table generalizing s with
  | nil => simp at hs
  | cons r rest ih =>
      cases s with
      | zero =>
          simp only [row, List.getD_cons_zero, List.set_cons_zero, List.flatten_cons,
            List.append_assoc, List.singleton_append]
          exact List.perm_middle
      | succ s =>
          simp only [row, List.getD_cons_succ, List.set_cons_succ, List.flatten_cons]
          have hrest := ih (s := s) (by simpa using hs)
          exact (hrest.append_left r).trans List.perm_middle

/-- Clearing a row removes exactly its items from the table. -/
theorem flatten_clear_perm (table : List (List α)) (s : Nat) :
    (row table s ++ (table.set s []).flatten).Perm table.flatten := by
  induction table generalizing s with
  | nil => simp [row]
  | cons r rest ih =>
      cases s with
      | zero => simp [row]
      | succ s =>
          simp only [row, List.getD_cons_succ, List.set_cons_succ, List.flatten_cons]
          have hswap : (rest.getD s [] ++ (r ++ (rest.set s []).flatten)).Perm
              (r ++ (rest.getD s [] ++ (rest.set s []).flatten)) :=
            List.perm_append_comm_assoc _ _ _
          exact hswap.trans ((ih s).append_left r)

/-- In a duplicate-free table, no item stands in two rows. -/
theorem row_disjoint (hnd : table.flatten.Nodup) (hne : s ≠ t) {x : α}
    (hs : x ∈ row table s) : x ∉ row table t := by
  intro ht
  have hnd' := ((flatten_clear_perm table s).nodup_iff).mpr hnd
  have hrest : x ∈ (table.set s []).flatten :=
    mem_flatten_iff.mpr ⟨t, by rw [row_set_ne hne.symm]; exact ht⟩
  exact (List.nodup_append.mp hnd').2.2 x hs x hrest rfl

/-- Each row of a duplicate-free table is duplicate-free. -/
theorem row_nodup (hnd : table.flatten.Nodup) (s : Nat) : (row table s).Nodup :=
  (List.nodup_append.mp (((flatten_clear_perm table s).nodup_iff).mpr hnd)).1

/-- In a duplicate-free table an item stands at one place of one row. -/
theorem place_unique (hnd : table.flatten.Nodup) {x : α} (hs : (row table s)[i]? = some x)
    (ht : (row table t)[j]? = some x) : s = t ∧ i = j := by
  have hrows : s = t := by
    by_contra hne
    exact row_disjoint hnd hne (List.mem_of_getElem? hs) (List.mem_of_getElem? ht)
  subst hrows
  obtain ⟨hi, hx⟩ := List.getElem?_eq_some_iff.mp hs
  obtain ⟨hj, hy⟩ := List.getElem?_eq_some_iff.mp ht
  exact ⟨rfl, (row_nodup hnd s).getElem_inj_iff.mp (hx.trans hy.symm)⟩

/-- Cutting the table short only loses items. -/
theorem flatten_take_sublist (table : List (List α)) (n : Nat) :
    (table.take n).flatten.Sublist table.flatten := by
  conv => rhs; rw [← List.take_append_drop n table, List.flatten_append]
  exact List.sublist_append_left _ _

/-- The table has as many items as its rows have together. -/
theorem flatten_length_eq (table : List (List α)) :
    table.flatten.length = ((List.range table.length).map fun s => (row table s).length).sum := by
  have hrows : (List.range table.length).map (fun s => (row table s).length) =
      table.map List.length := by
    apply List.ext_getElem (by simp)
    intro i hi hi'
    simp only [List.length_map, List.length_range] at hi
    simp [row, List.getD_eq_getElem?_getD, hi]
  rw [hrows, List.length_flatten]

/-- Changing one entry changes a count by what that entry contributes. -/
theorem countP_modify {β : Type u} (q : β → Bool) (f : β → β) {xs : List β} {i : Nat}
    {x : β} (h : xs[i]? = some x) :
    (xs.modify i f).countP q + (q x).toNat = xs.countP q + (q (f x)).toNat := by
  induction xs generalizing i with
  | nil => simp at h
  | cons y rest ih =>
      cases i with
      | zero =>
          simp only [List.getElem?_cons_zero, Option.some.injEq] at h
          subst h
          simp only [List.modify_zero_cons, List.countP_cons]
          cases q y <;> cases q (f y) <;> simp
      | succ i =>
          have hrest := ih (i := i) (by simpa using h)
          simp only [List.modify_succ_cons, List.countP_cons]
          omega

/-- The item behind a prefix is updated where it stands. -/
theorem modify_length_append {β : Type u} (f : β → β) (before : List β) (x : β) (after : List β) :
    (before ++ x :: after).modify before.length f = before ++ f x :: after := by
  induction before with
  | nil => rfl
  | cons b before ih => simp [ih]

end ListTable

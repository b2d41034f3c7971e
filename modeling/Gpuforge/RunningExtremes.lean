import Mathlib.Order.Bounds.Basic
import Mathlib.Order.MinMax

/-!
# Extremes that run from a start value

A loop that keeps the smallest value seen so far has to start from something.  What it ends
with is the least element of the values together with the start, so it is the least of the
values alone exactly when one of them is not above the start.  The same holds of the largest
value, upside down.  A loop may also see only some of the values it is to speak of.
-/

namespace RunningExtremes

universe u

variable {α : Type u} [LinearOrder α] {a m : α}

/-- The smallest value seen, from a start. -/
theorem foldl_min_isLeast (a : α) (xs : List α) :
    IsLeast (insert a {v | v ∈ xs}) (xs.foldl min a) := by
  induction xs generalizing a with
  | nil => simp [IsLeast, lowerBounds]
  | cons x xs ih =>
      have hrest := ih (min a x)
      rw [List.foldl_cons]
      refine ⟨?_, ?_⟩
      · rcases hrest.1 with hstart | hmem
        · rw [hstart]
          rcases min_choice a x with hleft | hright
          · rw [hleft]
            exact Set.mem_insert a _
          · rw [hright]
            exact Set.mem_insert_of_mem a (List.mem_cons_self ..)
        · exact Set.mem_insert_of_mem a (List.mem_cons_of_mem x hmem)
      · intro v hv
        have hmin : xs.foldl min (min a x) ≤ min a x := hrest.2 (Set.mem_insert _ _)
        rcases hv with rfl | hv
        · exact hmin.trans (min_le_left _ _)
        · rcases List.mem_cons.mp hv with rfl | hv
          · exact hmin.trans (min_le_right _ _)
          · exact hrest.2 (Set.mem_insert_of_mem _ hv)

/-- The largest value seen, from a start. -/
theorem foldl_max_isGreatest (a : α) (xs : List α) :
    IsGreatest (insert a {v | v ∈ xs}) (xs.foldl max a) :=
  foldl_min_isLeast (α := αᵒᵈ) a xs

/-- **A start is neutral exactly when some value is not above it.**  Where the loop sees only
some of the values, the ones it misses have to be beyond the start or beyond a value it sees. -/
theorem isLeast_iff_of_insert {s t : Set α} (hsub : s ⊆ t) (h : IsLeast (insert a s) m) :
    IsLeast t m ↔ (∃ v ∈ t, v ≤ a) ∧ ∀ v ∈ t, a ≤ v ∨ ∃ u ∈ s, u ≤ v := by
  have hstart : m ≤ a := h.2 (Set.mem_insert a s)
  have hseen : ∀ u ∈ s, m ≤ u := fun u hu => h.2 (Set.mem_insert_of_mem a hu)
  constructor
  · intro hleast
    refine ⟨⟨m, hleast.1, hstart⟩, fun v hv => ?_⟩
    rcases h.1 with heq | hmem
    · exact Or.inl (heq ▸ hleast.2 hv)
    · exact Or.inr ⟨m, hmem, hleast.2 hv⟩
  · intro hboth
    obtain ⟨⟨v, hv, hle⟩, hbeyond⟩ := hboth
    have hlower : ∀ w ∈ t, m ≤ w := by
      intro w hw
      rcases hbeyond w hw with hw | ⟨u, hu, hw⟩
      · exact hstart.trans hw
      · exact (hseen u hu).trans hw
    refine ⟨?_, hlower⟩
    rcases h.1 with heq | hmem
    · -- the start itself is the least, and `v` is not above it
      have hsame : v = m := le_antisymm (hle.trans heq.ge) (hlower v hv)
      exact hsame ▸ hv
    · exact hsub hmem

/-- The start of a running maximum is neutral exactly when some value is not below it. -/
theorem isGreatest_iff_of_insert {s t : Set α} (hsub : s ⊆ t) (h : IsGreatest (insert a s) m) :
    IsGreatest t m ↔ (∃ v ∈ t, a ≤ v) ∧ ∀ v ∈ t, v ≤ a ∨ ∃ u ∈ s, v ≤ u :=
  isLeast_iff_of_insert (α := αᵒᵈ) hsub h

end RunningExtremes

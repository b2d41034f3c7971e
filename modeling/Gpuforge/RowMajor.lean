import Mathlib.Algebra.Order.Ring.Nat

/-!
# Row-major arrays

A matrix of `w` columns in one list: the cell at row `i` and column `j` stands
at `i * w + j`.  Cells of the matrix stay inside, different cells stand at
different places, and a write to one cell is seen at that cell only.
-/

namespace RowMajor

universe u

variable {α : Type u} {w i j i' j' : Nat}

/-- Cells are inside. -/
theorem cell_lt {r : Nat} (hi : i < r) (hj : j < w) : i * w + j < r * w :=
  calc i * w + j < i * w + w := by omega
    _ = (i + 1) * w := by rw [Nat.succ_mul]
    _ ≤ r * w := Nat.mul_le_mul_right w hi

/-- Different cells, different places. -/
theorem cell_inj (hj : j < w) (hj' : j' < w) :
    i * w + j = i' * w + j' ↔ i = i' ∧ j = j' := by
  constructor
  · intro heq
    have hrow : i = i' := by
      have hdiv := congrArg (· / w) heq
      simp only [Nat.mul_comm _ w, Nat.mul_add_div (Nat.zero_lt_of_lt hj),
        Nat.div_eq_of_lt hj, Nat.div_eq_of_lt hj', Nat.add_zero] at hdiv
      exact hdiv
    subst hrow
    exact ⟨rfl, by omega⟩
  · intro heq
    rw [heq.1, heq.2]

/-- A place is a cell. -/
theorem exists_cell {r n : Nat} (hn : n < r * w) : ∃ i j, i < r ∧ j < w ∧ n = i * w + j := by
  have hw : 0 < w := by
    apply Nat.pos_of_ne_zero
    intro hzero
    simp [hzero] at hn
  refine ⟨n / w, n % w, Nat.div_lt_of_lt_mul (by rwa [Nat.mul_comm]), Nat.mod_lt n hw, ?_⟩
  rw [Nat.mul_comm, Nat.div_add_mod]

/-- A write to one cell. -/
theorem getElem?_set {xs : List α} (hj : j < w) (hj' : j' < w) (hin : i * w + j < xs.length)
    (x : α) : (xs.set (i * w + j) x)[i' * w + j']? =
      if i' = i ∧ j' = j then some x else xs[i' * w + j']? := by
  by_cases hsame : i' = i ∧ j' = j
  · rw [if_pos hsame, hsame.1, hsame.2]
    exact List.getElem?_set_self hin
  · rw [if_neg hsame]
    apply List.getElem?_set_ne
    intro heq
    exact hsame ((cell_inj hj' hj).mp heq.symm)

/-- A row of a matrix. -/
def row (w : Nat) (xs : List α) (i : Nat) : List α := (xs.drop (i * w)).take w

/-- The entries of a row are its cells. -/
theorem getElem?_row (xs : List α) (hj : j < w) : (row w xs i)[j]? = xs[i * w + j]? := by
  rw [row, List.getElem?_take_of_lt hj, List.getElem?_drop]

/-- A row of a matrix has all its columns. -/
theorem length_row {r : Nat} {xs : List α} (hlength : xs.length = r * w) (hi : i < r) :
    (row w xs i).length = w := by
  have hle : i * w + w ≤ r * w := by
    rw [← Nat.succ_mul]
    exact Nat.mul_le_mul_right w hi
  rw [row, List.length_take, List.length_drop, hlength]
  omega

/-- A row with the cells of a list is the list. -/
theorem row_eq {r : Nat} {xs ys : List α} (hlength : xs.length = r * w) (hi : i < r)
    (hys : ys.length = w) (hcells : ∀ j < w, xs[i * w + j]? = ys[j]?) : row w xs i = ys := by
  apply List.ext_getElem?
  intro j
  by_cases hj : j < w
  · rw [getElem?_row xs hj, hcells j hj]
  · have hrow := length_row hlength hi
    rw [List.getElem?_eq_none (by omega), List.getElem?_eq_none (by omega)]

end RowMajor

import Mathlib.Algebra.BigOperators.Group.List.Basic
import Mathlib.Algebra.Order.BigOperators.GroupWithZero.List
import Mathlib.Algebra.Order.Ring.Nat

/-!
# Broadcast addressing of flat arrays

An array over dims is stored flat, in row-major order; the dims here are listed
from the innermost one out.  An operand broadcast to larger dims of the same
rank is read at the same coordinates, with 0 along its axes of size 1.

If the operand has the dims of the result, broadcasting reads it in place
(`offset_self`).  Conversely dims that are nowhere larger than the result's and
have as many elements are the result's dims (`eq_of_prod_eq`), so broadcasting
in place happens in no other case.
-/

namespace BroadcastIndex

/-- Where the operand with dims `dims` is read for the flat position `j` of the
result with dims `out`. -/
def offset : List Nat → List Nat → Nat → Nat
  | o :: out, d :: dims, j =>
      (if d = 1 then 0 else j % o) + d * offset out dims (j / o)
  | _, _, _ => 0

/-- An operand with the dims of the result is read in place. -/
theorem offset_self {dims : List Nat} (hpos : ∀ d ∈ dims, 0 < d) {j : Nat}
    (hj : j < dims.prod) : offset dims dims j = j := by
  induction dims generalizing j with
  | nil =>
      simp only [List.prod_nil] at hj
      simp only [offset]
      omega
  | cons d dims ih =>
      have hd : 0 < d := hpos d List.mem_cons_self
      rw [List.prod_cons] at hj
      have hrest := ih (fun e he => hpos e (List.mem_cons_of_mem _ he))
        (Nat.div_lt_of_lt_mul hj)
      have hcoord : (if d = 1 then 0 else j % d) = j % d := by
        split
        · rename_i hone
          rw [hone, Nat.mod_one]
        · rfl
      rw [offset, hrest, hcoord]
      exact Nat.mod_add_div j d

/-- Axis by axis smaller dims have fewer elements. -/
theorem prod_le {dims out : List Nat} (hle : List.Forall₂ (· ≤ ·) dims out) :
    dims.prod ≤ out.prod := by
  induction hle with
  | nil => exact Nat.le_refl _
  | cons hd _ ih =>
      rw [List.prod_cons, List.prod_cons]
      exact Nat.mul_le_mul hd ih

/-- **Equal counts.**  Positive dims that are axis by axis at most the result's
and have as many elements are the result's dims. -/
theorem eq_of_prod_eq {dims out : List Nat} (hle : List.Forall₂ (· ≤ ·) dims out)
    (hpos : ∀ d ∈ dims, 0 < d) (hprod : out.prod = dims.prod) : dims = out := by
  induction hle with
  | nil => rfl
  | @cons d o dims out hd hrest ih =>
      have hdpos : 0 < d := hpos d List.mem_cons_self
      have hpos' : ∀ e ∈ dims, 0 < e := fun e he => hpos e (List.mem_cons_of_mem _ he)
      have hless := prod_le hrest
      have hprodPos : 0 < dims.prod := List.prod_pos hpos'
      rw [List.prod_cons, List.prod_cons] at hprod
      -- a larger head would need a smaller rest
      have hhead : d = o := by
        by_contra hne
        have hlt : d + 1 ≤ o := by omega
        have hmul : (d + 1) * dims.prod ≤ o * out.prod := Nat.mul_le_mul hlt hless
        rw [hprod, Nat.add_mul] at hmul
        omega
      subst hhead
      rw [ih hpos' (Nat.eq_of_mul_eq_mul_left hdpos hprod)]

end BroadcastIndex

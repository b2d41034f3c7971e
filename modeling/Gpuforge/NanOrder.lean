import Gpuforge.RunningExtremes

/-!
# An order with NaN

Floating point values are numbers, which are ordered, or NaN, with which every comparison
is false.  `std::max(a, b)` is `(a < b) ? b : a`: where `b` is NaN it gives `a`, so a
maximum that runs over values on the right never becomes NaN and ends as the maximum of the
numbers among them.
-/

namespace NanOrder

open RunningExtremes

universe u

/-- A number, infinities included, or NaN. -/
inductive WithNan (α : Type u) where
  | num (x : α)
  | nan
  deriving DecidableEq, Repr

namespace WithNan

variable {α : Type u}

/-- The number, if it is one. -/
def number? : WithNan α → Option α
  | num x => some x
  | nan => none

/-- An operation on two numbers; NaN goes through. -/
def lift₂ (f : α → α → α) : WithNan α → WithNan α → WithNan α
  | num x, num y => num (f x y)
  | _, _ => nan

/-- An operation on a number; NaN goes through. -/
def lift (f : α → α) : WithNan α → WithNan α
  | num x => num (f x)
  | nan => nan

variable [LinearOrder α]

/-- `a < b`. -/
def lt : WithNan α → WithNan α → Bool
  | num x, num y => x < y
  | _, _ => false

/-- `a <= b`. -/
def le : WithNan α → WithNan α → Bool
  | num x, num y => x ≤ y
  | _, _ => false

/-- `std::max`. -/
def stdMax (a b : WithNan α) : WithNan α := if a.lt b then b else a

theorem num_le_num {x y : α} : (num x).le (num y) = true ↔ x ≤ y :=
  decide_eq_true_iff

theorem num_lt_num {x y : α} : (num x).lt (num y) = true ↔ x < y :=
  decide_eq_true_iff

/-- Something is below a value only if that is a number. -/
theorem le_num_of_le {a b : WithNan α} (h : a.le b = true) : ∃ y, b = num y := by
  cases b with
  | num y => exact ⟨y, rfl⟩
  | nan => cases a <;> cases h

/-- NaN on the right is dropped. -/
theorem stdMax_nan (a : WithNan α) : stdMax a nan = a := by
  cases a <;> rfl

/-- Of two numbers it is the maximum. -/
theorem stdMax_num (x y : α) : stdMax (num x) (num y) = num (max x y) := by
  rw [stdMax]
  split
  · next hlt => rw [max_eq_right (num_lt_num.mp hlt).le]
  · next hge =>
      have hle : y ≤ x := not_lt.mp fun hlt => hge (num_lt_num.mpr hlt)
      rw [max_eq_left hle]

/-- **A running maximum forgets NaN.** -/
theorem foldl_stdMax (x : α) (values : List (WithNan α)) :
    values.foldl stdMax (num x) = num ((values.filterMap number?).foldl max x) := by
  induction values generalizing x with
  | nil => rfl
  | cons v values ih =>
      cases v with
      | num y =>
          rw [List.foldl_cons, stdMax_num, ih]
          rfl
      | nan =>
          rw [List.foldl_cons, stdMax_nan, ih]
          rfl

/-- It is at most a bound exactly when the start and all the numbers are. -/
theorem foldl_stdMax_le_iff {x t : α} {values : List (WithNan α)} (hstart : x ≤ t) :
    (values.foldl stdMax (num x)).le (num t) = true ↔
      ∀ v ∈ values, v = nan ∨ v.le (num t) = true := by
  have hgreatest := (foldl_max_isGreatest x (values.filterMap number?)).isLUB
  rw [foldl_stdMax, num_le_num, isLUB_le_iff hgreatest]
  constructor
  · intro hbound v hv
    cases v with
    | nan => exact Or.inl rfl
    | num y =>
        have hy : y ∈ values.filterMap number? := List.mem_filterMap.mpr ⟨num y, hv, rfl⟩
        exact Or.inr (num_le_num.mpr (hbound (Set.mem_insert_of_mem x hy)))
  · intro hall y hy
    rcases hy with rfl | hy
    · exact hstart
    · obtain ⟨v, hv, hnumber⟩ := List.mem_filterMap.mp hy
      cases v with
      | nan => cases hnumber
      | num z =>
          cases hnumber
          exact num_le_num.mp ((hall _ hv).resolve_left (fun h => nomatch h))

/-- **What a bound on a running maximum says.**  It says that all values are at most the
bound exactly when none is NaN, or when some number is above it. -/
theorem bound_exact_iff {x t : α} {values : List (WithNan α)} (hstart : x ≤ t) :
    ((values.foldl stdMax (num x)).le (num t) = true ↔ ∀ v ∈ values, v.le (num t) = true) ↔
      (∀ v ∈ values, v ≠ nan) ∨ ∃ v ∈ values, (num t).lt v = true := by
  rw [foldl_stdMax_le_iff hstart]
  constructor
  · intro hexact
    by_cases hnan : ∀ v ∈ values, v ≠ nan
    · exact Or.inl hnan
    · right
      by_contra hnone
      -- no number is above the bound, so the bound holds, and NaN has to be below it
      have hbound : ∀ v ∈ values, v = nan ∨ v.le (num t) = true := by
        intro v hv
        cases v with
        | nan => exact Or.inl rfl
        | num y =>
            refine Or.inr (num_le_num.mpr (not_lt.mp fun hlt => hnone ?_))
            exact ⟨num y, hv, num_lt_num.mpr hlt⟩
      apply hnan
      intro v hv heq
      have hle := hexact.mp hbound v hv
      rw [heq] at hle
      cases hle
  · intro hcases
    rcases hcases with hnumbers | habove
    · constructor
      · exact fun h v hv => (h v hv).resolve_left (hnumbers v hv)
      · exact fun h v hv => Or.inr (h v hv)
    · obtain ⟨v, hv, hlt⟩ := habove
      have hnot : ¬ (v = nan ∨ v.le (num t) = true) := by
        cases v with
        | nan => cases hlt
        | num y =>
            intro h
            have hle := num_le_num.mp (h.resolve_left (fun h => nomatch h))
            exact absurd (num_lt_num.mp hlt) (not_lt.mpr hle)
      exact iff_of_false (fun h => hnot (h v hv)) (fun h => hnot (Or.inr (h v hv)))

end WithNan

end NanOrder

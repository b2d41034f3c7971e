import Gpuforge.ShapeSizes

/-!
# How exact broadcasting is

Two shapes broadcast when in every axis, counted from the end and padded with 1, the
dims are equal or one of them is 1; the axis of the result is then the dim that is not
1.  `infer_broadcast` accepts exactly these shapes.  It takes the larger dim for the
result, though, which is the other one where a 0 meets a 1
(`broadcast_exact_iff`, `broadcast_widens_empty`).
-/

namespace Gpuforge.Compiler

/-- Two dims that broadcast. -/
def AxisBroadcasts (left right : Int) : Prop := left = right ∨ left = 1 ∨ right = 1

instance (left right : Int) : Decidable (AxisBroadcasts left right) :=
  inferInstanceAs (Decidable (_ ∨ _))

/-- The dim of two that broadcast: the one that is not 1. -/
def broadcastAxis (left right : Int) : Int :=
  if left = right then left else if left = 1 then right else left

/-- **Shapes that broadcast.** -/
def Broadcastable (lhs rhs : Shape) : Prop :=
  ∀ k, AxisBroadcasts (axisFromEnd lhs.dims k) (axisFromEnd rhs.dims k)

/-- An empty dim against a dim of 1. -/
def EmptyAgainstOne (left right : Int) : Prop :=
  left = 0 ∧ right = 1 ∨ left = 1 ∧ right = 0

instance (left right : Int) : Decidable (EmptyAgainstOne left right) :=
  inferInstanceAs (Decidable (_ ∨ _))

/-- **The rule of broadcasting.**  It gives a shape if and only if the shapes broadcast,
and then the larger rank and the dims of the axes. -/
structure BroadcastExact (lhs rhs : Shape) : Prop where
  accepts : (∃ shape, inferBroadcast lhs rhs = .ok shape) ↔ Broadcastable lhs rhs
  result : ∀ shape, inferBroadcast lhs rhs = .ok shape →
    shape.dims.length = max lhs.dims.length rhs.dims.length ∧
      ∀ k, axisFromEnd shape.dims k
        = broadcastAxis (axisFromEnd lhs.dims k) (axisFromEnd rhs.dims k)

variable {lhs rhs shape : Shape}

/-- The loop of `infer_broadcast` ends with dims if and only if its axes broadcast. -/
theorem broadcastFrom_ok_iff (lhs rhs : List Int) {count reverse : Nat} {done : List Int} :
    (∃ dims, broadcastFrom lhs rhs count reverse done = .ok dims) ↔
      ∀ k, reverse ≤ k → k < reverse + count →
        AxisBroadcasts (axisFromEnd lhs k) (axisFromEnd rhs k) := by
  induction count generalizing reverse done with
  | zero =>
      constructor
      · intro _ k hlo hhi
        omega
      · intro _
        exact ⟨done, rfl⟩
  | succ count ih =>
      rw [broadcastFrom]
      by_cases haxis : AxisBroadcasts (axisFromEnd lhs reverse) (axisFromEnd rhs reverse)
      · have hpass : ¬ (axisFromEnd lhs reverse ≠ axisFromEnd rhs reverse ∧
            axisFromEnd lhs reverse ≠ 1 ∧ axisFromEnd rhs reverse ≠ 1) := by
          unfold AxisBroadcasts at haxis
          omega
        rw [if_neg hpass, ih]
        constructor
        · intro hrest k hlo hhi
          rcases Nat.lt_or_eq_of_le hlo with hlt | rfl
          · exact hrest k hlt (by omega)
          · exact haxis
        · intro hall k hlo hhi
          exact hall k (by omega) (by omega)
      · have hstop : axisFromEnd lhs reverse ≠ axisFromEnd rhs reverse ∧
            axisFromEnd lhs reverse ≠ 1 ∧ axisFromEnd rhs reverse ≠ 1 := by
          unfold AxisBroadcasts at haxis
          omega
        rw [if_pos hstop]
        constructor
        · intro hdims
          obtain ⟨dims, hdims⟩ := hdims
          cases hdims
        · intro hall
          exact absurd (hall reverse (Nat.le_refl _) (by omega)) haxis

/-- No axis of a shape without negative dims is negative. -/
theorem axisFromEnd_nonneg {dims : List Int} (hdims : ∀ d ∈ dims, 0 ≤ d) (k : Nat) :
    0 ≤ axisFromEnd dims k := by
  rw [axisFromEnd_eq]
  cases hd : dims.reverse[k]? with
  | none => decide
  | some d => exact hdims d (List.mem_reverse.mp (List.mem_of_getElem? hd))

/-- **`infer_broadcast` accepts the shapes that broadcast.** -/
theorem inferBroadcast_ok_iff (hlhs : ∀ d ∈ lhs.dims, 0 ≤ d) (hrhs : ∀ d ∈ rhs.dims, 0 ≤ d) :
    (∃ shape, inferBroadcast lhs rhs = .ok shape) ↔ Broadcastable lhs rhs := by
  have hvalid : ¬ (¬ validDims lhs.dims ∨ ¬ validDims rhs.dims) := by
    simpa [validDims] using ⟨hlhs, hrhs⟩
  have hiff : (∃ shape, inferBroadcast lhs rhs = .ok shape) ↔ ∃ dims, broadcastFrom lhs.dims
      rhs.dims (max lhs.dims.length rhs.dims.length) 0 [] = .ok dims := by
    rw [inferBroadcast, if_neg hvalid]
    cases broadcastFrom lhs.dims rhs.dims (max lhs.dims.length rhs.dims.length) 0 [] with
    | error e => simp
    | ok dims => simp
  rw [hiff, broadcastFrom_ok_iff]
  constructor
  · intro hall k
    by_cases hk : k < max lhs.dims.length rhs.dims.length
    · exact hall k (Nat.zero_le k) (by omega)
    · rw [axisFromEnd, if_neg (by omega), axisFromEnd, if_neg (by omega)]
      exact Or.inl rfl
  · intro hall k _ _
    exact hall k

/-- Of two dims that broadcast the larger one is not 1, unless the other is 0. -/
theorem max_eq_broadcastAxis_iff {left right : Int} (hleft : 0 ≤ left) (hright : 0 ≤ right)
    (h : AxisBroadcasts left right) :
    max left right = broadcastAxis left right ↔ ¬ EmptyAgainstOne left right := by
  unfold AxisBroadcasts at h
  unfold broadcastAxis EmptyAgainstOne
  split <;> omega

/-- **When broadcasting is exact.**  For all shapes without negative dims, of any ranks:
shapes that do not broadcast are rejected, and those that do have the right result if and
only if no axis has an empty dim against a dim of 1. -/
theorem broadcast_exact_iff (hlhs : ∀ d ∈ lhs.dims, 0 ≤ d) (hrhs : ∀ d ∈ rhs.dims, 0 ≤ d) :
    BroadcastExact lhs rhs ↔ (Broadcastable lhs rhs →
      ∀ k, ¬ EmptyAgainstOne (axisFromEnd lhs.dims k) (axisFromEnd rhs.dims k)) := by
  have haccepts := inferBroadcast_ok_iff hlhs hrhs
  have hmax : ∀ k, Broadcastable lhs rhs → (max (axisFromEnd lhs.dims k) (axisFromEnd rhs.dims k)
      = broadcastAxis (axisFromEnd lhs.dims k) (axisFromEnd rhs.dims k) ↔
        ¬ EmptyAgainstOne (axisFromEnd lhs.dims k) (axisFromEnd rhs.dims k)) := by
    intro k hbroadcast
    exact max_eq_broadcastAxis_iff (axisFromEnd_nonneg hlhs k) (axisFromEnd_nonneg hrhs k)
      (hbroadcast k)
  constructor
  · intro hexact hbroadcast k
    obtain ⟨shape, hshape⟩ := haccepts.mpr hbroadcast
    have hdim := (hexact.result shape hshape).2 k
    rw [(inferBroadcast_axes hshape).2 k] at hdim
    exact (hmax k hbroadcast).mp hdim
  · intro hcond
    refine ⟨haccepts, ?_⟩
    intro shape hshape
    have hbroadcast := haccepts.mp ⟨shape, hshape⟩
    obtain ⟨hrank, haxes⟩ := inferBroadcast_axes hshape
    refine ⟨hrank, ?_⟩
    intro k
    rw [haxes k]
    exact (hmax k hbroadcast).mpr (hcond hbroadcast k)

/-- An empty axis against an empty one, with ranks 3 and 2. -/
theorem broadcast_exact_iff_example : BroadcastExact { dims := [4, 1, 0] } { dims := [3, 0] } := by
  apply (broadcast_exact_iff (by decide) (by decide)).mpr
  intro _ k
  rw [axisFromEnd_eq, axisFromEnd_eq]
  match k with
  | 0 => decide
  | 1 => decide
  | 2 => decide
  | k + 3 => simp [EmptyAgainstOne]

/-- **A broadcast that invents an element.**  An empty axis against a dim of 1 gives a dim
of 1. -/
theorem broadcast_widens_empty : inferBroadcast { dims := [0] } { dims := [1] }
      = .ok { dims := [1] } ∧ ¬ BroadcastExact { dims := [0] } { dims := [1] } := by
  refine ⟨by decide, ?_⟩
  intro hexact
  have hdim := (hexact.result { dims := [1] } (by decide)).2 0
  revert hdim
  decide

end Gpuforge.Compiler

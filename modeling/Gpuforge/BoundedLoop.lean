/-!
# Loops with a turn budget

A `while` loop is given by what one turn of it does: either the loop goes
round again from a new state, or it is left with a result.  `run` executes at
most as many turns as its budget allows and returns `none` when the budget is
used up, so it is an ordinary structural recursion that evaluates.

The two rules below are the ones a loop proof needs:

* `run_post` — partial correctness: an invariant kept by every turn and
  strong enough at every exit holds of the result;
* `run_total` — total correctness: a measure that every turn decreases where
  the invariant holds bounds the number of turns, so a budget above the measure
  is never used up.
-/

namespace BoundedLoop

universe u v

/-- What one turn of a loop does. -/
inductive Turn (σ : Type u) (ρ : Type v) where
  /-- Go round again from this state. -/
  | again (state : σ)
  /-- Leave the loop with this result. -/
  | leave (result : ρ)

/-- Execute at most `fuel` turns; `none` when they did not suffice. -/
def run {σ : Type u} {ρ : Type v} (body : σ → Turn σ ρ) : Nat → σ → Option ρ
  | 0, _ => none
  | fuel+1, state =>
      match body state with
      | .again next => run body fuel next
      | .leave result => some result

variable {σ : Type u} {ρ : Type v} {body : σ → Turn σ ρ}

/-- A loop whose first turn goes round again continues from the new state. -/
theorem run_again {fuel : Nat} {state next : σ} (h : body state = .again next) :
    run body (fuel+1) state = run body fuel next := by
  simp [run, h]

/-- A loop whose first turn leaves has that turn's result. -/
theorem run_leave {fuel : Nat} {state : σ} {result : ρ}
    (h : body state = .leave result) :
    run body (fuel+1) state = some result := by
  simp [run, h]

/-- **Invariant rule.**  What every turn preserves and every exit turns into
`post` holds of the result, whatever the budget. -/
theorem run_post (inv : σ → Prop) (post : ρ → Prop)
    (hagain : ∀ s s', inv s → body s = .again s' → inv s')
    (hleave : ∀ s r, inv s → body s = .leave r → post r)
    {fuel : Nat} {start : σ} {result : ρ}
    (hrun : run body fuel start = some result) (hstart : inv start) :
    post result := by
  induction fuel generalizing start with
  | zero => simp [run] at hrun
  | succ fuel ih =>
      cases hturn : body start with
      | again next =>
          rw [run_again hturn] at hrun
          exact ih hrun (hagain _ _ hstart hturn)
      | leave r =>
          rw [run_leave hturn] at hrun
          cases hrun
          exact hleave _ _ hstart hturn

/-- **Total-correctness rule.**  If the measure decreases on every turn taken
from a state of the invariant, a budget above the measure suffices, and the
result satisfies the postcondition. -/
theorem run_total (inv : σ → Prop) (post : ρ → Prop) (measure : σ → Nat)
    (hagain : ∀ s s', inv s → body s = .again s' →
      inv s' ∧ measure s' < measure s)
    (hleave : ∀ s r, inv s → body s = .leave r → post r)
    (fuel : Nat) (start : σ) (hfuel : measure start < fuel) (hstart : inv start) :
    ∃ result, run body fuel start = some result ∧ post result := by
  induction fuel generalizing start with
  | zero => omega
  | succ fuel ih =>
      cases hturn : body start with
      | again next =>
          obtain ⟨hnext, hless⟩ := hagain _ _ hstart hturn
          obtain ⟨result, hrun, hpost⟩ := ih next (by omega) hnext
          exact ⟨result, by rw [run_again hturn]; exact hrun, hpost⟩
      | leave r => exact ⟨r, run_leave hturn, hleave _ _ hstart hturn⟩

end BoundedLoop

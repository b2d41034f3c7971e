import Mathlib.Logic.Relation
import Mathlib.Order.Lattice.Nat

/-!
# Leaders of forward chains

A relation on numbers that gives each number at most one successor, a larger
one, arranges the numbers in trees that point forward.  The leader of a number
is the least number from which the chain of successors runs through it.

A scan that starts a chain at the least number not yet covered and follows
successors until it meets a covered number covers, with the chain from `r`,
exactly the numbers led by `r`; the facts here are what that argument needs.
-/

namespace ForwardChains

open Relation

variable {next : Nat → Nat → Prop} {u v w : Nat}

/-- Each number has at most one successor, a larger one. -/
structure Forward (next : Nat → Nat → Prop) : Prop where
  functional : ∀ {u v w}, next u v → next u w → v = w
  larger : ∀ {u v}, next u v → u < v

/-- The least number whose chain runs through `v`. -/
noncomputable def leader (next : Nat → Nat → Prop) (v : Nat) : Nat :=
  sInf {u | ReflTransGen next u v}

/-- The chain of the leader runs through `v`. -/
theorem leader_reaches (next : Nat → Nat → Prop) (v : Nat) :
    ReflTransGen next (leader next v) v :=
  Nat.sInf_mem (s := {u | ReflTransGen next u v}) ⟨v, .refl⟩

/-- No chain from below the leader runs through `v`. -/
theorem leader_le (h : ReflTransGen next u v) : leader next v ≤ u := Nat.sInf_le h

/-- Leaders can only get smaller along a chain. -/
theorem leader_le_leader (h : ReflTransGen next u v) : leader next v ≤ leader next u :=
  leader_le ((leader_reaches next u).trans h)

/-- A leader leads itself. -/
theorem leader_leader (next : Nat → Nat → Prop) (v : Nat) :
    leader next (leader next v) = leader next v :=
  Nat.le_antisymm (leader_le .refl) (leader_le_leader (leader_reaches next v))

/-- A chain goes upward. -/
theorem Forward.le (hf : Forward next) (h : ReflTransGen next u v) : u ≤ v := by
  induction h with
  | refl => exact Nat.le_refl _
  | tail _ hstep ih => exact Nat.le_trans ih (Nat.le_of_lt (hf.larger hstep))

/-- Two numbers on one chain: one comes after the other. -/
theorem Forward.comparable (hf : Forward next) (hv : ReflTransGen next u v)
    (hw : ReflTransGen next u w) : ReflTransGen next v w ∨ ReflTransGen next w v :=
  ReflTransGen.total_of_right_unique (fun _ _ _ h h' => hf.functional h h') hv hw

/-- A number other than its leader is the successor of a number with the same
leader. -/
theorem leader_step (h : leader next v ≠ v) :
    ∃ u, next u v ∧ leader next u = leader next v := by
  rcases ReflTransGen.cases_tail (leader_reaches next v) with heq | ⟨u, hu, hstep⟩
  · exact absurd heq.symm h
  · exact ⟨u, hstep, Nat.le_antisymm (leader_le hu) (leader_le_leader (.single hstep))⟩

/-- Two arguments of `v`, one of which has `v` as successor, and neither after
`v`, have different leaders. -/
theorem Forward.leader_ne (hf : Forward next) {a b : Nat} (ha : next a v) (hne : a ≠ b)
    (hb : b < v) (hother : ∀ x, next b x → x = v) : leader next a ≠ leader next b := by
  intro hsame
  have hra := leader_reaches next a
  have hrb := leader_reaches next b
  rw [← hsame] at hrb
  rcases hf.comparable hra hrb with hab | hba
  · rcases ReflTransGen.cases_head hab with heq | ⟨x, hx, hxb⟩
    · exact hne heq
    · have hle := hf.le hxb
      rw [hf.functional hx ha] at hle
      omega
  · rcases ReflTransGen.cases_head hba with heq | ⟨x, hx, hxa⟩
    · exact hne heq.symm
    · have hle := hf.le hxa
      rw [hother x hx] at hle
      have hlt := hf.larger ha
      omega

end ForwardChains

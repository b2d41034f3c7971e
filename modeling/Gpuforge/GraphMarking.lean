import Mathlib.Data.List.Basic
import Gpuforge.BoundedLoop

/-!
# Marking the reachable nodes of a graph

A graph lists for each node the ids its edges lead to; ids are integers and may
name no node.  The marking loop works on a stack: it takes an id off, skips it
when it names no node or a marked one, and otherwise marks it and puts the ids
of its edges on.

The loop terminates because a turn either shortens the stack or moves the edges
of a node from the unmarked part of the graph to the stack; when it ends, the
marked nodes are the reachable ones (`mark_exact`).
-/

namespace GraphMarking

open BoundedLoop

variable {edges : List (List Int)} {roots : List Int}

/-- The nodes that edges lead to from the roots. -/
inductive Reaches (edges : List (List Int)) (roots : List Int) : Nat → Prop
  | root {v : Nat} (hroot : (v : Int) ∈ roots) (hv : v < edges.length) :
      Reaches edges roots v
  | edge {u v : Nat} {out : List Int} (hu : Reaches edges roots u)
      (hout : edges[u]? = some out) (hedge : (v : Int) ∈ out) (hv : v < edges.length) :
      Reaches edges roots v

/-- One turn; the top of the stack is the head of the list. -/
def turn (edges : List (List Int)) :
    List Int × List Bool → Turn (List Int × List Bool) (List Bool)
  | ([], marked) => .leave marked
  | (id :: rest, marked) =>
      if id < 0 ∨ edges.length ≤ id.toNat ∨ marked.getD id.toNat false = true then
        .again (rest, marked)
      else .again ((edges.getD id.toNat []).reverse ++ rest, marked.set id.toNat true)

/-- The loop from a stack of roots with nothing marked. -/
def mark (edges : List (List Int)) (roots : List Int) : Option (List Bool) :=
  run (turn edges) (roots.length + edges.flatten.length + 1)
    (roots.reverse, List.replicate edges.length false)

/-- Every reached node is a node. -/
theorem Reaches.lt {v : Nat} (h : Reaches edges roots v) : v < edges.length := by
  cases h with
  | root _ hv => exact hv
  | edge _ _ _ hv => exact hv

/-- What a turn does with the top of the stack: skip it, because it is no node
or already marked, or mark it and follow its edges. -/
theorem turn_cases (id : Int) (rest : List Int) {marked : List Bool}
    (hsize : marked.length = edges.length) :
    ((∀ v : Nat, id = v → v < edges.length → marked[v]? = some true) ∧
      turn edges (id :: rest, marked) = .again (rest, marked)) ∨
    ∃ (v : Nat) (out : List Int), id = v ∧ edges[v]? = some out ∧ marked[v]? = some false ∧
      turn edges (id :: rest, marked) = .again (out.reverse ++ rest, marked.set v true) := by
  by_cases hskip : id < 0 ∨ edges.length ≤ id.toNat ∨ marked.getD id.toNat false = true
  · refine Or.inl ⟨?_, by rw [turn, if_pos hskip]⟩
    rintro v rfl hv
    have hv' : v < marked.length := by omega
    have htrue : marked.getD v false = true := by
      rcases hskip with hneg | hout | hmarked
      · omega
      · omega
      · exact hmarked
    rw [List.getD_eq_getElem?_getD, List.getElem?_eq_getElem hv', Option.getD_some] at htrue
    rw [List.getElem?_eq_getElem hv', htrue]
  · simp only [not_or] at hskip
    obtain ⟨hnonneg, hlt, hunmarked⟩ := hskip
    have hv : id.toNat < edges.length := by omega
    have hv' : id.toNat < marked.length := by omega
    rw [List.getD_eq_getElem?_getD, List.getElem?_eq_getElem hv', Option.getD_some] at hunmarked
    refine Or.inr ⟨id.toNat, edges[id.toNat], by omega, List.getElem?_eq_getElem hv, ?_, ?_⟩
    · rw [List.getElem?_eq_getElem hv']
      simpa using hunmarked
    · have hcond : ¬ (id < 0 ∨ edges.length ≤ id.toNat ∨
          marked.getD id.toNat false = true) := by
        rw [List.getD_eq_getElem?_getD, List.getElem?_eq_getElem hv', Option.getD_some]
        simp only [not_or]
        exact ⟨hnonneg, hlt, hunmarked⟩
      rw [turn, if_neg hcond, List.getD_eq_getElem?_getD, List.getElem?_eq_getElem hv,
        Option.getD_some]

/-! ## Termination -/

/-- The edges of the unmarked nodes. -/
def pending : List (List Int) → List Bool → Nat
  | [], _ => 0
  | out :: edges, [] => out.length + pending edges []
  | out :: edges, marked :: rest => (if marked then 0 else out.length) + pending edges rest

/-- Marking a node takes its edges out of the pending ones. -/
theorem pending_set : ∀ (edges : List (List Int)) (marked : List Bool) {v : Nat}
    {out : List Int}, edges[v]? = some out → marked[v]? = some false →
    pending edges (marked.set v true) + out.length = pending edges marked := by
  intro edges
  induction edges with
  | nil => intro marked v out hout; simp at hout
  | cons first edges ih =>
      intro marked v out hout hmarked
      cases marked with
      | nil => simp at hmarked
      | cons m rest =>
          cases v with
          | zero =>
              simp only [List.getElem?_cons_zero, Option.some.injEq] at hout hmarked
              subst hout hmarked
              simp only [List.set_cons_zero, pending]
              simp
              omega
          | succ v =>
              simp only [List.getElem?_cons_succ] at hout hmarked
              have hrest := ih rest hout hmarked
              simp only [List.set_cons_succ, pending]
              omega

/-- With nothing marked all edges are pending. -/
theorem pending_unmarked (edges : List (List Int)) :
    pending edges (List.replicate edges.length false) = edges.flatten.length := by
  induction edges with
  | nil => rfl
  | cons out edges ih => simp [List.replicate_succ, pending, ih]

/-! ## The invariant -/

/-- What holds between turns: marks and stack are reachable, and whatever the
roots and the marked nodes lead to is marked or on the stack. -/
structure Marking (edges : List (List Int)) (roots : List Int)
    (st : List Int × List Bool) : Prop where
  size : st.2.length = edges.length
  sound : ∀ v : Nat, st.2[v]? = some true → Reaches edges roots v
  stack : ∀ v : Nat, (v : Int) ∈ st.1 → v < edges.length → Reaches edges roots v
  rooted : ∀ v : Nat, (v : Int) ∈ roots → v < edges.length →
    st.2[v]? = some true ∨ (v : Int) ∈ st.1
  closed : ∀ (u : Nat) (out : List Int), st.2[u]? = some true → edges[u]? = some out →
    ∀ v : Nat, (v : Int) ∈ out → v < edges.length → st.2[v]? = some true ∨ (v : Int) ∈ st.1

/-- The invariant holds at the start. -/
theorem marking_start (edges : List (List Int)) (roots : List Int) :
    Marking edges roots (roots.reverse, List.replicate edges.length false) := by
  have hnone : ∀ v : Nat, (List.replicate edges.length false)[v]? ≠ some true := by
    intro v h
    exact absurd (List.eq_of_mem_replicate (List.mem_of_getElem? h)) (by decide)
  refine ⟨by simp, fun v h => absurd h (hnone v), ?_, ?_, fun u out h => absurd h (hnone u)⟩
  · exact fun v hv hlt => .root (List.mem_reverse.mp hv) hlt
  · exact fun v hv _ => Or.inr (List.mem_reverse.mpr hv)

/-- A skipped id leaves the invariant. -/
theorem Marking.skip {id : Int} {rest : List Int} {marked : List Bool}
    (h : Marking edges roots (id :: rest, marked))
    (hskip : ∀ v : Nat, id = v → v < edges.length → marked[v]? = some true) :
    Marking edges roots (rest, marked) := by
  have hpop : ∀ v : Nat, v < edges.length →
      (marked[v]? = some true ∨ (v : Int) ∈ id :: rest) →
      marked[v]? = some true ∨ (v : Int) ∈ rest := by
    rintro v hv (hmarked | hmem)
    · exact Or.inl hmarked
    · rcases List.mem_cons.mp hmem with htop | hrest
      · exact Or.inl (hskip v htop.symm hv)
      · exact Or.inr hrest
  exact ⟨h.size, h.sound, fun v hv hlt => h.stack v (List.mem_cons_of_mem _ hv) hlt,
    fun v hv hlt => hpop v hlt (h.rooted v hv hlt),
    fun u out hu hout v hv hlt => hpop v hlt (h.closed u out hu hout v hv hlt)⟩

/-- Marking a node and following its edges leaves the invariant. -/
theorem Marking.mark {v : Nat} {rest out : List Int} {marked : List Bool}
    (h : Marking edges roots ((v : Int) :: rest, marked)) (hout : edges[v]? = some out) :
    Marking edges roots (out.reverse ++ rest, marked.set v true) := by
  have hv : v < edges.length := (List.getElem?_eq_some_iff.mp hout).1
  have hreach : Reaches edges roots v := h.stack v List.mem_cons_self hv
  have hv' : v < marked.length := by
    rw [show marked.length = edges.length from h.size]
    exact hv
  have hself : (marked.set v true)[v]? = some true := by simp [hv']
  have hother : ∀ u : Nat, u ≠ v → (marked.set v true)[u]? = marked[u]? :=
    fun u hu => List.getElem?_set_ne (Ne.symm hu)
  have hkeep : ∀ u : Nat, (marked[u]? = some true ∨ (u : Int) ∈ (v : Int) :: rest) →
      (marked.set v true)[u]? = some true ∨ (u : Int) ∈ out.reverse ++ rest := by
    intro u hu
    by_cases huv : u = v
    · exact Or.inl (huv ▸ hself)
    · rcases hu with hmarked | hmem
      · exact Or.inl ((hother u huv).trans hmarked)
      · rcases List.mem_cons.mp hmem with htop | hrest
        · exact absurd (Int.ofNat_inj.mp htop) huv
        · exact Or.inr (List.mem_append_right _ hrest)
  refine ⟨by simpa using h.size, ?_, ?_, ?_, ?_⟩
  · intro u hu
    by_cases huv : u = v
    · exact huv ▸ hreach
    · exact h.sound u ((hother u huv).symm.trans hu)
  · intro u hu hlt
    rcases List.mem_append.mp hu with hnew | hrest
    · exact .edge hreach hout (List.mem_reverse.mp hnew) hlt
    · exact h.stack u (List.mem_cons_of_mem _ hrest) hlt
  · exact fun u hu hlt => hkeep u (h.rooted u hu hlt)
  · intro u out' hu hout' w hw hlt
    by_cases huv : u = v
    · subst huv
      rw [hout, Option.some.injEq] at hout'
      exact Or.inr (List.mem_append_left _ (List.mem_reverse.mpr (hout' ▸ hw)))
    · exact hkeep w (h.closed u out' ((hother u huv).symm.trans hu) hout' w hw hlt)

/-- **The marking loop.**  It terminates, and exactly the reachable nodes are
marked. -/
theorem mark_exact (edges : List (List Int)) (roots : List Int) :
    ∃ marked, mark edges roots = some marked ∧ marked.length = edges.length ∧
      ∀ v : Nat, marked[v]? = some true ↔ Reaches edges roots v := by
  have hagain : ∀ st st', Marking edges roots st → turn edges st = .again st' →
      Marking edges roots st' ∧
      st'.1.length + pending edges st'.2 < st.1.length + pending edges st.2 := by
    intro st st' hst hturn
    obtain ⟨stack, marked⟩ := st
    cases stack with
    | nil => cases hturn
    | cons id rest =>
        rcases turn_cases id rest hst.size with ⟨hskip, hres⟩ | ⟨v, out, rfl, hout, hfalse, hres⟩
        · rw [hres] at hturn
          cases hturn
          refine ⟨hst.skip hskip, ?_⟩
          simp only [List.length_cons]
          omega
        · rw [hres] at hturn
          cases hturn
          refine ⟨hst.mark hout, ?_⟩
          have hless := pending_set edges marked hout hfalse
          simp only [List.length_append, List.length_reverse, List.length_cons]
          omega
  have hleave : ∀ st marked, Marking edges roots st → turn edges st = .leave marked →
      marked.length = edges.length ∧ ∀ v : Nat, marked[v]? = some true ↔ Reaches edges roots v := by
    intro st result hst hturn
    obtain ⟨stack, marked⟩ := st
    cases stack with
    | cons id rest =>
        rcases turn_cases id rest hst.size with ⟨_, hres⟩ | ⟨_, _, _, _, _, hres⟩ <;>
          rw [hres] at hturn <;> cases hturn
    | nil =>
        cases hturn
        refine ⟨hst.size, fun v => ⟨hst.sound v, fun hreach => ?_⟩⟩
        induction hreach with
        | root hroot hv => exact (hst.rooted _ hroot hv).resolve_right (by simp)
        | edge _ hout hedge hv ih =>
            exact (hst.closed _ _ ih hout _ hedge hv).resolve_right (by simp)
  refine run_total _ _ (fun st => st.1.length + pending edges st.2) hagain hleave _ _ ?_
    (marking_start edges roots)
  rw [pending_unmarked, List.length_reverse]
  exact Nat.lt_succ_self _

end GraphMarking

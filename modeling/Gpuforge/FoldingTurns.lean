import Gpuforge.ConstantFolding

/-!
# Folding in any module (`PassManager::constant_fold`)

On a module that was not validated the pass may throw: a node that it looks at names
an input that is not there.  The nodes before that one had their turns, and the others
are left as they were (`constantFold_at`).  Constants are never changed, so a node with
constant operands finds them at its turn as they were in the beginning.
-/

namespace Gpuforge.Compiler

variable {α : Type} {s : Scalar α} {m m' : Module α} {node : Node α}

/-- The turn of a node throws: the pass looks up an input that is not there. -/
def TurnThrows (m : Module α) (node : Node α) : Prop :=
  (IsBinary node.op ∧ node.inputs.length = 2 ∨ IsUnary node.op ∧ node.inputs.length = 1) ∧
    ∃ id ∈ node.inputs, m.node id = none

/-- No turn before a position throws. -/
def TurnReached (m : Module α) (v : Nat) : Prop :=
  ∀ u < v, ∀ node, m.nodes[u]? = some node → ¬ TurnThrows m node

/-! ## One turn -/

theorem foldedBinary_throws_iff {f : α → α → α} :
    (∃ e, foldedBinary f m node = .error e) ↔
      node.inputs.length = 2 ∧ ∃ id ∈ node.inputs, m.node id = none := by
  unfold foldedBinary
  split
  · next first second hinputs =>
      cases hlhs : m.node first with
      | none => simp [hinputs, hlhs]
      | some lhs =>
          cases hrhs : m.node second with
          | none => simp [hinputs, hrhs]
          | some rhs =>
              simp only [hinputs, List.mem_pair]
              split <;> simp [hlhs, hrhs]
  · next hother =>
      constructor
      · intro h
        obtain ⟨e, he⟩ := h
        cases he
      · intro h
        obtain ⟨first, second, hinputs⟩ := List.length_eq_two.mp h.1
        exact absurd hinputs (hother first second)

theorem foldedUnary_throws_iff {f : α → α} :
    (∃ e, foldedUnary f m node = .error e) ↔
      node.inputs.length = 1 ∧ ∃ id ∈ node.inputs, m.node id = none := by
  unfold foldedUnary
  split
  · next id hinputs =>
      cases hinput : m.node id with
      | none => simp [hinputs, hinput]
      | some input =>
          simp only [hinputs, List.mem_singleton]
          split <;> simp [hinput]
  · next hother =>
      constructor
      · intro h
        obtain ⟨e, he⟩ := h
        cases he
      · intro h
        obtain ⟨id, hinputs⟩ := List.length_eq_one_iff.mp h.1
        exact absurd hinputs (hother id)

/-- Turns throw as described. -/
theorem foldedData_throws_iff :
    (∃ e, foldedData s m node = .error e) ↔ TurnThrows m node := by
  unfold foldedData TurnThrows
  by_cases hbinary : IsBinary node.op
  · have hunary : ¬ IsUnary node.op := fun h => h.not_binary hbinary
    rw [if_pos hbinary, foldedBinary_throws_iff]
    simp only [hbinary, hunary, true_and, false_and, or_false]
  · rw [if_neg hbinary]
    by_cases hunary : IsUnary node.op
    · rw [if_pos hunary, foldedUnary_throws_iff]
      simp only [hbinary, hunary, true_and, false_and, false_or]
    · rw [if_neg hunary]
      simp only [hbinary, hunary, false_and, or_false, reduceCtorEq, exists_false]

/-- Constants are passed over. -/
theorem foldedData_constant (hop : node.op = .constant) : foldedData s m node = .ok none := by
  simp [foldedData, IsBinary, IsUnary, hop]

/-! ## Nodes that had their turns -/

/-- Nodes after turns that changed no constant. -/
structure Turned (before done : List (Node α)) : Prop where
  size : done.length = before.length
  turns : ∀ (i : Nat) (node : Node α), before[i]? = some node → ∃ folded,
    done[i]? = some (node.after folded) ∧ (node.op = .constant → folded = none)

variable {before done : List (Node α)}

/-- Nodes that did not have their turns are as before. -/
theorem Turned.append (h : Turned before done) (later : List (Node α)) :
    Turned (before ++ later) (done ++ later) := by
  refine ⟨by rw [List.length_append, List.length_append, h.size], ?_⟩
  intro i node hnode
  by_cases hi : i < before.length
  · rw [List.getElem?_append_left hi] at hnode
    obtain ⟨folded, hdone, hconstant⟩ := h.turns i node hnode
    exact ⟨folded, by rw [List.getElem?_append_left (h.size ▸ hi)]; exact hdone, hconstant⟩
  · rw [List.getElem?_append_right (by omega)] at hnode
    refine ⟨none, ?_, fun _ => rfl⟩
    rw [List.getElem?_append_right (by have := h.size; omega), h.size, hnode]
    rfl

/-- One more turn. -/
theorem Turned.concat (h : Turned before done) {folded : Option (List α)}
    (hconstant : node.op = .constant → folded = none) :
    Turned (before ++ [node]) (done ++ [node.after folded]) := by
  refine ⟨by rw [List.length_append, List.length_append, h.size]; rfl, ?_⟩
  intro i other hother
  by_cases hi : i < before.length
  · rw [List.getElem?_append_left hi] at hother
    obtain ⟨folded', hdone, hconstant'⟩ := h.turns i other hother
    exact ⟨folded', by rw [List.getElem?_append_left (h.size ▸ hi)]; exact hdone, hconstant'⟩
  · have hlt := (List.getElem?_eq_some_iff.mp hother).1
    rw [List.length_append, List.length_singleton] at hlt
    obtain rfl : i = before.length := by omega
    rw [List.getElem?_concat_length, Option.some.injEq] at hother
    subst hother
    exact ⟨folded, by rw [← h.size, List.getElem?_concat_length], hconstant⟩

/-- The same ids are found. -/
theorem Turned.node_none_iff (h : Turned m.nodes m'.nodes) (id : Int) :
    m'.node id = none ↔ m.node id = none := by
  unfold Module.node intAt
  split
  · rw [List.getElem?_eq_none_iff, List.getElem?_eq_none_iff, h.size]
  · rfl

/-- A turn throws or not, whatever turns came before. -/
theorem Turned.throws_iff (h : Turned m.nodes m'.nodes) (node : Node α) :
    TurnThrows m' node ↔ TurnThrows m node := by
  unfold TurnThrows
  simp only [h.node_none_iff]

/-- A constant is found as it was. -/
theorem Turned.node_constant (h : Turned m.nodes m'.nodes) {id : Int}
    (hnode : m.node id = some node) (hop : node.op = .constant) : m'.node id = some node := by
  obtain ⟨i, rfl, hi⟩ := intAt_eq_some hnode
  obtain ⟨folded, hdone, hconstant⟩ := h.turns i node hi
  rw [hconstant hop] at hdone
  rw [Module.node, intAt_natCast]
  exact hdone

/-! ## The loop -/

/-- Nodes that had their turns stay. -/
theorem foldRest_done (outputs : List Int) (rest done : List (Node α)) {u : Nat}
    (hu : u < done.length) : (foldRest s outputs done rest).2.nodes[u]? = done[u]? := by
  induction rest generalizing done with
  | nil => rfl
  | cons node rest ih =>
      rw [foldRest]
      split
      · exact List.getElem?_append_left hu
      · rw [ih _ (by rw [List.length_append]; omega), List.getElem?_append_left hu]

/-- The loop at a node whose operands are constants. -/
theorem foldRest_at {v : Nat} {data : Option (List α)} (hnode : m.nodes[v]? = some node)
    (hconstants : ∀ id ∈ node.inputs, ∃ operand, m.node id = some operand ∧
      operand.op = .constant)
    (hdata : foldedData s m node = .ok data) : ∀ rest before done : List (Node α),
    m.nodes = before ++ rest → Turned before done → before.length ≤ v →
      TurnReached m before.length →
      (TurnReached m v →
        (foldRest s m.outputs done rest).2.nodes[v]? = some (node.after data)) ∧
      (¬ TurnReached m v → (foldRest s m.outputs done rest).2.nodes[v]? = some node) := by
  intro rest
  induction rest with
  | nil =>
      intro before done hsplit _ hle _
      have hlt := (List.getElem?_eq_some_iff.mp hnode).1
      rw [hsplit, List.append_nil] at hlt
      omega
  | cons current rest ih =>
      intro before done hsplit hturned hle hreached
      have hcurrent : m.nodes[before.length]? = some current := by simp [hsplit]
      -- the module at the turn of the current node
      let now : Module α := ⟨done ++ current :: rest, m.outputs⟩
      have hnow : Turned m.nodes now.nodes := hsplit ▸ hturned.append (current :: rest)
      have hdone := hturned.size
      rcases Nat.eq_or_lt_of_le hle with heq | hlt
      · subst heq
        rw [hnode, Option.some.injEq] at hcurrent
        subst hcurrent
        have hturn : foldedData s now node = .ok data := by
          rw [← hdata]
          apply foldedData_congr
          intro id hid
          obtain ⟨operand, hoperand, hop⟩ := hconstants id hid
          rw [hoperand, hnow.node_constant hoperand hop]
        refine ⟨fun _ => ?_, fun hnot => absurd hreached hnot⟩
        rw [foldRest, hturn]
        simp only
        rw [foldRest_done _ _ _ (by simp [hdone]), ← hdone, List.getElem?_concat_length]
      · cases hturn : foldedData s now current with
        | error e =>
            have hthrows : TurnThrows m current :=
              (hnow.throws_iff current).mp (foldedData_throws_iff.mp ⟨e, hturn⟩)
            refine ⟨fun hall => absurd hthrows (hall _ hlt current hcurrent), fun _ => ?_⟩
            rw [foldRest, hturn]
            rw [hsplit, List.getElem?_append_right (by omega)] at hnode
            show (done ++ current :: rest)[v]? = some node
            rw [List.getElem?_append_right (by omega), hdone, hnode]
        | ok folded =>
            have hquiet : ¬ TurnThrows m current := by
              intro hthrows
              obtain ⟨e, he⟩ := foldedData_throws_iff.mpr ((hnow.throws_iff current).mpr hthrows)
              rw [hturn] at he
              cases he
            have hconstant : current.op = .constant → folded = none := by
              intro hop
              rw [foldedData_constant hop, Except.ok.injEq] at hturn
              exact hturn.symm
            rw [foldRest, hturn]
            refine ih (before ++ [current]) _ (by simp [hsplit]) (hturned.concat hconstant)
              (by rw [List.length_append]; exact hlt) ?_
            intro u hu earlier hearlier
            rw [List.length_append, List.length_singleton] at hu
            rcases Nat.lt_succ_iff_lt_or_eq.mp hu with hbefore | hsame
            · exact hreached u hbefore earlier hearlier
            · rw [hsame, hcurrent, Option.some.injEq] at hearlier
              exact hearlier ▸ hquiet

/-- **Folding a node with constant operands, in any module.**  It is folded if no turn
before its own throws, and stays as it is otherwise. -/
theorem constantFold_at {v : Nat} {data : Option (List α)} (hnode : m.nodes[v]? = some node)
    (hconstants : ∀ id ∈ node.inputs, ∃ operand, m.node id = some operand ∧
      operand.op = .constant)
    (hdata : foldedData s m node = .ok data) :
    (TurnReached m v → (m.constantFold s).2.nodes[v]? = some (node.after data)) ∧
      (¬ TurnReached m v → (m.constantFold s).2.nodes[v]? = some node) :=
  foldRest_at hnode hconstants hdata m.nodes [] [] rfl
    ⟨rfl, fun _ _ hnone => by cases hnone⟩ (Nat.zero_le v)
    (fun _ hu => absurd hu (Nat.not_lt_zero _))

end Gpuforge.Compiler

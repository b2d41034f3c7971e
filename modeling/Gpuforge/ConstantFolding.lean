import Gpuforge.ShapeRules

/-!
# Constant folding (`PassManager::constant_fold`)

The pass goes once through the nodes.  A node whose operands are constants with
payloads becomes a constant itself, so that folding cascades: an operand may
have become a constant earlier in the same pass.

`Add` and `Mul` fold when the two payloads have the same length.  The shapes of
the operands are not looked at.

On an accepted module nothing is thrown and the nodes afterwards are described
by one equation each, in terms of the nodes afterwards (`Accepted.folded`).
-/

namespace Gpuforge.Compiler

variable {α : Type}

/-- The scalar operations that the pass evaluates. -/
structure Scalar (α : Type) where
  zero : α
  half : α
  one : α
  two : α
  add : α → α → α
  mul : α → α → α
  div : α → α → α
  max : α → α → α
  erf : α → α
  sqrt : α → α

namespace Scalar

variable (s : Scalar α)

def relu (value : α) : α := s.max s.zero value

def gelu (value : α) : α :=
  s.mul (s.mul s.half value) (s.add s.one (s.erf (s.div value (s.sqrt s.two))))

/-- What `Add` and `Mul` do to two entries. -/
def binary (op : Op) : α → α → α := if op = .add then s.add else s.mul

/-- What `Relu`, `Gelu`, `Cast` and `Reshape` do to an entry. -/
def unary (op : Op) : α → α :=
  if op = .relu then s.relu else if op = .gelu then s.gelu else id

end Scalar

abbrev IsBinary (op : Op) : Prop := op = .add ∨ op = .mul

abbrev IsUnary (op : Op) : Prop :=
  op = .relu ∨ op = .gelu ∨ op = .cast ∨ op = .reshape

/-! ## The pass -/

/-- The folded payload of a node with two operands; `none` where the loop goes
on to the next node. -/
def foldedBinary (f : α → α → α) (m : Module α) (node : Node α) :
    Except Exn (Option (List α)) :=
  match node.inputs with
  | [first, second] =>
      match m.node first, m.node second with
      | some lhs, some rhs =>
          if lhs.op ≠ .constant ∨ rhs.op ≠ .constant ∨ lhs.constantData = [] ∨
              lhs.constantData.length ≠ rhs.constantData.length then .ok none
          else .ok (some (List.zipWith f lhs.constantData rhs.constantData))
      | _, _ => .error .outOfRange
  | _ => .ok none

/-- The folded payload of a node with one operand. -/
def foldedUnary (f : α → α) (m : Module α) (node : Node α) : Except Exn (Option (List α)) :=
  match node.inputs with
  | [id] =>
      match m.node id with
      | some input =>
          if input.op ≠ .constant ∨ input.constantData = [] then .ok none
          else .ok (some (input.constantData.map f))
      | none => .error .outOfRange
  | _ => .ok none

/-- The folded payload of a node. -/
def foldedData (s : Scalar α) (m : Module α) (node : Node α) : Except Exn (Option (List α)) :=
  if IsBinary node.op then foldedBinary (s.binary node.op) m node
  else if IsUnary node.op then foldedUnary (s.unary node.op) m node
  else .ok none

/-- A node after its turn. -/
def Node.after (node : Node α) : Option (List α) → Node α
  | none => node
  | some folded => { node with op := .constant, inputs := [], constantData := folded }

/-- The loop, with the nodes that had their turn and those that did not. -/
def foldRest (s : Scalar α) (outputs : List Int) :
    List (Node α) → List (Node α) → Except Exn Unit × Module α
  | done, [] => (.ok (), ⟨done, outputs⟩)
  | done, node :: rest =>
      match foldedData s ⟨done ++ node :: rest, outputs⟩ node with
      | .error e => (.error e, ⟨done ++ node :: rest, outputs⟩)
      | .ok folded => foldRest s outputs (done ++ [node.after folded]) rest

def Module.constantFold (m : Module α) (s : Scalar α) : Except Exn Unit × Module α :=
  foldRest s m.outputs [] m.nodes

/-! ## One node -/

/-- A constant that has its payload. -/
def Node.HasPayload (node : Node α) : Prop := node.op = .constant ∧ node.constantData ≠ []

section node

variable {s : Scalar α} {m m' : Module α} {node : Node α} {data : List α}

@[simp] theorem Node.after_output (node : Node α) (folded : Option (List α)) :
    (node.after folded).output = node.output := by
  cases folded <;> rfl

/-- A turn adds no inputs. -/
theorem Node.mem_after_inputs {folded : Option (List α)} {id : Int}
    (h : id ∈ (node.after folded).inputs) : id ∈ node.inputs := by
  cases folded with
  | none => exact h
  | some data => cases h

/-- How a node comes by a folded payload. -/
inductive FoldsTo (s : Scalar α) (m : Module α) (node : Node α) : List α → Prop where
  | unary {id : Int} {input : Node α} (hop : IsUnary node.op) (hinputs : node.inputs = [id])
      (hinput : m.node id = some input) (hpayload : input.HasPayload) :
      FoldsTo s m node (input.constantData.map (s.unary node.op))
  | binary {first second : Int} {lhs rhs : Node α} (hop : IsBinary node.op)
      (hinputs : node.inputs = [first, second]) (hlhs : m.node first = some lhs)
      (hrhs : m.node second = some rhs) (hleft : lhs.HasPayload) (hright : rhs.HasPayload)
      (hlength : lhs.constantData.length = rhs.constantData.length) :
      FoldsTo s m node
        (List.zipWith (s.binary node.op) lhs.constantData rhs.constantData)

/-- Folded payloads have entries. -/
theorem FoldsTo.ne_nil (h : FoldsTo s m node data) : data ≠ [] := by
  cases h with
  | unary _ _ _ hpayload => simpa using hpayload.2
  | binary _ _ _ _ hleft _ hlength =>
      have hpos := List.length_pos_iff.mpr hleft.2
      apply List.length_pos_iff.mp
      rw [List.length_zipWith]
      omega

/-- No operator is both. -/
theorem IsUnary.not_binary {op : Op} (h : IsUnary op) : ¬ IsBinary op := by
  rcases h with rfl | rfl | rfl | rfl <;> decide

/-- A folded payload has its reason. -/
theorem foldsTo_of_foldedData (h : foldedData s m node = .ok (some data)) :
    FoldsTo s m node data := by
  unfold foldedData at h
  split at h
  · rename_i hop
    unfold foldedBinary at h
    split at h
    · rename_i first second hinputs
      split at h
      · rename_i lhs rhs hlhs hrhs
        split at h
        · cases h
        · rename_i hcond
          simp only [not_or, Decidable.not_not] at hcond
          obtain ⟨hlop, hrop, hldata, hlength⟩ := hcond
          cases h
          refine .binary hop hinputs hlhs hrhs ⟨hlop, hldata⟩ ⟨hrop, ?_⟩ hlength
          exact List.length_pos_iff.mp (hlength ▸ List.length_pos_iff.mpr hldata)
      · cases h
    · cases h
  · split at h
    · rename_i hop
      unfold foldedUnary at h
      split at h
      · rename_i id hinputs
        split at h
        · rename_i input hinput
          split at h
          · cases h
          · rename_i hcond
            simp only [not_or, Decidable.not_not] at hcond
            cases h
            exact .unary hop hinputs hinput hcond
        · cases h
      · cases h
    · cases h

/-- With such a reason the node is folded. -/
theorem FoldsTo.foldedData (h : FoldsTo s m node data) :
    foldedData s m node = .ok (some data) := by
  cases h with
  | @unary id input hop hinputs hinput hpayload =>
      have hcond : ¬ (input.op ≠ .constant ∨ input.constantData = []) := by
        simp [hpayload.1, hpayload.2]
      simp only [Compiler.foldedData, if_neg hop.not_binary, if_pos hop, foldedUnary, hinputs,
        hinput, if_neg hcond]
  | @binary first second lhs rhs hop hinputs hlhs hrhs hleft hright hlength =>
      have hcond : ¬ (lhs.op ≠ .constant ∨ rhs.op ≠ .constant ∨ lhs.constantData = [] ∨
          lhs.constantData.length ≠ rhs.constantData.length) := by
        simp [hleft.1, hleft.2, hright.1, hlength]
      simp only [Compiler.foldedData, if_pos hop, foldedBinary, hinputs, hlhs, hrhs,
        if_neg hcond]

/-- The turn of a node depends on the nodes it names. -/
theorem foldedData_congr (h : ∀ id ∈ node.inputs, m.node id = m'.node id) :
    foldedData s m node = foldedData s m' node := by
  have hbinary : ∀ f : α → α → α, foldedBinary f m node = foldedBinary f m' node := by
    intro f
    unfold foldedBinary
    split
    · rename_i first second hinputs
      rw [h first (by simp [hinputs]), h second (by simp [hinputs])]
    · rfl
  have hunary : ∀ f : α → α, foldedUnary f m node = foldedUnary f m' node := by
    intro f
    unfold foldedUnary
    split
    · rename_i id hinputs
      rw [h id (by simp [hinputs])]
    · rfl
  rw [foldedData, foldedData, hbinary, hunary]

/-- Nothing is thrown when all inputs are there. -/
theorem foldedData_ok (h : ∀ id ∈ node.inputs, ∃ input, m.node id = some input) :
    ∃ folded, foldedData s m node = .ok folded := by
  unfold foldedData
  split
  · unfold foldedBinary
    split
    · rename_i first second hinputs
      obtain ⟨lhs, hlhs⟩ := h first (by simp [hinputs])
      obtain ⟨rhs, hrhs⟩ := h second (by simp [hinputs])
      simp only [hlhs, hrhs]
      split <;> exact ⟨_, rfl⟩
    · exact ⟨_, rfl⟩
  · split
    · unfold foldedUnary
      split
      · rename_i id hinputs
        obtain ⟨input, hinput⟩ := h id (by simp [hinputs])
        simp only [hinput]
        split <;> exact ⟨_, rfl⟩
      · exact ⟨_, rfl⟩
    · exact ⟨_, rfl⟩

end node

/-! ## The loop -/

/-- The node at its turn, given the nodes before it. -/
def turn (s : Scalar α) (done : List (Node α)) (node : Node α) : Node α :=
  match foldedData s ⟨done, []⟩ node with
  | .ok folded => node.after folded
  | .error _ => node

/-- What the pass leaves: the module with each node after its turn. -/
structure Folded (s : Scalar α) (m m' : Module α) : Prop where
  outputs : m'.outputs = m.outputs
  size : m'.nodes.length = m.nodes.length
  turns : ∀ (v : Nat) (node : Node α), m.nodes[v]? = some node →
    ∃ folded, foldedData s m' node = .ok folded ∧ m'.nodes[v]? = some (node.after folded)

section loop

variable {s : Scalar α} {m : Module α}

/-- Inputs are found among the nodes before. -/
theorem Accepted.node_append (h : Accepted m) {v : Nat} {node : Node α}
    (hnode : m.nodes[v]? = some node) {done : List (Node α)} (hdone : done.length = v)
    {id : Int} (hid : id ∈ node.inputs) (later : List (Node α)) (outputs : List Int) :
    Module.node ⟨done ++ later, outputs⟩ id = Module.node ⟨done, []⟩ id ∧
      ∃ input, Module.node ⟨done, []⟩ id = some input := by
  obtain ⟨u, rfl, hlt⟩ := h.earlier hnode hid
  have hu : u < done.length := hdone ▸ hlt
  simp only [Module.node, intAt_natCast]
  exact ⟨List.getElem?_append_left hu, done[u], List.getElem?_eq_getElem hu⟩

/-- The loop gives every node its turn. -/
theorem foldRest_eq (h : Accepted m) : ∀ rest before : List (Node α),
    m.nodes = before ++ rest →
      foldRest s m.outputs (Dataflow.sweep (turn s) before) rest =
        (.ok (), ⟨Dataflow.sweep (turn s) m.nodes, m.outputs⟩) := by
  intro rest
  induction rest with
  | nil =>
      intro before hsplit
      rw [List.append_nil] at hsplit
      rw [hsplit]
      rfl
  | cons node rest ih =>
      intro before hsplit
      have hnode : m.nodes[before.length]? = some node := by simp [hsplit]
      have hinputs := fun id (hid : id ∈ node.inputs) =>
        h.node_append hnode (Dataflow.length_sweep (turn s) before) hid
      obtain ⟨folded, hfolded⟩ := foldedData_ok (s := s) fun id hid => (hinputs id hid [] []).2
      have hturn : turn s (Dataflow.sweep (turn s) before) node = node.after folded := by
        rw [turn, hfolded]
      have hnow := foldedData_congr (s := s)
        fun id hid => (hinputs id hid (node :: rest) m.outputs).1
      rw [foldRest, hnow, hfolded]
      simp only
      rw [← hturn, ← Dataflow.sweep_concat]
      exact ih (before ++ [node]) (by simp [hsplit])

/-- **The pass on an accepted module.**  It throws nothing and gives every node
its turn, with operands as they are afterwards. -/
theorem Accepted.folded (h : Accepted m) :
    ∃ m', m.constantFold s = (.ok (), m') ∧ Folded s m m' := by
  refine ⟨⟨Dataflow.sweep (turn s) m.nodes, m.outputs⟩, foldRest_eq h m.nodes [] rfl, rfl,
    Dataflow.length_sweep _ _, fun v node hnode => ?_⟩
  have hv := (List.getElem?_eq_some_iff.mp hnode).1
  have hlen : ((Dataflow.sweep (turn s) m.nodes).take v).length = v := by
    rw [List.length_take, Dataflow.length_sweep]
    omega
  have hinputs := fun id (hid : id ∈ node.inputs) =>
    h.node_append hnode hlen hid ((Dataflow.sweep (turn s) m.nodes).drop v) m.outputs
  obtain ⟨folded, hfolded⟩ := foldedData_ok (s := s) fun id hid => (hinputs id hid).2
  refine ⟨folded, ?_, ?_⟩
  · rw [← hfolded]
    apply foldedData_congr
    intro id hid
    rw [← (hinputs id hid).1, List.take_append_drop]
  · rw [Dataflow.getElem?_sweep _ hnode, turn, hfolded]

end loop

end Gpuforge.Compiler

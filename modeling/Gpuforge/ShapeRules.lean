import Mathlib.Data.List.Basic
import Gpuforge.Dataflow
import Gpuforge.TensorIr

/-!
# Shape inference and validation (`shape.cpp`)

`validate` checks a module node by node: the number of inputs, that inputs
have smaller ids, and the declared dims of `MatMul`, `Add` and `Mul` against
the shapes of their operands.  It collects messages, and a module is valid when
there are none.  The lookups of operands may throw `out_of_range` when ids are
no positions.
-/

namespace Gpuforge.Compiler

/-- `ShapeResult`: a shape, or the error text. -/
abbrev ShapeResult := Except String Shape

def validDims (dims : List Int) : Bool := dims.all fun d => 0 ≤ d

def inferMatmul (lhs rhs : Shape) : ShapeResult :=
  match lhs.dims, rhs.dims with
  | [rows, inner], [inner', columns] =>
      if ¬ validDims lhs.dims ∨ ¬ validDims rhs.dims then
        .error "matmul expects rank-2 shapes"
      else if inner ≠ inner' then .error "matmul inner dimensions mismatch"
      else .ok { dims := [rows, columns], type := lhs.type, layout := .tiled16 }
  | _, _ => .error "matmul expects rank-2 shapes"

/-- The dim `reverse` places from the end, 1 beyond the rank. -/
def axisFromEnd (dims : List Int) (reverse : Nat) : Int :=
  if reverse < dims.length then dims.getD (dims.length - reverse - 1) 1 else 1

/-- The loop of `infer_broadcast`, with `count` axes left.  It writes the result
from its last dim to its first, so the list is built from its end. -/
def broadcastFrom (lhs rhs : List Int) :
    Nat → Nat → List Int → Except String (List Int)
  | 0, _, dimensions => .ok dimensions
  | count+1, reverse, dimensions =>
      let left := axisFromEnd lhs reverse
      let right := axisFromEnd rhs reverse
      if left ≠ right ∧ left ≠ 1 ∧ right ≠ 1 then .error "broadcast dimensions mismatch"
      else broadcastFrom lhs rhs count (reverse + 1) (max left right :: dimensions)

def inferBroadcast (lhs rhs : Shape) : ShapeResult :=
  if ¬ validDims lhs.dims ∨ ¬ validDims rhs.dims then
    .error "broadcast dimensions must be non-negative"
  else
    match broadcastFrom lhs.dims rhs.dims (max lhs.dims.length rhs.dims.length) 0 [] with
    | .error e => .error e
    | .ok dimensions => .ok { dims := dimensions, type := lhs.type, layout := lhs.layout }

def inferReduce (input : Shape) (axis : Int) (keepDimension : Bool) : ShapeResult :=
  let rank := castInt input.dims.length
  let axis := if axis < 0 then wrapInt (axis + rank) else axis
  if axis < 0 ∨ rank ≤ axis then .error "reduce axis out of range"
  else
    let result :=
      if keepDimension then input.dims.set axis.toNat 1 else input.dims.eraseIdx axis.toNat
    .ok { dims := result, type := input.type, layout := input.layout }

/-- The positions a node reads. -/
def Node.args {α : Type} (node : Node α) : List Nat := node.inputs.map Int.toNat

/-- The number of inputs an operator takes. -/
def expectedInputs : Op → Nat
  | .parameter => 0
  | .constant => 0
  | .relu => 1
  | .gelu => 1
  | .softmax => 1
  | .reduceSum => 1
  | .cast => 1
  | .reshape => 1
  | .matMul => 2
  | .add => 2
  | .mul => 2
  | .layerNorm => 3

section validation

variable {α : Type}

def arityErrors (node : Node α) : List String :=
  if node.inputs.length ≠ expectedInputs node.op then
    ["node " ++ toString node.id ++ " has " ++ toString node.inputs.length ++
      " inputs; expected " ++ toString (expectedInputs node.op)]
  else []

def inputErrors (node : Node α) : List String :=
  (node.inputs.filter fun input => input < 0 ∨ node.id ≤ input).map fun input =>
    "node " ++ toString node.id ++ " has invalid input " ++ toString input

/-- The check of a binary operator against its shape rule; it is made only when
both operands have smaller ids. -/
def binaryErrors (m : Module α) (label : String) (infer : Shape → Shape → ShapeResult)
    (node : Node α) : Except Exn (List String) :=
  match node.inputs with
  | [first, second] =>
      if 0 ≤ first ∧ first < node.id ∧ 0 ≤ second ∧ second < node.id then
        match m.node first, m.node second with
        | some lhs, some rhs =>
            match infer lhs.output.shape rhs.output.shape with
            | .error e => .ok [label ++ " node " ++ toString node.id ++ ": " ++ e]
            | .ok shape =>
                if node.output.shape.dims ≠ shape.dims then
                  .ok [label ++ " node " ++ toString node.id ++ ": output shape mismatch"]
                else .ok []
        | _, _ => .error .outOfRange
      else .ok []
  | _ => .ok []

def matmulErrors (m : Module α) (node : Node α) : Except Exn (List String) :=
  if node.op = .matMul then binaryErrors m "matmul" inferMatmul node else .ok []

def elementwiseErrors (m : Module α) (node : Node α) : Except Exn (List String) :=
  if node.op = .add ∨ node.op = .mul then binaryErrors m "elementwise" inferBroadcast node
  else .ok []

/-- The messages about one node. -/
def nodeErrors (m : Module α) (node : Node α) : Except Exn (List String) :=
  match matmulErrors m node with
  | .error e => .error e
  | .ok matmul =>
      match elementwiseErrors m node with
      | .error e => .error e
      | .ok elementwise => .ok (arityErrors node ++ inputErrors node ++ matmul ++ elementwise)

/-- The messages about the nodes of a list, in order. -/
def errorsOf (m : Module α) : List (Node α) → Except Exn (List String)
  | [] => .ok []
  | node :: rest =>
      match nodeErrors m node with
      | .error e => .error e
      | .ok errors =>
          match errorsOf m rest with
          | .error e => .error e
          | .ok later => .ok (errors ++ later)

/-- The messages of `validate`, which returns true when there are none. -/
def validate (m : Module α) : Except Exn (List String) := errorsOf m m.nodes

/-! ## What an accepted module looks like -/

/-- A module with positions as ids that `validate` accepts. -/
structure Accepted (m : Module α) : Prop where
  indexed : m.Indexed
  valid : validate m = .ok []

variable {m : Module α} {node : Node α}

/-- No message about a list, no message about its members. -/
theorem nodeErrors_of_errorsOf {nodes : List (Node α)} (h : errorsOf m nodes = .ok [])
    (hmem : node ∈ nodes) : nodeErrors m node = .ok [] := by
  induction nodes with
  | nil => cases hmem
  | cons first rest ih =>
      simp only [errorsOf] at h
      split at h
      · cases h
      · rename_i errors hfirst
        split at h
        · cases h
        · rename_i later hrest
          simp only [Except.ok.injEq, List.append_eq_nil_iff] at h
          obtain ⟨rfl, rfl⟩ := h
          rcases List.mem_cons.mp hmem with rfl | hmem'
          · exact hfirst
          · exact ih hrest hmem'

/-- No message about a node, no message from any of its checks. -/
theorem checks_of_nodeErrors (h : nodeErrors m node = .ok []) :
    arityErrors node = [] ∧ inputErrors node = [] ∧ matmulErrors m node = .ok [] ∧
      elementwiseErrors m node = .ok [] := by
  simp only [nodeErrors] at h
  split at h
  · cases h
  · rename_i matmul hmatmul
    split at h
    · cases h
    · rename_i elementwise helementwise
      simp only [Except.ok.injEq, List.append_eq_nil_iff] at h
      obtain ⟨⟨⟨harity, hinputs⟩, rfl⟩, rfl⟩ := h
      exact ⟨harity, hinputs, hmatmul, helementwise⟩

/-- A binary check without message: the declared dims are the inferred ones. -/
theorem dims_of_binaryErrors {label : String} {infer : Shape → Shape → ShapeResult}
    {first second : Int} {lhs rhs : Node α} (h : binaryErrors m label infer node = .ok [])
    (hinputs : node.inputs = [first, second]) (hfirst : 0 ≤ first ∧ first < node.id)
    (hsecond : 0 ≤ second ∧ second < node.id) (hlhs : m.node first = some lhs)
    (hrhs : m.node second = some rhs) :
    ∃ shape, infer lhs.output.shape rhs.output.shape = .ok shape ∧
      node.output.shape.dims = shape.dims := by
  simp only [binaryErrors, hinputs, hlhs, hrhs] at h
  rw [if_pos ⟨hfirst.1, hfirst.2, hsecond.1, hsecond.2⟩] at h
  split at h
  · simp at h
  · rename_i shape hinfer
    split at h
    · simp at h
    · rename_i hdims
      exact ⟨shape, hinfer, Decidable.not_not.mp hdims⟩

namespace Accepted

variable {v : Nat}

/-- No check has anything to say about a node. -/
theorem checks (h : Accepted m) (hnode : m.nodes[v]? = some node) :
    arityErrors node = [] ∧ inputErrors node = [] ∧ matmulErrors m node = .ok [] ∧
      elementwiseErrors m node = .ok [] :=
  checks_of_nodeErrors (nodeErrors_of_errorsOf h.valid (List.mem_of_getElem? hnode))

/-- Every node has the inputs its operator takes. -/
theorem arity (h : Accepted m) (hnode : m.nodes[v]? = some node) :
    node.inputs.length = expectedInputs node.op := by
  have herrors := (h.checks hnode).1
  unfold arityErrors at herrors
  split at herrors
  · cases herrors
  · rename_i harity
    exact Decidable.not_not.mp harity

/-- Every input is an earlier position. -/
theorem earlier (h : Accepted m) (hnode : m.nodes[v]? = some node) {input : Int}
    (hinput : input ∈ node.inputs) : ∃ u : Nat, input = u ∧ u < v := by
  have herrors := (h.checks hnode).2.1
  have hid := h.indexed.ids v node hnode
  rw [inputErrors, List.map_eq_nil_iff, List.filter_eq_nil_iff] at herrors
  have hbounds := herrors input hinput
  rw [decide_eq_true_eq, hid] at hbounds
  exact ⟨input.toNat, by omega, by omega⟩

/-- The operands of a node are there. -/
theorem operand (h : Accepted m) (hnode : m.nodes[v]? = some node) {u : Nat}
    (hu : (u : Int) ∈ node.inputs) : ∃ operand, m.nodes[u]? = some operand := by
  have hv := (List.getElem?_eq_some_iff.mp hnode).1
  obtain ⟨u', hu', hlt⟩ := h.earlier hnode hu
  have hin : u < m.nodes.length := by omega
  exact ⟨m.nodes[u], List.getElem?_eq_getElem hin⟩

/-- The operand of a unary operator. -/
theorem oneOperand (h : Accepted m) (hnode : m.nodes[v]? = some node)
    (harity : expectedInputs node.op = 1) :
    ∃ (u : Nat) (operand : Node α), node.inputs = [(u : Int)] ∧ u < v ∧
      m.nodes[u]? = some operand := by
  obtain ⟨first, hsingle⟩ := List.length_eq_one_iff.mp ((h.arity hnode).trans harity)
  obtain ⟨u, rfl, hlt⟩ := h.earlier hnode (show first ∈ node.inputs by simp [hsingle])
  obtain ⟨operand, hoperand⟩ := h.operand hnode (show (u : Int) ∈ node.inputs by simp [hsingle])
  exact ⟨u, operand, hsingle, hlt, hoperand⟩

/-- The operands of a binary operator. -/
theorem twoOperands (h : Accepted m) (hnode : m.nodes[v]? = some node)
    (harity : expectedInputs node.op = 2) :
    ∃ (a b : Nat) (lhs rhs : Node α), node.inputs = [(a : Int), (b : Int)] ∧ a < v ∧ b < v ∧
      m.nodes[a]? = some lhs ∧ m.nodes[b]? = some rhs := by
  obtain ⟨first, second, hpair⟩ := List.length_eq_two.mp ((h.arity hnode).trans harity)
  obtain ⟨a, rfl, ha⟩ := h.earlier hnode (show first ∈ node.inputs by simp [hpair])
  obtain ⟨b, rfl, hb⟩ := h.earlier hnode (show second ∈ node.inputs by simp [hpair])
  obtain ⟨lhs, hlhs⟩ := h.operand hnode (show (a : Int) ∈ node.inputs by simp [hpair])
  obtain ⟨rhs, hrhs⟩ := h.operand hnode (show (b : Int) ∈ node.inputs by simp [hpair])
  exact ⟨a, b, lhs, rhs, hpair, ha, hb, hlhs, hrhs⟩

/-- Accepted modules are forward graphs. -/
theorem forward (h : Accepted m) : Dataflow.Forward Node.args m.nodes := by
  intro i node hnode a ha
  obtain ⟨input, hinput, rfl⟩ := List.mem_map.mp ha
  obtain ⟨u, rfl, hlt⟩ := h.earlier hnode hinput
  exact hlt

/-- `Add` and `Mul` declare the dims that broadcasting gives their operands. -/
theorem broadcast (h : Accepted m) (hnode : m.nodes[v]? = some node)
    (hop : node.op = .add ∨ node.op = .mul) {a b : Nat}
    (hinputs : node.inputs = [(a : Int), (b : Int)]) {lhs rhs : Node α}
    (hlhs : m.nodes[a]? = some lhs) (hrhs : m.nodes[b]? = some rhs) :
    ∃ shape, inferBroadcast lhs.output.shape rhs.output.shape = .ok shape ∧
      node.output.shape.dims = shape.dims := by
  have herrors := (h.checks hnode).2.2.2
  rw [elementwiseErrors, if_pos hop] at herrors
  have hid := h.indexed.ids v node hnode
  obtain ⟨a', ha', hav⟩ := h.earlier hnode (show (a : Int) ∈ node.inputs by simp [hinputs])
  obtain ⟨b', hb', hbv⟩ := h.earlier hnode (show (b : Int) ∈ node.inputs by simp [hinputs])
  exact dims_of_binaryErrors herrors hinputs ⟨by omega, by omega⟩ ⟨by omega, by omega⟩
    (by rw [Module.node, intAt_natCast]; exact hlhs)
    (by rw [Module.node, intAt_natCast]; exact hrhs)

end Accepted

end validation

end Gpuforge.Compiler

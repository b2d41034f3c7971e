import Gpuforge.ConstantFolding
import Gpuforge.ShapeSizes

/-!
# What folded modules denote

Every node denotes an array over its declared dims.  `Add` and `Mul` read their
operands under the broadcast rule that `validate` checked, `Relu` and `Gelu` are
pointwise, `Cast` and `Reshape` keep the flat payload; what the other operators
compute is arbitrary.

As long as payloads fill their shapes, the nodes that have a payload after
folding can be read off the module before: they are its constant expressions
(`Folded.constantExpr`, `Folded.payload`).
-/

namespace Gpuforge.Compiler

variable {α : Type}

/-! ## What a module denotes -/

/-- An array over dims, flat in row-major order; `none` where it has no entry. -/
@[ext] structure NodeArray (α : Type) where
  dims : List Int
  entries : Nat → Option α

/-- The array over dims with the entries of a flat sequence. -/
def arrayOver (dims : List Int) (entries : Nat → Option α) : NodeArray α :=
  ⟨dims, fun j => if j < volume dims then entries j else none⟩

/-- The entry that broadcasting to `dims` reads for the flat position `j`. -/
def NodeArray.broadcastAt (x : NodeArray α) (dims : List Int) (j : Nat) : Option α :=
  x.entries (BroadcastIndex.offset (axes dims dims.length) (axes x.dims dims.length) j)

/-- Elementwise under broadcasting. -/
def broadcastEntries (f : α → α → α) (dims : List Int) (lhs rhs : NodeArray α) (j : Nat) :
    Option α :=
  match lhs.broadcastAt dims j, rhs.broadcastAt dims j with
  | some x, some y => some (f x y)
  | _, _ => none

section denotation

/-- What the operators without a meaning of their own compute. -/
abbrev OtherOps (α : Type) :=
  Op → Attrs → Shape → List (Option (NodeArray α)) → Nat → Option α

variable (s : Scalar α) (given : Nat → Nat → Option α) (other : OtherOps α)

/-- The entries of a node, given the arrays of its inputs.  Parameters and
constants without payload have the given ones. -/
def nodeEntries (node : Node α) (inputs : List (Option (NodeArray α))) : Nat → Option α :=
  match node.op, inputs with
  | .parameter, _ => given node.id.toNat
  | .constant, _ =>
      if node.constantData = [] then given node.id.toNat else fun j => node.constantData[j]?
  | .add, [some lhs, some rhs] => broadcastEntries s.add node.output.shape.dims lhs rhs
  | .mul, [some lhs, some rhs] => broadcastEntries s.mul node.output.shape.dims lhs rhs
  | .relu, [some x] => fun j => (x.entries j).map s.relu
  | .gelu, [some x] => fun j => (x.entries j).map s.gelu
  | .cast, [some x] => x.entries
  | .reshape, [some x] => x.entries
  | op, inputs => other op node.attrs node.output.shape inputs

/-- The array of a node, given the arrays of its inputs. -/
def nodeArray (node : Node α) (inputs : List (Option (NodeArray α))) : NodeArray α :=
  arrayOver node.output.shape.dims (nodeEntries s given other node inputs)

/-- The arrays that the nodes of a module denote. -/
def Module.arrays (m : Module α) : List (NodeArray α) :=
  Dataflow.evaluate (nodeArray s given other) Node.args m.nodes

end denotation

/-- A payload is empty or fills the declared shape. -/
def Node.Sized (node : Node α) : Prop :=
  node.op = .constant →
    node.constantData = [] ∨ node.constantData.length = node.output.shape.elements

/-- Payloads fill their shapes, pointwise operators and casts declare the dims
of their input, and reshapes its element count. -/
structure WellShaped (m : Module α) : Prop where
  payloads : ∀ (v : Nat) (node : Node α), m.nodes[v]? = some node → node.Sized
  pointwise : ∀ (v u : Nat) (node input : Node α), m.nodes[v]? = some node →
    node.op = .relu ∨ node.op = .gelu ∨ node.op = .cast → node.inputs = [(u : Int)] →
    m.nodes[u]? = some input → node.output.shape.dims = input.output.shape.dims
  reshape : ∀ (v u : Nat) (node input : Node α), m.nodes[v]? = some node →
    node.op = .reshape → node.inputs = [(u : Int)] →
    m.nodes[u]? = some input → node.output.shape.elements = input.output.shape.elements

/-- **What folding should preserve.**  Every node denotes the array it denoted,
and payloads fill their shapes. -/
structure Preserves (s : Scalar α) (m m' : Module α) : Prop where
  arrays : ∀ (given : Nat → Nat → Option α) (other : OtherOps α),
    m'.arrays s given other = m.arrays s given other
  payloads : ∀ (v : Nat) (node : Node α), m'.nodes[v]? = some node → node.Sized

/-! ## The condition -/

/-- Constant expressions: constants with payloads, unary operators on constant
expressions, and binary ones on two with equally many elements. -/
inductive ConstantExpr (m : Module α) : Nat → Prop where
  | payload {v : Nat} {node : Node α} (hnode : m.nodes[v]? = some node)
      (hpayload : node.HasPayload) : ConstantExpr m v
  | unary {v u : Nat} {node : Node α} (hnode : m.nodes[v]? = some node)
      (hop : IsUnary node.op) (hinputs : node.inputs = [(u : Int)])
      (hu : ConstantExpr m u) : ConstantExpr m v
  | binary {v a b : Nat} {node lhs rhs : Node α} (hnode : m.nodes[v]? = some node)
      (hop : IsBinary node.op) (hinputs : node.inputs = [(a : Int), (b : Int)])
      (hlhs : m.nodes[a]? = some lhs) (hrhs : m.nodes[b]? = some rhs)
      (ha : ConstantExpr m a) (hb : ConstantExpr m b)
      (hsame : lhs.output.shape.elements = rhs.output.shape.elements) : ConstantExpr m v

/-- No binary node stretches constant expressions with equally many elements. -/
def Unstretched (m : Module α) : Prop :=
  ∀ (v a b : Nat) (node lhs rhs : Node α), m.nodes[v]? = some node → IsBinary node.op →
    node.inputs = [(a : Int), (b : Int)] → m.nodes[a]? = some lhs → m.nodes[b]? = some rhs →
    ConstantExpr m a → ConstantExpr m b →
    lhs.output.shape.elements = rhs.output.shape.elements →
    SameAxes lhs.output.shape rhs.output.shape

/-! ## Arrays -/

/-- Arrays over dims of one volume are told apart by their entries below it. -/
theorem arrayOver_congr {dims : List Int} {f g : Nat → Option α}
    (h : ∀ j < volume dims, f j = g j) : arrayOver dims f = arrayOver dims g := by
  refine NodeArray.ext rfl (funext fun j => ?_)
  simp only [arrayOver]
  split
  · rename_i hj
    exact h j hj
  · rfl

theorem arrayOver_entries {dims : List Int} {f : Nat → Option α} {j : Nat}
    (hj : j < volume dims) : (arrayOver dims f).entries j = f j := if_pos hj

section meaning

variable {s : Scalar α} {given : Nat → Nat → Option α} {other : OtherOps α} {node : Node α}

/-- A constant with payload denotes it. -/
theorem nodeArray_payload (h : node.HasPayload) (inputs : List (Option (NodeArray α))) :
    nodeArray s given other node inputs =
      arrayOver node.output.shape.dims fun j => node.constantData[j]? := by
  simp only [nodeArray, nodeEntries, h.1, if_neg h.2]

/-- The meaning of the unary operators. -/
theorem nodeArray_unary (h : IsUnary node.op) (x : NodeArray α) :
    nodeArray s given other node [some x] =
      arrayOver node.output.shape.dims fun j => (x.entries j).map (s.unary node.op) := by
  rcases h with hop | hop | hop | hop <;>
    simp [nodeArray, nodeEntries, Scalar.unary, hop]

/-- The meaning of the binary operators. -/
theorem nodeArray_binary (h : IsBinary node.op) (lhs rhs : NodeArray α) :
    nodeArray s given other node [some lhs, some rhs] =
      arrayOver node.output.shape.dims
        (broadcastEntries (s.binary node.op) node.output.shape.dims lhs rhs) := by
  rcases h with hop | hop <;> simp [nodeArray, nodeEntries, Scalar.binary, hop]

end meaning

/-- An operand with the axes of the result is read in place. -/
theorem broadcastAt_self {x : NodeArray α} {dims : List Int}
    (haxes : axes x.dims dims.length = axes dims dims.length) (hpos : ∀ d ∈ dims, 0 < d)
    {j : Nat} (hj : j < volume dims) : x.broadcastAt dims j = x.entries j := by
  rw [← prod_axes (Nat.le_refl dims.length)] at hj
  rw [NodeArray.broadcastAt, haxes, BroadcastIndex.offset_self (axes_pos hpos) hj]

/-! ## Sizes -/

variable {s : Scalar α} {m m' : Module α} {v : Nat} {node : Node α}

/-- A payload that fills its shape gives the shape positive dims and its
length as volume. -/
theorem Node.Sized.volume (h : node.Sized) (hpayload : node.HasPayload) :
    0 < node.output.shape.elements ∧
      node.constantData.length = node.output.shape.elements ∧
      node.constantData.length = Compiler.volume node.output.shape.dims := by
  have hlen := (h hpayload.1).resolve_left hpayload.2
  have hpos := List.length_pos_iff.mpr hpayload.2
  have hvolume := (elements_eq_volume (hlen ▸ hpos)).2.2
  exact ⟨hlen ▸ hpos, hlen, hlen.trans hvolume⟩

/-- A unary operator declares as many elements as its input has. -/
theorem WellShaped.unary (hw : WellShaped m) (hnode : m.nodes[v]? = some node)
    (hop : IsUnary node.op) {u : Nat} (hinputs : node.inputs = [(u : Int)]) {input : Node α}
    (hinput : m.nodes[u]? = some input) :
    node.output.shape.elements = input.output.shape.elements := by
  have hpointwise (hop : node.op = .relu ∨ node.op = .gelu ∨ node.op = .cast) :
      node.output.shape.elements = input.output.shape.elements := by
    rw [Shape.elements, Shape.elements, hw.pointwise v u node input hnode hop hinputs hinput]
  rcases hop with hop | hop | hop | hop
  · exact hpointwise (Or.inl hop)
  · exact hpointwise (Or.inr (Or.inl hop))
  · exact hpointwise (Or.inr (Or.inr hop))
  · exact hw.reshape v u node input hnode hop hinputs hinput

/-- The node before its turn. -/
theorem Folded.before (hf : Folded s m m') {node' : Node α}
    (hnode' : m'.nodes[v]? = some node') :
    ∃ node folded, m.nodes[v]? = some node ∧ foldedData s m' node = .ok folded ∧
      node' = node.after folded := by
  have hv : v < m.nodes.length := by
    rw [← hf.size]
    exact (List.getElem?_eq_some_iff.mp hnode').1
  obtain ⟨folded, hfolded, hturn⟩ := hf.turns v _ (List.getElem?_eq_getElem hv)
  refine ⟨m.nodes[v], folded, List.getElem?_eq_getElem hv, hfolded, ?_⟩
  rw [hnode', Option.some.injEq] at hturn
  exact hturn

/-- A turn keeps the declared value. -/
theorem Folded.output (hf : Folded s m m') (hnode : m.nodes[v]? = some node) :
    ∃ node', m'.nodes[v]? = some node' ∧ node'.output = node.output := by
  obtain ⟨folded, _, hnode'⟩ := hf.turns v node hnode
  exact ⟨_, hnode', node.after_output folded⟩

/-- Payloads of operands with equally many elements have the same length. -/
theorem Folded.lengths_eq (hf : Folded s m m') {a b : Nat} {lhs rhs lhs' rhs' : Node α}
    (hlhs : m.nodes[a]? = some lhs) (hrhs : m.nodes[b]? = some rhs)
    (hlhs' : m'.nodes[a]? = some lhs') (hrhs' : m'.nodes[b]? = some rhs')
    (hleft : lhs'.HasPayload) (hright : rhs'.HasPayload) (hlsized : lhs'.Sized)
    (hrsized : rhs'.Sized) (hsame : lhs.output.shape.elements = rhs.output.shape.elements) :
    lhs'.constantData.length = rhs'.constantData.length := by
  obtain ⟨_, hl, hlout⟩ := hf.output hlhs
  obtain ⟨_, hr, hrout⟩ := hf.output hrhs
  rw [hlhs', Option.some.injEq] at hl
  rw [hrhs', Option.some.injEq] at hr
  subst hl hr
  rw [(hlsized.volume hleft).2.1, (hrsized.volume hright).2.1, hlout, hrout, hsame]

/-- An operand of a node, before and after. -/
theorem Folded.operand (h : Accepted m) (hf : Folded s m m') (hnode : m.nodes[v]? = some node)
    {id : Int} (hid : id ∈ node.inputs) {input' : Node α} (hinput' : m'.node id = some input') :
    ∃ (u : Nat) (input : Node α), id = u ∧ u < v ∧ m.nodes[u]? = some input ∧
      m'.nodes[u]? = some input' ∧ input'.output = input.output := by
  obtain ⟨u, rfl, hlt⟩ := h.earlier hnode hid
  rw [Module.node, intAt_natCast] at hinput'
  obtain ⟨input, folded, hinput, _, rfl⟩ := hf.before hinput'
  exact ⟨u, input, rfl, hlt, hinput, hinput', input.after_output folded⟩

/-- How a node comes by a folded payload, with the operands before and after the pass. -/
inductive FoldsFrom (s : Scalar α) (m m' : Module α) (v : Nat) (node : Node α) :
    List α → Prop where
  | unary {u : Nat} {input input' : Node α} (hop : IsUnary node.op)
      (hinputs : node.inputs = [(u : Int)]) (hlt : u < v) (hinput : m.nodes[u]? = some input)
      (hinput' : m'.nodes[u]? = some input') (hout : input'.output = input.output)
      (hpayload : input'.HasPayload) :
      FoldsFrom s m m' v node (input'.constantData.map (s.unary node.op))
  | binary {a b : Nat} {lhs lhs' rhs rhs' : Node α} (hop : IsBinary node.op)
      (hinputs : node.inputs = [(a : Int), (b : Int)]) (hav : a < v) (hbv : b < v)
      (hlhs : m.nodes[a]? = some lhs) (hlhs' : m'.nodes[a]? = some lhs')
      (hlout : lhs'.output = lhs.output) (hrhs : m.nodes[b]? = some rhs)
      (hrhs' : m'.nodes[b]? = some rhs') (hrout : rhs'.output = rhs.output)
      (hleft : lhs'.HasPayload) (hright : rhs'.HasPayload)
      (hlength : lhs'.constantData.length = rhs'.constantData.length) :
      FoldsFrom s m m' v node
        (List.zipWith (s.binary node.op) lhs'.constantData rhs'.constantData)

/-- The operands of a folded node stand before it. -/
theorem Folded.foldsFrom (h : Accepted m) (hf : Folded s m m') (hnode : m.nodes[v]? = some node)
    {data : List α} (hfold : FoldsTo s m' node data) : FoldsFrom s m m' v node data := by
  cases hfold with
  | @unary id input' hop hinputs hinput hpayload =>
      obtain ⟨u, input, rfl, hlt, hbefore, hafter, hout⟩ :=
        Folded.operand h hf hnode (by simp [hinputs]) hinput
      exact .unary hop hinputs hlt hbefore hafter hout hpayload
  | @binary first second lhs' rhs' hop hinputs hlhs hrhs hleft hright hlength =>
      obtain ⟨a, lhs, rfl, hav, hlbefore, hlafter, hlout⟩ :=
        Folded.operand h hf hnode (by simp [hinputs]) hlhs
      obtain ⟨b, rhs, rfl, hbv, hrbefore, hrafter, hrout⟩ :=
        Folded.operand h hf hnode (by simp [hinputs]) hrhs
      exact .binary hop hinputs hav hbv hlbefore hlafter hlout hrbefore hrafter hrout hleft hright
        hlength

/-- A node with a reason to fold gets its payload. -/
theorem Folded.of_foldsTo (hf : Folded s m m') (hnode : m.nodes[v]? = some node)
    {data : List α} (h : FoldsTo s m' node data) :
    m'.nodes[v]? = some (node.after (some data)) ∧ (node.after (some data)).HasPayload := by
  obtain ⟨folded, hfolded, hnode'⟩ := hf.turns v node hnode
  rw [h.foldedData, Except.ok.injEq] at hfolded
  rw [hnode', ← hfolded]
  exact ⟨rfl, rfl, h.ne_nil⟩

/-- Payloads below a position fill their shapes. -/
def SizedBelow (m : Module α) (v : Nat) : Prop :=
  ∀ u < v, ∀ node, m.nodes[u]? = some node → node.Sized

theorem SizedBelow.mono (h : SizedBelow m v) {u : Nat} (hle : u ≤ v) : SizedBelow m u :=
  fun w hw => h w (Nat.lt_of_lt_of_le hw hle)

/-- Nodes with a payload after the pass are constant expressions. -/
theorem Folded.constantExpr (h : Accepted m) (hf : Folded s m m') {node' : Node α}
    (hsized : SizedBelow m' v) (hnode' : m'.nodes[v]? = some node')
    (hpayload : node'.HasPayload) : ConstantExpr m v := by
  induction v using Nat.strongRecOn generalizing node' with
  | ind v ih =>
      obtain ⟨node, folded, hnode, hfolded, rfl⟩ := hf.before hnode'
      cases folded with
      | none => exact .payload hnode hpayload
      | some data =>
          cases Folded.foldsFrom h hf hnode (foldsTo_of_foldedData hfolded) with
          | @unary u _ _ hop hinputs hlt _ hinput' _ hinputPayload =>
              exact .unary hnode hop hinputs
                (ih u hlt (hsized.mono (Nat.le_of_lt hlt)) hinput' hinputPayload)
          | @binary a b _ _ _ _ hop hinputs hav hbv hlhs hlhs' hlout hrhs hrhs' hrout hleft hright
              hlength =>
              refine .binary hnode hop hinputs hlhs hrhs
                (ih a hav (hsized.mono (Nat.le_of_lt hav)) hlhs' hleft)
                (ih b hbv (hsized.mono (Nat.le_of_lt hbv)) hrhs' hright) ?_
              rw [← hlout, ← hrout, ← ((hsized a hav _ hlhs').volume hleft).2.1,
                ← ((hsized b hbv _ hrhs').volume hright).2.1, hlength]

/-- Constant expressions have a payload after the pass. -/
theorem Folded.payload (h : Accepted m) (hf : Folded s m m') (hconst : ConstantExpr m v)
    (hsized : SizedBelow m' v) :
    ∃ node', m'.nodes[v]? = some node' ∧ node'.HasPayload := by
  induction hconst with
  | @payload v node hnode hpayload =>
      obtain ⟨folded, hfolded, hnode'⟩ := hf.turns v node hnode
      refine ⟨_, hnode', ?_⟩
      cases folded with
      | none => exact hpayload
      | some data =>
          -- no constant is folded
          cases foldsTo_of_foldedData hfolded with
          | unary hop => simp [IsUnary, hpayload.1] at hop
          | binary hop => simp [IsBinary, hpayload.1] at hop
  | @unary v u node hnode hop hinputs hu ih =>
      obtain ⟨_, heq, hlt⟩ := h.earlier hnode (show (u : Int) ∈ node.inputs by simp [hinputs])
      obtain ⟨input', hinput', hpayload⟩ := ih (hsized.mono (by omega))
      have hfold : FoldsTo s m' node _ :=
        .unary hop hinputs (by rw [Module.node, intAt_natCast]; exact hinput') hpayload
      exact ⟨_, hf.of_foldsTo hnode hfold⟩
  | @binary v a b node lhs rhs hnode hop hinputs hlhs hrhs ha hb hsame iha ihb =>
      obtain ⟨_, heqa, hlta⟩ := h.earlier hnode (show (a : Int) ∈ node.inputs by simp [hinputs])
      obtain ⟨_, heqb, hltb⟩ := h.earlier hnode (show (b : Int) ∈ node.inputs by simp [hinputs])
      obtain ⟨lhs', hlhs', hleft⟩ := iha (hsized.mono (by omega))
      obtain ⟨rhs', hrhs', hright⟩ := ihb (hsized.mono (by omega))
      have hlength := hf.lengths_eq hlhs hrhs hlhs' hrhs' hleft hright
        (hsized a (by omega) _ hlhs') (hsized b (by omega) _ hrhs') hsame
      have hfold : FoldsTo s m' node _ :=
        .binary hop hinputs (by rw [Module.node, intAt_natCast]; exact hlhs')
          (by rw [Module.node, intAt_natCast]; exact hrhs') hleft hright hlength
      exact ⟨_, hf.of_foldsTo hnode hfold⟩

end Gpuforge.Compiler

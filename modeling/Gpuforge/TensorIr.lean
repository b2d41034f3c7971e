import Gpuforge.CallOutcome

/-!
# The tensor IR (`compiler.hpp`, `compiler.cpp`)

A module is a vector of nodes and a list of output ids.  A node names its
inputs by id, carries the shape of its value, and, when it is a constant, the
payload.  Builder calls give each new node its position as id; passes edit the
nodes in place through `mutable_nodes` and, apart from dead code elimination,
leave ids alone.

Ids are C++ `int`s, so positions can only be ids of the first `2^31` nodes.  The
scalar type of payloads is a parameter.
-/

namespace Gpuforge.Compiler

inductive ScalarType where
  | f32
  | f16
  | bf16
  | i8
  deriving DecidableEq, Repr

inductive Layout where
  | rowMajor
  | colMajor
  | tiled16
  | tiled32
  deriving DecidableEq, Repr

inductive Op where
  | parameter
  | constant
  | matMul
  | add
  | mul
  | relu
  | gelu
  | layerNorm
  | softmax
  | reduceSum
  | cast
  | reshape
  deriving DecidableEq, Repr

def isElementwise : Op → Bool
  | .add => true
  | .mul => true
  | .relu => true
  | .gelu => true
  | .cast => true
  | _ => false

structure Shape where
  dims : List Int
  type : ScalarType := .f32
  layout : Layout := .rowMajor
  deriving DecidableEq, Repr

/-- The loop of `elements`, in `size_t`, from a partial product on. -/
def elementsFrom (result : Nat) : List Int → Nat
  | [] => result
  | dimension :: rest =>
      if dimension < 0 then 0
      else if dimension.toNat ≠ 0 ∧ (2 ^ 64 - 1) / dimension.toNat < result then 0
      else elementsFrom (result * dimension.toNat) rest

/-- The number of elements; 0 for rank 0 and when the product does not fit. -/
def Shape.elements (shape : Shape) : Nat :=
  if shape.dims = [] then 0 else elementsFrom 1 shape.dims

structure Value where
  id : Int := -1
  shape : Shape
  name : String
  deriving DecidableEq, Repr

/-- `std::map<std::string, int64_t>`. -/
abbrev Attrs := List (String × Int)

structure Node (α : Type) where
  id : Int := -1
  op : Op := .parameter
  inputs : List Int
  output : Value
  attrs : Attrs := []
  constantData : List α := []
  deriving DecidableEq, Repr

structure Module (α : Type) where
  nodes : List (Node α) := []
  outputs : List Int := []
  deriving DecidableEq, Repr

/-- A vector subscripted with an `int`: a negative value converts to an index
that no vector has. -/
def intAt {β : Type} (xs : List β) (id : Int) : Option β :=
  if 0 ≤ id then xs[id.toNat]? else none

@[simp] theorem intAt_natCast {β : Type} (xs : List β) (i : Nat) :
    intAt xs (i : Int) = xs[i]? := by
  simp [intAt]

/-- An entry is found under an id that is an index. -/
theorem intAt_eq_some {β : Type} {xs : List β} {id : Int} {x : β}
    (h : intAt xs id = some x) : ∃ i : Nat, id = i ∧ xs[i]? = some x := by
  unfold intAt at h
  split at h
  · exact ⟨id.toNat, by omega, h⟩
  · cases h

namespace Module

variable {α : Type}

/-- `nodes_.at(id)`; `none` is the `out_of_range` it throws. -/
def node (m : Module α) (id : Int) : Option (Node α) := intAt m.nodes id

@[simp] theorem node_natCast (m : Module α) (v : Nat) : m.node (v : Int) = m.nodes[v]? :=
  intAt_natCast m.nodes v

/-- The builder call behind all others. -/
def emit (m : Module α) (op : Op) (inputs : List Int) (shape : Shape) (attrs : Attrs := [])
    (name : String := "") : Int × Module α :=
  let id := castInt m.nodes.length
  let name := if name.isEmpty then "v" ++ toString id else name
  (id, { m with
    nodes := m.nodes ++
      [{ id := id, op := op, inputs := inputs, output := ⟨id, shape, name⟩, attrs := attrs }] })

def parameter (m : Module α) (name : String) (shape : Shape) : Int × Module α :=
  m.emit .parameter [] shape [] name

def constant (m : Module α) (name : String) (shape : Shape) : Int × Module α :=
  m.emit .constant [] shape [] name

/-- The assignment and the check of a payload, at the node found under an id. -/
def fillPayload (m : Module α) (id : Int) (data : List α) : Except Exn Int × Module α :=
  match m.node id with
  | none => (.error .outOfRange, m)
  | some node =>
      let m := { m with
        nodes := m.nodes.modify id.toNat fun node => { node with constantData := data } }
      if data ≠ [] ∧ data.length ≠ node.output.shape.elements then (.error .invalidArgument, m)
      else (.ok id, m)

/-- `constant` with a payload: the node is there before the payload is
checked. -/
def constantWith (m : Module α) (name : String) (shape : Shape) (data : List α) :
    Except Exn Int × Module α :=
  (m.constant name shape).2.fillPayload (m.constant name shape).1 data

def setOutputs (m : Module α) (outputs : List Int) : Module α :=
  { m with outputs := outputs }

/-- The ids of the nodes that use a value. -/
def users (m : Module α) (valueId : Int) : List Int :=
  (m.nodes.filter fun node => node.inputs.contains valueId).map Node.id

/-! ## Ids and positions -/

/-- Every node has its position as id, and ids are `int`s. -/
structure Indexed (m : Module α) : Prop where
  ids : ∀ (i : Nat) (node : Node α), m.nodes[i]? = some node → node.id = i
  narrow : m.nodes.length ≤ 2 ^ 31

variable {m : Module α}

/-- The empty module. -/
theorem indexed_empty : Indexed ({} : Module α) :=
  ⟨by simp, Nat.zero_le _⟩

/-- Ids that enumerate the positions. -/
theorem indexed_of_ids (hids : m.nodes.map Node.id = (List.range m.nodes.length).map Int.ofNat)
    (hnarrow : m.nodes.length ≤ 2 ^ 31) : m.Indexed := by
  refine ⟨fun i node hnode => ?_, hnarrow⟩
  have hi := (List.getElem?_eq_some_iff.mp hnode).1
  have hread : (m.nodes.map Node.id)[i]? = some node.id := by
    rw [List.getElem?_map, hnode, Option.map_some]
  rw [hids, List.getElem?_map, List.getElem?_range hi] at hread
  exact (Option.some.inj hread).symm

/-- Builder calls give positions as ids, as long as these fit an `int`. -/
theorem Indexed.emit (h : m.Indexed) (hroom : m.nodes.length < 2 ^ 31) (op : Op)
    (inputs : List Int) (shape : Shape) (attrs : Attrs) (name : String) :
    (m.emit op inputs shape attrs name).2.Indexed := by
  refine ⟨?_, by simp only [Module.emit, List.length_append, List.length_singleton]; omega⟩
  intro i node hnode
  simp only [Module.emit, castInt_of_lt hroom] at hnode
  by_cases hi : i < m.nodes.length
  · rw [List.getElem?_append_left hi] at hnode
    exact h.ids i node hnode
  · have hbound := (List.getElem?_eq_some_iff.mp hnode).1
    rw [List.length_append, List.length_singleton] at hbound
    have hlast : i = m.nodes.length := by omega
    subst hlast
    rw [List.getElem?_concat_length] at hnode
    cases hnode
    rfl

/-- An edit of one node that keeps its id keeps all ids. -/
theorem Indexed.modify (h : m.Indexed) (k : Nat) (f : Node α → Node α)
    (hid : ∀ node, (f node).id = node.id) :
    Indexed { m with nodes := m.nodes.modify k f } := by
  refine ⟨?_, by simpa using h.narrow⟩
  intro i node hnode
  rw [List.getElem?_modify] at hnode
  obtain ⟨old, hold, rfl⟩ := Option.map_eq_some_iff.mp hnode
  split
  · rw [hid]
    exact h.ids i old hold
  · exact h.ids i old hold

/-- Outputs do not touch the nodes. -/
theorem Indexed.setOutputs (h : m.Indexed) (outputs : List Int) :
    (m.setOutputs outputs).Indexed :=
  ⟨h.ids, h.narrow⟩

/-- A payload, accepted or not. -/
theorem Indexed.fillPayload (h : m.Indexed) (id : Int) (data : List α) :
    (m.fillPayload id data).2.Indexed := by
  have hmodify := h.modify id.toNat (fun node => { node with constantData := data })
    (fun _ => rfl)
  unfold Module.fillPayload
  split
  · exact h
  · simp only
    split <;> exact hmodify

/-- A constant with a payload, accepted or not. -/
theorem Indexed.constantWith (h : m.Indexed) (hroom : m.nodes.length < 2 ^ 31)
    (name : String) (shape : Shape) (data : List α) :
    (m.constantWith name shape data).2.Indexed := by
  have hconstant : (m.constant name shape).2.Indexed := h.emit hroom _ _ _ _ _
  exact hconstant.fillPayload _ data

/-- The modules that builder calls make. -/
inductive Built : Module α → Prop where
  | empty : Built {}
  | emit {m : Module α} (h : Built m) (hroom : m.nodes.length < 2 ^ 31) (op : Op)
      (inputs : List Int) (shape : Shape) (attrs : Attrs) (name : String) :
      Built (m.emit op inputs shape attrs name).2
  | constantWith {m : Module α} (h : Built m) (hroom : m.nodes.length < 2 ^ 31)
      (name : String) (shape : Shape) (data : List α) :
      Built (m.constantWith name shape data).2
  | setOutputs {m : Module α} (h : Built m) (outputs : List Int) :
      Built (m.setOutputs outputs)

/-- **Ids are positions** in every module that builder calls make. -/
theorem Built.indexed (h : Built m) : m.Indexed := by
  induction h with
  | empty => exact indexed_empty
  | emit _ hroom op inputs shape attrs name ih => exact ih.emit hroom op inputs shape attrs name
  | constantWith _ hroom name shape data ih => exact ih.constantWith hroom name shape data
  | setOutputs _ outputs ih => exact ih.setOutputs outputs

end Module

end Gpuforge.Compiler

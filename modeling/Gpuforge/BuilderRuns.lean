import Gpuforge.LabelledRun
import Gpuforge.TensorIr

/-!
# Runs of builder calls

A caller builds a module by `parameter`, `constant`, `emit` and `set_outputs`,
in any order and with any arguments, and may go on after a call that threw.

`constant` with a payload appends the node, fills it, and then checks the
length.  Nothing undoes the first two when the check fails, so the rejected
node stays, with its payload.  `builder_runs_iff` says that this is the only
way in which payloads come to differ from their shapes and in which a throwing
call leaves a trace.
-/

namespace Gpuforge.Compiler

open LabelledRun

variable {α : Type}

/-! ## Builder calls -/

inductive BuilderOp (α : Type) where
  | parameter (name : String) (shape : Shape)
  | constant (name : String) (shape : Shape)
  | constantWith (name : String) (shape : Shape) (data : List α)
  | emit (op : Op) (inputs : List Int) (shape : Shape) (attrs : Attrs) (name : String)
  | setOutputs (outputs : List Int)

/-- The caller's view of an operation that returns an id. -/
def withId (result : Except Exn Int × Module α) : Except Exn (Option Int) × Module α :=
  (result.1.map some, result.2)

@[simp] theorem withId_fst (result : Except Exn Int × Module α) :
    (withId result).1 = result.1.map some :=
  rfl

@[simp] theorem withId_snd (result : Except Exn Int × Module α) : (withId result).2 = result.2 :=
  rfl

/-- A call: the id it returns, if it returns one, or what it throws, and the
module afterwards. -/
def BuilderOp.exec (m : Module α) : BuilderOp α → Except Exn (Option Int) × Module α
  | .parameter name shape =>
      ((.ok (some (m.parameter name shape).1)), (m.parameter name shape).2)
  | .constant name shape => ((.ok (some (m.constant name shape).1)), (m.constant name shape).2)
  | .constantWith name shape data => withId (m.constantWith name shape data)
  | .emit op inputs shape attrs name =>
      ((.ok (some (m.emit op inputs shape attrs name).1)), (m.emit op inputs shape attrs name).2)
  | .setOutputs outputs => (.ok none, m.setOutputs outputs)

/-- A constant with a payload is appended and then filled. -/
theorem BuilderOp.exec_constantWith (m : Module α) (name : String) (shape : Shape)
    (data : List α) : (constantWith name shape data).exec m =
      withId ((m.constant name shape).2.fillPayload (m.constant name shape).1 data) := by
  rw [exec, Module.constantWith]

/-- The caller goes on with the module that a call leaves, whether it returned
or threw. -/
def Builds (m : Module α) (op : BuilderOp α) (m' : Module α) : Prop :=
  (op.exec m).2 = m'

/-- What holds of every call of a run, at the module it is made on. -/
def Along (P : Module α → BuilderOp α → Prop) (first : Module α) (ops : List (BuilderOp α)) :
    Prop :=
  ∀ done op rest m, ops = done ++ op :: rest → Run Builds first done m → P m op

/-! ## Payloads and shapes -/

/-- Payloads of constants are empty or have as many entries as the shape. -/
def PayloadsSized (m : Module α) : Prop :=
  ∀ node ∈ m.nodes, node.op = .constant →
    node.constantData = [] ∨ node.constantData.length = node.output.shape.elements

/-- A call that throws leaves the module as it was. -/
def Harmless (m : Module α) (op : BuilderOp α) : Prop :=
  ∀ e, (op.exec m).1 = .error e → (op.exec m).2 = m

/-- A payload is empty or fits the shape of the node that is found under the new
id. -/
def PayloadFits (m : Module α) : BuilderOp α → Prop
  | .constantWith name shape data =>
      ∃ node, (m.constant name shape).2.node (m.constant name shape).1 = some node ∧
        (data = [] ∨ data.length = node.output.shape.elements)
  | _ => True

variable {m : Module α}

/-- Among the first `2^31` nodes the new id is the new node's, so the payload
has to fit the given shape. -/
theorem payloadFits_iff (hroom : m.nodes.length < 2 ^ 31) (name : String) (shape : Shape)
    (data : List α) :
    PayloadFits m (.constantWith name shape data) ↔
      data = [] ∨ data.length = shape.elements := by
  have hfound : ∃ node, (m.constant name shape).2.node (m.constant name shape).1 = some node ∧
      node.output.shape = shape := by
    simp only [Module.constant, Module.emit, Module.node, castInt_of_lt hroom, intAt_natCast,
      List.getElem?_concat_length]
    exact ⟨_, rfl, rfl⟩
  obtain ⟨node, hnode, hshape⟩ := hfound
  unfold PayloadFits
  simp [hnode, hshape]

/-- A new node without payload changes no payload. -/
theorem PayloadsSized.emit (h : PayloadsSized m) (op : Op) (inputs : List Int) (shape : Shape)
    (attrs : Attrs) (name : String) : PayloadsSized (m.emit op inputs shape attrs name).2 := by
  intro node hmem hop
  rcases List.mem_append.mp hmem with hold | hnew
  · exact h node hold hop
  · rw [List.mem_singleton.mp hnew]
    exact Or.inl rfl

/-- A payload that is found a place and fits is accepted, and payloads stay
sized. -/
theorem PayloadsSized.fillPayload (h : PayloadsSized m) {id : Int} {data : List α}
    {node : Node α} (hnode : m.node id = some node)
    (hfits : data = [] ∨ data.length = node.output.shape.elements) :
    (m.fillPayload id data).1 = .ok id ∧ PayloadsSized (m.fillPayload id data).2 := by
  have hcheck : ¬ (data ≠ [] ∧ data.length ≠ node.output.shape.elements) := by
    intro hbad
    exact hfits.elim hbad.1 hbad.2
  simp only [Module.fillPayload, hnode, if_neg hcheck, true_and]
  intro node' hmem hop
  obtain ⟨i, hi⟩ := List.mem_iff_getElem?.mp hmem
  rw [List.getElem?_modify] at hi
  obtain ⟨old, hold, rfl⟩ := Option.map_eq_some_iff.mp hi
  obtain ⟨v, rfl, hv⟩ := intAt_eq_some hnode
  by_cases heq : (v : Int).toNat = i
  · -- the node under the id, which has the checked shape
    rw [if_pos heq]
    rw [Int.toNat_natCast] at heq
    rw [← heq, hv, Option.some.injEq] at hold
    subst hold
    exact hfits
  · rw [if_neg heq] at hop ⊢
    exact h old (List.mem_of_getElem? hold) hop

/-- A payload that finds no place or does not fit is rejected. -/
theorem fillPayload_rejects {id : Int} {data : List α}
    (hfits : ¬ ∃ node, m.node id = some node ∧
      (data = [] ∨ data.length = node.output.shape.elements)) :
    ∃ e, (m.fillPayload id data).1 = .error e := by
  unfold Module.fillPayload
  split
  · exact ⟨_, rfl⟩
  · rename_i node hnode
    have hbad : data ≠ [] ∧ data.length ≠ node.output.shape.elements := by
      constructor
      · exact fun hnil => hfits ⟨node, hnode, Or.inl hnil⟩
      · exact fun hlength => hfits ⟨node, hnode, Or.inr hlength⟩
    exact ⟨.invalidArgument, by simp only [if_pos hbad]⟩

/-- Filling adds and removes no node. -/
theorem fillPayload_nodes_length (m : Module α) (id : Int) (data : List α) :
    (m.fillPayload id data).2.nodes.length = m.nodes.length := by
  unfold Module.fillPayload
  split
  · rfl
  · simp only
    split <;> exact List.length_modify ..

/-- A new node is one node more. -/
theorem emit_nodes_length (m : Module α) (op : Op) (inputs : List Int) (shape : Shape)
    (attrs : Attrs) (name : String) :
    (m.emit op inputs shape attrs name).2.nodes.length = m.nodes.length + 1 := by
  simp [Module.emit]

/-! ## One call -/

/-- **A call that fits** returns, and payloads stay sized. -/
theorem PayloadsSized.exec (h : PayloadsSized m) {op : BuilderOp α} (hfits : PayloadFits m op) :
    (∃ id, (op.exec m).1 = .ok id) ∧ PayloadsSized (op.exec m).2 := by
  cases op with
  | parameter name shape => exact ⟨⟨_, rfl⟩, h.emit .parameter [] shape [] name⟩
  | constant name shape => exact ⟨⟨_, rfl⟩, h.emit .constant [] shape [] name⟩
  | constantWith name shape data =>
      obtain ⟨node, hnode, hlength⟩ := hfits
      have hconstant : PayloadsSized (m.constant name shape).2 :=
        h.emit .constant [] shape [] name
      obtain ⟨hok, hsized⟩ := hconstant.fillPayload hnode hlength
      rw [BuilderOp.exec_constantWith, withId_fst, withId_snd, hok]
      exact ⟨⟨_, rfl⟩, hsized⟩
  | emit op inputs shape attrs name => exact ⟨⟨_, rfl⟩, h.emit op inputs shape attrs name⟩
  | setOutputs outputs => exact ⟨⟨_, rfl⟩, h⟩

/-- **A call that does not fit** throws and leaves a node behind. -/
theorem not_harmless {op : BuilderOp α} (hfits : ¬ PayloadFits m op) : ¬ Harmless m op := by
  intro hharmless
  cases op with
  | constantWith name shape data =>
      obtain ⟨e, herror⟩ := fillPayload_rejects hfits
      have hsame := hharmless e (by rw [BuilderOp.exec_constantWith, withId_fst, herror]; rfl)
      have hlength := fillPayload_nodes_length (m.constant name shape).2
        (m.constant name shape).1 data
      rw [BuilderOp.exec_constantWith, withId_snd] at hsame
      rw [hsame, Module.constant, emit_nodes_length] at hlength
      omega
  | parameter name shape => exact hfits trivial
  | constant name shape => exact hfits trivial
  | emit op inputs shape attrs name => exact hfits trivial
  | setOutputs outputs => exact hfits trivial

/-- A call adds at most one node. -/
theorem BuilderOp.exec_nodes_length (m : Module α) (op : BuilderOp α) :
    (op.exec m).2.nodes.length ≤ m.nodes.length + 1 := by
  cases op with
  | parameter name shape => exact Nat.le_of_eq (emit_nodes_length m .parameter [] shape [] name)
  | constant name shape => exact Nat.le_of_eq (emit_nodes_length m .constant [] shape [] name)
  | constantWith name shape data =>
      rw [exec_constantWith, withId_snd, fillPayload_nodes_length, Module.constant,
        emit_nodes_length]
  | emit op inputs shape attrs name =>
      exact Nat.le_of_eq (emit_nodes_length m op inputs shape attrs name)
  | setOutputs outputs => exact Nat.le_succ _

/-! ## Runs -/

/-- A run adds at most one node a call. -/
theorem run_nodes_length {first last : Module α} {ops : List (BuilderOp α)}
    (hrun : Run Builds first ops last) :
    last.nodes.length ≤ first.nodes.length + ops.length := by
  induction hrun with
  | start => exact Nat.le_refl _
  | @extend labels m m' op before step ih =>
      have hlength := op.exec_nodes_length m
      rw [Builds] at step
      rw [step] at hlength
      rw [List.length_append, List.length_singleton]
      omega

/-- In a run that stays below `2^31` nodes payloads fit when they are empty or
as long as the shapes they are given with. -/
theorem along_payloadFits {first : Module α} {ops : List (BuilderOp α)}
    (hroom : first.nodes.length + ops.length < 2 ^ 31)
    (hlengths : ∀ name shape data, .constantWith name shape data ∈ ops →
      data = [] ∨ data.length = shape.elements) : Along PayloadFits first ops := by
  intro done op rest m hsplit hdone
  have hlength := run_nodes_length hdone
  rw [hsplit, List.length_append, List.length_cons] at hroom
  cases op with
  | constantWith name shape data =>
      rw [payloadFits_iff (by omega)]
      exact hlengths name shape data (by simp [hsplit])
  | parameter name shape => trivial
  | constant name shape => trivial
  | emit op inputs shape attrs name => trivial
  | setOutputs outputs => trivial

/-- In a run of calls that fit, payloads are sized. -/
theorem PayloadsSized.run {first last : Module α} {ops : List (BuilderOp α)}
    (h : PayloadsSized first) (hrun : Run Builds first ops last)
    (hfits : Along PayloadFits first ops) : PayloadsSized last := by
  induction hrun with
  | start => exact h
  | @extend labels m m' op before step ih =>
      have hbefore : Along PayloadFits first labels := by
        intro done op' rest m₁ hsplit hdone
        exact hfits done op' (rest ++ [op]) m₁ (by simp [hsplit]) hdone
      have hlast := hfits labels op [] m rfl before
      have hexec := ((ih hbefore).exec hlast).2
      rw [Builds] at step
      rw [← step]
      exact hexec

/-- **Runs of builder calls.**  From a module with sized payloads: payloads are
sized in every state of a run and every throwing call leaves the module as it
was, exactly when every payload is empty or fits the shape of its node. -/
theorem builder_runs_iff {first last : Module α} {ops : List (BuilderOp α)}
    (h : PayloadsSized first) (hrun : Run Builds first ops last) :
    (PayloadsSized last ∧ Along (fun m op => PayloadsSized m ∧ Harmless m op) first ops) ↔
      Along PayloadFits first ops := by
  constructor
  · intro hall done op rest m hsplit hdone
    by_contra hfits
    exact not_harmless hfits (hall.2 done op rest m hsplit hdone).2
  · intro hfits
    refine ⟨h.run hrun hfits, ?_⟩
    intro done op rest m hsplit hdone
    have hprefix : Along PayloadFits first done := by
      intro done' op' rest' m' hsplit' hdone'
      exact hfits done' op' (rest' ++ op :: rest) m' (by simp [hsplit, hsplit']) hdone'
    have hsized := h.run hdone hprefix
    obtain ⟨⟨id, hok⟩, _⟩ := hsized.exec (hfits done op rest m hsplit hdone)
    refine ⟨hsized, ?_⟩
    intro e herror
    rw [hok] at herror
    cases herror

/-- A constant with its two entries, a `Relu` of it, and outputs. -/
theorem builder_runs_iff_example :
    let shape : Shape := { dims := [2] }
    let ops : List (BuilderOp Int) :=
      [.constantWith "c" shape [1, 2], .emit .relu [0] shape [] "", .setOutputs [1]]
    ∃ last, Run Builds {} ops last ∧ PayloadsSized last ∧
      Along (fun m op => PayloadsSized m ∧ Harmless m op) {} ops := by
  intro shape ops
  have hrun : Run Builds {} ops _ := .extend (.extend (.extend .start rfl) rfl) rfl
  have hfits : Along PayloadFits ({} : Module Int) ops := by
    have hroom : ({} : Module Int).nodes.length + ops.length < 2 ^ 31 :=
      show 0 + 3 < 2 ^ 31 by omega
    apply along_payloadFits hroom
    intro name shape' data hmem
    simp only [ops, List.mem_cons, List.not_mem_nil, or_false, BuilderOp.constantWith.injEq,
      reduceCtorEq] at hmem
    obtain ⟨_, rfl, rfl⟩ := hmem
    exact Or.inr rfl
  exact ⟨_, hrun, (builder_runs_iff (by intro node hmem; cases hmem) hrun).mpr hfits⟩

/-- Three entries for a shape of two: the call throws, and the node stays with
its payload. -/
theorem rejected_constant_stays :
    ¬ ∀ (ops : List (BuilderOp Int)) (last : Module Int), Run Builds {} ops last →
      PayloadsSized last ∧ Along (fun m op => PayloadsSized m ∧ Harmless m op) {} ops := by
  intro hall
  let op : BuilderOp Int := .constantWith "c" { dims := [2] } [1, 2, 3]
  have hrun : Run Builds {} [op] _ := .single rfl
  have hharmless := ((hall [op] _ hrun).2 [] op [] {} rfl .start).2
  have hroom : ({} : Module Int).nodes.length < 2 ^ 31 := show 0 < 2 ^ 31 by omega
  refine not_harmless ?_ hharmless
  rw [payloadFits_iff hroom]
  decide

end Gpuforge.Compiler

import Gpuforge.ConstantFolding
import Gpuforge.DeadCodeElimination

/-!
# Sequences of passes

Two more passes of the `PassManager`: `infer_layout` marks rank 2 products as
tiled, and `canonicalize` does nothing.  Callers run the four passes in any
order.

What `validate` checks of a node are its own operator, inputs and dims and the
dims of its operands.  `Accepted.carried` says so once: a module whose nodes
come from the nodes of an accepted module, each with the dims it had and either
a leaf or over the renamed operands, is accepted.  Every pass is of this kind,
so sequences of passes keep modules valid (`passes_valid`).  They need ids that are
positions: without, dead code elimination can break a module (`passes_swapped_ids`).
-/

namespace Gpuforge.Compiler

variable {α : Type}

/-! ## The passes -/

/-- The body of `infer_layout`. -/
def Node.tiled (node : Node α) : Node α :=
  if node.op = .matMul ∧ node.output.shape.dims.length = 2 then
    { node with
      output := { node.output with shape := { node.output.shape with layout := .tiled16 } } }
  else node

def Module.inferLayout (m : Module α) : Module α :=
  { m with nodes := m.nodes.map Node.tiled }

def Module.canonicalize (m : Module α) : Module α := m

/-- The passes of `PassManager` that edit a module. -/
inductive Pass where
  | constantFold
  | inferLayout
  | canonicalize
  | deadCodeEliminate
  deriving DecidableEq, Repr

/-- One pass; `none` when it throws or subscripts out of range. -/
def Pass.apply (s : Scalar α) (m : Module α) : Pass → Option (Module α)
  | .constantFold =>
      match m.constantFold s with
      | (.ok _, m') => some m'
      | (.error _, _) => none
  | .inferLayout => some m.inferLayout
  | .canonicalize => some m.canonicalize
  | .deadCodeEliminate => m.deadCodeEliminate.map Prod.snd

/-- Passes one after the other. -/
def runPasses (s : Scalar α) : List Pass → Module α → Option (Module α)
  | [], m => some m
  | pass :: rest, m =>
      match pass.apply s m with
      | none => none
      | some m' => runPasses s rest m'

/-! ## What `validate` looks at -/

variable {m m' : Module α} {node node' : Node α}

/-- No messages about any node, no messages. -/
theorem errorsOf_eq_nil : ∀ nodes : List (Node α),
    (∀ node ∈ nodes, nodeErrors m node = .ok []) → errorsOf m nodes = .ok [] := by
  intro nodes
  induction nodes with
  | nil => exact fun _ => rfl
  | cons node rest ih =>
      intro h
      have hrest := ih fun node' hnode' => h node' (List.mem_cons_of_mem _ hnode')
      simp [errorsOf, h node List.mem_cons_self, hrest]

/-- A leaf is checked for having no inputs only. -/
theorem nodeErrors_leaf (hop : node.op = .constant) (hinputs : node.inputs = []) :
    nodeErrors m node = .ok [] := by
  simp [nodeErrors, matmulErrors, elementwiseErrors, arityErrors, inputErrors, hop, hinputs,
    expectedInputs]

/-- Right arity, no message. -/
theorem arityErrors_eq_nil (h : node.inputs.length = expectedInputs node.op) :
    arityErrors node = [] := by
  simp [arityErrors, h]

/-- Inputs with smaller ids, no message. -/
theorem inputErrors_eq_nil (h : ∀ input ∈ node.inputs, 0 ≤ input ∧ input < node.id) :
    inputErrors node = [] := by
  rw [inputErrors, List.map_eq_nil_iff, List.filter_eq_nil_iff]
  intro input hinput
  have hbounds := h input hinput
  simp only [decide_eq_true_eq]
  omega

/-- A shape rule that gets the dims of the result from the dims of the
operands. -/
def OnDims (infer : Shape → Shape → ShapeResult) : Prop :=
  ∀ {lhs rhs lhs' rhs' shape : Shape}, lhs'.dims = lhs.dims → rhs'.dims = rhs.dims →
    infer lhs rhs = .ok shape → ∃ shape', infer lhs' rhs' = .ok shape' ∧ shape'.dims = shape.dims

/-- The rule of `MatMul` is of this kind. -/
theorem inferMatmul_onDims : OnDims inferMatmul := by
  intro lhs rhs lhs' rhs' shape hlhs hrhs h
  unfold inferMatmul at h ⊢
  rw [hlhs, hrhs]
  split at h
  · split at h
    · cases h
    · rename_i hvalid
      split at h
      · cases h
      · rename_i hinner
        cases h
        exact ⟨_, (if_neg hvalid).trans (if_neg hinner), rfl⟩
  · cases h

/-- So is the rule of `Add` and `Mul`. -/
theorem inferBroadcast_onDims : OnDims inferBroadcast := by
  intro lhs rhs lhs' rhs' shape hlhs hrhs h
  unfold inferBroadcast at h ⊢
  rw [hlhs, hrhs]
  split at h
  · cases h
  · rename_i hvalid
    split at h
    · cases h
    · cases h
      exact ⟨_, if_neg hvalid, rfl⟩

/-- Where a node of `m'` comes from: it is a leaf, or it has the operator and
the dims of a node of `m`, and its operands are those of that node, with the
dims they had, under earlier positions. -/
inductive Carried (m m' : Module α) (rename : Nat → Nat) (node node' : Node α) : Prop where
  | leaf (hop : node'.op = .constant) (hinputs : node'.inputs = [])
  | same (hop : node'.op = node.op) (hdims : node'.output.shape.dims = node.output.shape.dims)
      (hinputs : node'.inputs = node.inputs.map fun input => (rename input.toNat : Int))
      (hoperands : ∀ (u : Nat) operand, (u : Int) ∈ node.inputs →
        m.nodes[u]? = some operand → ((rename u : Nat) : Int) < node'.id ∧
          ∃ operand', m'.nodes[rename u]? = some operand' ∧
            operand'.output.shape.dims = operand.output.shape.dims)

/-- A binary check that passes is passed again by a carried node. -/
theorem Accepted.binary_carried (h : Accepted m) {rename : Nat → Nat} {v : Nat}
    (hnode : m.nodes[v]? = some node) (hlength : node.inputs.length = 2)
    (hdims : node'.output.shape.dims = node.output.shape.dims)
    (hinputs : node'.inputs = node.inputs.map fun input => (rename input.toNat : Int))
    (hoperands : ∀ (u : Nat) operand, (u : Int) ∈ node.inputs → m.nodes[u]? = some operand →
      ((rename u : Nat) : Int) < node'.id ∧
        ∃ operand', m'.nodes[rename u]? = some operand' ∧
          operand'.output.shape.dims = operand.output.shape.dims)
    {label : String} {infer : Shape → Shape → ShapeResult} (hinfer : OnDims infer)
    (hcheck : binaryErrors m label infer node = .ok []) :
    binaryErrors m' label infer node' = .ok [] := by
  obtain ⟨first, second, hpair⟩ := List.length_eq_two.mp hlength
  obtain ⟨a, rfl, ha⟩ := h.earlier hnode (show first ∈ node.inputs by simp [hpair])
  obtain ⟨b, rfl, hb⟩ := h.earlier hnode (show second ∈ node.inputs by simp [hpair])
  have hid := h.indexed.ids v node hnode
  obtain ⟨lhs, hlhs⟩ := h.operand hnode (show (a : Int) ∈ node.inputs by simp [hpair])
  obtain ⟨rhs, hrhs⟩ := h.operand hnode (show (b : Int) ∈ node.inputs by simp [hpair])
  obtain ⟨shape, hshape, hdeclared⟩ := dims_of_binaryErrors hcheck hpair ⟨by omega, by omega⟩
    ⟨by omega, by omega⟩ (by rw [Module.node, intAt_natCast]; exact hlhs)
    (by rw [Module.node, intAt_natCast]; exact hrhs)
  obtain ⟨halt, lhs', hlhs', hleft⟩ := hoperands a _ (by simp [hpair]) hlhs
  obtain ⟨hblt, rhs', hrhs', hright⟩ := hoperands b _ (by simp [hpair]) hrhs
  obtain ⟨shape', hshape', hsame⟩ := hinfer hleft hright hshape
  have hpair' : node'.inputs = [(rename a : Int), (rename b : Int)] := by simp [hinputs, hpair]
  simp only [binaryErrors, hpair', Module.node, intAt_natCast, hlhs', hrhs', hshape']
  rw [if_pos ⟨by omega, halt, by omega, hblt⟩, if_neg]
  rw [hdims, hdeclared, hsame]
  exact fun hne => hne rfl

/-- A carried node passes all checks. -/
theorem Accepted.nodeErrors_carried (h : Accepted m) {rename : Nat → Nat} {v : Nat}
    (hnode : m.nodes[v]? = some node) (hc : Carried m m' rename node node') :
    nodeErrors m' node' = .ok [] := by
  cases hc with
  | leaf hop hinputs => exact nodeErrors_leaf hop hinputs
  | same hop hdims hinputs hoperands =>
      obtain ⟨_, _, hmatmul, helementwise⟩ := h.checks hnode
      have harity := h.arity hnode
      have harity' : arityErrors node' = [] := by
        apply arityErrors_eq_nil
        rw [hinputs, List.length_map, harity, hop]
      have hinput' : inputErrors node' = [] := by
        apply inputErrors_eq_nil
        intro input hinput
        rw [hinputs] at hinput
        obtain ⟨old, hold, rfl⟩ := List.mem_map.mp hinput
        obtain ⟨u, rfl, hu⟩ := h.earlier hnode hold
        obtain ⟨operand, hoperand⟩ := h.operand hnode hold
        obtain ⟨hlt, _⟩ := hoperands u operand hold hoperand
        exact ⟨by omega, hlt⟩
      have hmatmul' : matmulErrors m' node' = .ok [] := by
        unfold matmulErrors at hmatmul ⊢
        rw [hop]
        by_cases hm : node.op = .matMul
        · rw [if_pos hm] at hmatmul ⊢
          rw [hm] at harity
          exact h.binary_carried hnode harity hdims hinputs hoperands inferMatmul_onDims hmatmul
        · rw [if_neg hm]
      have helementwise' : elementwiseErrors m' node' = .ok [] := by
        unfold elementwiseErrors at helementwise ⊢
        rw [hop]
        by_cases he : node.op = .add ∨ node.op = .mul
        · rw [if_pos he] at helementwise ⊢
          have hlength : node.inputs.length = 2 := by
            rcases he with he | he <;> rw [harity, he] <;> rfl
          exact h.binary_carried hnode hlength hdims hinputs hoperands inferBroadcast_onDims
            helementwise
        · rw [if_neg he]
      simp [nodeErrors, hmatmul', helementwise', harity', hinput']

/-- The inputs of a node of an accepted module are positions. -/
theorem Accepted.inputs_self (h : Accepted m) {v : Nat} (hnode : m.nodes[v]? = some node) :
    node.inputs = node.inputs.map fun input => (input.toNat : Int) := by
  have hself : node.inputs.map (fun input => (input.toNat : Int)) = node.inputs.map id := by
    apply List.map_congr_left
    intro input hinput
    obtain ⟨u, rfl, _⟩ := h.earlier hnode hinput
    rfl
  rw [hself, List.map_id]

/-- **Carried modules are accepted.** -/
theorem Accepted.carried (h : Accepted m) (hindexed : m'.Indexed) (rename : Nat → Nat)
    (hcarried : ∀ node' ∈ m'.nodes, ∃ (v : Nat) (node : Node α),
      m.nodes[v]? = some node ∧ Carried m m' rename node node') : Accepted m' := by
  refine ⟨hindexed, errorsOf_eq_nil m'.nodes ?_⟩
  intro node' hmem
  obtain ⟨v, node, hnode, hc⟩ := hcarried node' hmem
  exact h.nodeErrors_carried hnode hc

/-! ## Each pass -/

/-- Folding leaves ids alone. -/
@[simp] theorem Node.after_id (node : Node α) (folded : Option (List α)) :
    (node.after folded).id = node.id := by
  cases folded <;> rfl

/-- A node of the folded module comes from its position. -/
theorem Folded.origin {s : Scalar α} (hf : Folded s m m') {v : Nat}
    (hnode' : m'.nodes[v]? = some node') : ∃ node folded, m.nodes[v]? = some node ∧
      foldedData s m' node = .ok folded ∧ node' = node.after folded := by
  have hv := (List.getElem?_eq_some_iff.mp hnode').1
  rw [hf.size] at hv
  obtain ⟨folded, hfolded, hafter⟩ := hf.turns v m.nodes[v] (List.getElem?_eq_getElem hv)
  rw [hnode', Option.some.injEq] at hafter
  exact ⟨m.nodes[v], folded, List.getElem?_eq_getElem hv, hfolded, hafter⟩

/-- Folding keeps ids positions. -/
theorem Folded.indexed {s : Scalar α} (hf : Folded s m m') (h : m.Indexed) : m'.Indexed := by
  refine ⟨?_, by rw [hf.size]; exact h.narrow⟩
  intro v node' hnode'
  obtain ⟨node, folded, hnode, _, rfl⟩ := hf.origin hnode'
  rw [Node.after_id]
  exact h.ids v node hnode

/-- `constant_fold` keeps a module accepted. -/
theorem Accepted.fold_accepted {s : Scalar α} (h : Accepted m) (hf : Folded s m m') :
    Accepted m' := by
  apply h.carried (hf.indexed h.indexed) id
  intro node' hmem
  obtain ⟨v, hnode'⟩ := List.mem_iff_getElem?.mp hmem
  obtain ⟨node, folded, hnode, _, rfl⟩ := hf.origin hnode'
  refine ⟨v, node, hnode, ?_⟩
  cases folded with
  | some data => exact .leaf rfl rfl
  | none =>
      refine .same rfl rfl (h.inputs_self hnode) ?_
      intro u operand hu hoperand
      obtain ⟨u', hu', hlt⟩ := h.earlier hnode hu
      obtain ⟨folded', _, hoperand'⟩ := hf.turns u operand hoperand
      refine ⟨?_, _, hoperand', by rw [Node.after_output]⟩
      rw [Node.after_id, h.indexed.ids v node hnode]
      simp only [id]
      omega

@[simp] theorem Node.tiled_id (node : Node α) : node.tiled.id = node.id := by
  unfold Node.tiled
  split <;> rfl

@[simp] theorem Node.tiled_op (node : Node α) : node.tiled.op = node.op := by
  unfold Node.tiled
  split <;> rfl

@[simp] theorem Node.tiled_inputs (node : Node α) : node.tiled.inputs = node.inputs := by
  unfold Node.tiled
  split <;> rfl

@[simp] theorem Node.tiled_dims (node : Node α) :
    node.tiled.output.shape.dims = node.output.shape.dims := by
  unfold Node.tiled
  split <;> rfl

/-- `infer_layout` keeps ids positions. -/
theorem Module.Indexed.inferLayout (h : m.Indexed) : m.inferLayout.Indexed := by
  refine ⟨?_, by simpa [Module.inferLayout] using h.narrow⟩
  intro v node' hnode'
  rw [Module.inferLayout, List.getElem?_map] at hnode'
  obtain ⟨node, hnode, rfl⟩ := Option.map_eq_some_iff.mp hnode'
  rw [Node.tiled_id]
  exact h.ids v node hnode

/-- `infer_layout` keeps a module accepted. -/
theorem Accepted.layout_accepted (h : Accepted m) : Accepted m.inferLayout := by
  apply h.carried h.indexed.inferLayout id
  intro node' hmem
  obtain ⟨node, hnode, rfl⟩ := List.mem_map.mp hmem
  obtain ⟨v, hnode⟩ := List.mem_iff_getElem?.mp hnode
  refine ⟨v, node, hnode, ?_⟩
  have hinputs : node.tiled.inputs = node.inputs.map fun input => (input.toNat : Int) := by
    rw [Node.tiled_inputs]
    exact h.inputs_self hnode
  refine .same node.tiled_op node.tiled_dims hinputs ?_
  intro u operand hu hoperand
  obtain ⟨u', hu', hlt⟩ := h.earlier hnode hu
  refine ⟨?_, operand.tiled, ?_, operand.tiled_dims⟩
  · rw [Node.tiled_id, h.indexed.ids v node hnode]
    simp only [id]
    omega
  · simp only [id, Module.inferLayout, List.getElem?_map, hoperand, Option.map_some]

/-- `dead_code_eliminate` keeps a module accepted. -/
theorem Accepted.dce_accepted (h : Accepted m) {rename : Nat → Nat}
    (hr : Renumbered m m' rename) : Accepted m' := by
  apply h.carried hr.indexed rename
  intro node' hmem
  obtain ⟨j, hnode'⟩ := List.mem_iff_getElem?.mp hmem
  obtain ⟨v, hv, rfl⟩ := hr.onto j (List.getElem?_eq_some_iff.mp hnode').1
  obtain ⟨node, hnode⟩ : ∃ node, m.nodes[v]? = some node := ⟨_, List.getElem?_eq_getElem hv.lt⟩
  obtain ⟨kept, hkept, hop, _, hshape, _, _, hinputs⟩ := hr.kept v _ hv hnode
  rw [hnode', Option.some.injEq] at hkept
  subst hkept
  refine ⟨v, _, hnode, .same hop (by rw [hshape]) hinputs ?_⟩
  intro u operand hu hoperand
  obtain ⟨u', hu', hlt, hlive⟩ := h.input_live hv hnode hu
  cases Int.ofNat.inj hu'
  obtain ⟨operand', hoperand', _, _, hshape', _, _, _⟩ := hr.kept u operand hlive hoperand
  refine ⟨?_, operand', hoperand', by rw [hshape']⟩
  rw [hr.indexed.ids _ node' hnode']
  exact Int.ofNat_lt.mpr (hr.ordered u v hlive hv hlt)

/-- Renumbered outputs are positions. -/
theorem Renumbered.outputsInRange {rename : Nat → Nat} (hr : Renumbered m m' rename)
    (hrange : OutputsInRange m) : OutputsInRange m' := by
  intro output' hmem
  rw [hr.outputs] at hmem
  obtain ⟨output, houtput, rfl⟩ := List.mem_map.mp hmem
  obtain ⟨v, rfl, hv⟩ := hrange.live houtput
  obtain ⟨node', hnode', _⟩ := hr.kept v _ hv (List.getElem?_eq_getElem hv.lt)
  have hlt := (List.getElem?_eq_some_iff.mp hnode').1
  rw [Int.toNat_natCast]
  exact ⟨by omega, by omega⟩

/-! ## Sequences -/

/-- What every pass preserves. -/
structure Valid (m : Module α) : Prop where
  accepted : Accepted m
  inRange : OutputsInRange m

/-- **One pass.**  It returns, and a valid module stays valid with as many
outputs. -/
theorem Valid.apply (h : Valid m) (s : Scalar α) (pass : Pass) :
    ∃ m', pass.apply s m = some m' ∧ Valid m' ∧ m'.outputs.length = m.outputs.length := by
  cases pass with
  | constantFold =>
      obtain ⟨m', hfold, hf⟩ := h.accepted.folded (s := s)
      refine ⟨m', by rw [Pass.apply, hfold], ⟨h.accepted.fold_accepted hf, ?_⟩, by rw [hf.outputs]⟩
      intro output hmem
      rw [hf.outputs] at hmem
      rw [hf.size]
      exact h.inRange output hmem
  | inferLayout =>
      refine ⟨m.inferLayout, rfl, ⟨h.accepted.layout_accepted, ?_⟩, rfl⟩
      intro output hmem
      rw [Module.inferLayout, List.length_map]
      exact h.inRange output hmem
  | canonicalize => exact ⟨m, rfl, h, rfl⟩
  | deadCodeEliminate =>
      by_cases hne : m.outputs = []
      · refine ⟨m, ?_, h, rfl⟩
        rw [Pass.apply, Module.deadCodeEliminate, if_pos hne, Option.map_some]
      · obtain ⟨removed, m', rename, hdce, hr⟩ := h.accepted.renumbered hne h.inRange
        refine ⟨m', by rw [Pass.apply, hdce, Option.map_some], ?_, ?_⟩
        · exact ⟨h.accepted.dce_accepted hr, hr.outputsInRange h.inRange⟩
        · rw [hr.outputs, List.length_map]

/-- **Passes keep modules valid.**  Any sequence of passes over an accepted
module with outputs in range returns; the module it leaves is accepted, its ids
are its positions, and it has as many outputs, in range. -/
theorem passes_valid (s : Scalar α) (passes : List Pass) (m : Module α) (h : Accepted m)
    (hrange : OutputsInRange m) :
    ∃ m', runPasses s passes m = some m' ∧ validate m' = .ok [] ∧
      (∀ (i : Nat) (node : Node α), m'.nodes[i]? = some node → node.id = i) ∧
      m'.outputs.length = m.outputs.length ∧ OutputsInRange m' := by
  have hvalid : Valid m := ⟨h, hrange⟩
  clear h hrange
  induction passes generalizing m with
  | nil =>
      exact ⟨m, rfl, hvalid.accepted.valid, hvalid.accepted.indexed.ids, rfl, hvalid.inRange⟩
  | cons pass rest ih =>
      obtain ⟨m₁, hpass, hvalid₁, hlength₁⟩ := hvalid.apply s pass
      obtain ⟨m', hrun, hm', hids, hlength, hrange⟩ := ih m₁ hvalid₁
      refine ⟨m', ?_, hm', hids, hlength.trans hlength₁, hrange⟩
      rw [runPasses, hpass]
      exact hrun

/-- A constant under a `Relu`, a product, and a dead node, through five
passes. -/
theorem passes_valid_example :
    let s : Scalar Int := ⟨0, 0, 1, 2, (· + ·), (· * ·), (· / ·), max, id, id⟩
    let shape : Shape := { dims := [1, 2] }
    let m : Module Int :=
      ⟨[⟨0, .parameter, [], ⟨0, { dims := [2, 1] }, "x"⟩, [], []⟩,
        ⟨1, .constant, [], ⟨1, shape, "c"⟩, [], [-3, 4]⟩,
        ⟨2, .relu, [1], ⟨2, shape, "v2"⟩, [], []⟩,
        ⟨3, .matMul, [0, 2], ⟨3, { dims := [2, 2] }, "v3"⟩, [], []⟩], [3]⟩
    ∃ m', runPasses s [.inferLayout, .constantFold, .deadCodeEliminate, .constantFold,
        .canonicalize] m = some m' ∧ validate m' = .ok [] ∧ m'.outputs = [2] := by
  intro s shape m
  have haccepted : Accepted m :=
    ⟨Module.indexed_of_ids rfl (show 4 ≤ 2 ^ 31 by omega), rfl⟩
  have hrange : OutputsInRange m := by
    intro output hmem
    rw [List.mem_singleton.mp hmem]
    decide
  obtain ⟨m', hrun, hvalid, _⟩ := passes_valid s [.inferLayout, .constantFold,
    .deadCodeEliminate, .constantFold, .canonicalize] m haccepted hrange
  refine ⟨m', hrun, hvalid, ?_⟩
  have houtputs : (runPasses s [.inferLayout, .constantFold, .deadCodeEliminate,
      .constantFold, .canonicalize] m).map Module.outputs = some [2] := by decide +kernel
  rw [hrun] at houtputs
  exact Option.some.inj houtputs

/-- **A pass can break a module whose ids are not positions.**  What dead code
elimination makes of `swappedIds` has the input id -1, and `validate` rejects it. -/
theorem passes_swapped_ids :
    ¬ ∀ (s : Scalar Int) (passes : List Pass) (m : Module Int), validate m = .ok [] →
      OutputsInRange m → ∃ m', runPasses s passes m = some m' ∧ validate m' = .ok [] := by
  intro hclaim
  let s : Scalar Int := ⟨0, 0, 1, 2, (· + ·), (· * ·), (· / ·), max, id, id⟩
  obtain ⟨m', hrun, hvalid⟩ := hclaim s [.deadCodeEliminate] swappedIds rfl swappedIds_inRange
  have hcompute : runPasses s [.deadCodeEliminate] swappedIds = some
      ⟨[⟨0, .parameter, [], ⟨0, { dims := [2] }, "x"⟩, [], []⟩,
        ⟨1, .gelu, [-1], ⟨1, { dims := [2] }, "v2"⟩, [], []⟩], [1]⟩ := by decide +kernel
  rw [hcompute] at hrun
  cases hrun
  cases hvalid

end Gpuforge.Compiler

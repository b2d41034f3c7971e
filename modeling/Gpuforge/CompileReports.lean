import Gpuforge.CompileIdempotence

/-!
# What a compile report describes

A report must never describe executable work for malformed IR.  `validate`
checks the dims of `MatMul`, `Add` and `Mul` against their operands.  For the
other operators with an operand it checks the number of inputs only, though
`infer_reshape` and `infer_reduce` exist, so a report describes well-formed
work exactly when those operators happen to be shaped by their rules
(`report_formed_iff`).
-/

namespace Gpuforge.Compiler

variable {α δ : Type} {m : Module α} {node : Node α}

/-! ## Shape rules -/

/-- The operators whose value has the dims of the operand. -/
abbrev KeepsDims (op : Op) : Prop :=
  op = .relu ∨ op = .gelu ∨ op = .cast ∨ op = .softmax

/-- The shape rules that `validate` leaves out. -/
structure FollowsInput (m : Module α) (node : Node α) : Prop where
  dims : KeepsDims node.op → ∃ input, node.inputs.map m.node = [some input] ∧
    node.output.shape.dims = input.output.shape.dims
  reshape : node.op = .reshape → ∃ input, node.inputs.map m.node = [some input] ∧
    node.output.shape.elements = input.output.shape.elements
  reduce : node.op = .reduceSum → ∃ input axis keep shape,
    node.inputs.map m.node = [some input] ∧
    inferReduce input.output.shape axis keep = .ok shape ∧
    node.output.shape.dims = shape.dims

/-- A well-formed node: earlier inputs, as many as the operator takes, and the
dims that the rule of the operator gives. -/
structure Formed (m : Module α) (node : Node α) : Prop where
  earlier : ∀ input ∈ node.inputs, 0 ≤ input ∧ input < node.id
  arity : node.inputs.length = expectedInputs node.op
  matmul : node.op = .matMul → ∃ lhs rhs shape,
    node.inputs.map m.node = [some lhs, some rhs] ∧
    inferMatmul lhs.output.shape rhs.output.shape = .ok shape ∧
    node.output.shape.dims = shape.dims
  broadcast : node.op = .add ∨ node.op = .mul → ∃ lhs rhs shape,
    node.inputs.map m.node = [some lhs, some rhs] ∧
    inferBroadcast lhs.output.shape rhs.output.shape = .ok shape ∧
    node.output.shape.dims = shape.dims
  followsInput : FollowsInput m node

/-- A binary check that passes finds two operands and their shape. -/
theorem Accepted.binary_formed (h : Accepted m) {v : Nat} (hnode : m.nodes[v]? = some node)
    (harity : expectedInputs node.op = 2) {label : String}
    {infer : Shape → Shape → ShapeResult} (hcheck : binaryErrors m label infer node = .ok []) :
    ∃ lhs rhs shape, node.inputs.map m.node = [some lhs, some rhs] ∧
      infer lhs.output.shape rhs.output.shape = .ok shape ∧
      node.output.shape.dims = shape.dims := by
  obtain ⟨a, b, lhs, rhs, hpair, ha, hb, hlhs, hrhs⟩ := h.twoOperands hnode harity
  have hid := h.indexed.ids v node hnode
  rw [← intAt_natCast] at hlhs hrhs
  obtain ⟨shape, hshape, hdims⟩ := dims_of_binaryErrors hcheck hpair ⟨by omega, by omega⟩
    ⟨by omega, by omega⟩ hlhs hrhs
  exact ⟨lhs, rhs, shape, by simp [hpair, Module.node, hlhs, hrhs], hshape, hdims⟩

/-- A product finds two operands and their shape. -/
theorem Accepted.matMul_formed (h : Accepted m) {v : Nat} (hnode : m.nodes[v]? = some node)
    (hop : node.op = .matMul) :
    ∃ lhs rhs shape, node.inputs.map m.node = [some lhs, some rhs] ∧
      inferMatmul lhs.output.shape rhs.output.shape = .ok shape ∧
      node.output.shape.dims = shape.dims := by
  have hcheck := (h.checks hnode).2.2.1
  rw [matmulErrors, if_pos hop] at hcheck
  exact h.binary_formed hnode (by rw [hop]; rfl) hcheck

/-- The shape of a product. -/
theorem dims_of_inferMatmul {lhs rhs shape : Shape} (h : inferMatmul lhs rhs = .ok shape) :
    ∃ M K N, lhs.dims = [M, K] ∧ rhs.dims = [K, N] ∧ shape.dims = [M, N] := by
  unfold inferMatmul at h
  split at h
  · next rows inner inner' columns hleft hright =>
      split at h
      · cases h
      · split at h
        · cases h
        · next hinner =>
            cases h
            exact ⟨rows, inner, columns, hleft,
              by rw [hright, Decidable.not_not.mp hinner], rfl⟩
  · cases h

/-- On an accepted module a node is well formed when it follows its input. -/
theorem Accepted.formed (h : Accepted m) (hmem : node ∈ m.nodes)
    (hfollows : FollowsInput m node) : Formed m node := by
  obtain ⟨v, hnode⟩ := List.mem_iff_getElem?.mp hmem
  obtain ⟨_, _, _, helementwise⟩ := h.checks hnode
  have harity := h.arity hnode
  refine ⟨?_, harity, h.matMul_formed hnode, ?_, hfollows⟩
  · intro input hinput
    obtain ⟨u, rfl, hu⟩ := h.earlier hnode hinput
    have hid := h.indexed.ids v node hnode
    omega
  · intro hop
    rw [elementwiseErrors, if_pos hop] at helementwise
    have htwo : expectedInputs node.op = 2 := by
      rcases hop with hop | hop <;> rw [hop] <;> rfl
    exact h.binary_formed hnode htwo helementwise

/-! ## Reports and malformed modules -/

/-- What a run has to guarantee: launches only for well-formed modules, and
nothing done when validation finds an error. -/
def ReportsFormed (m m' : Module α) (report : CompileReport δ) : Prop :=
  (report.launches ≠ [] → ∀ node ∈ m.nodes, Formed m node) ∧
    (validate m ≠ .ok [] → m' = m ∧ report.launches = [])

/-- A report on an accepted module with a node has a launch. -/
theorem CompilePipeline.launches_ne_nil [Zero δ] (p : CompilePipeline δ) {s : Scalar α}
    {d : Doubles δ} (h : Accepted m) (hne : m.nodes ≠ []) {report : CompileReport δ}
    {m' : Module α} (hrun : p.run s d m = some (report, m')) : report.launches ≠ [] := by
  obtain ⟨folded, groups, report', _, hf, haccepted, _, _, hrun', _, hleads, hlaunches⟩ :=
    run_accepted p s d h
  rw [hrun, Option.some.injEq, Prod.mk.injEq] at hrun'
  obtain ⟨rfl, rfl⟩ := hrun'
  have hsize : (p.rewrite folded).nodes.length = m.nodes.length := by
    rw [← hf.size]
    unfold rewrite Module.canonicalize
    split <;> simp [Module.inferLayout]
  have hpos := List.length_pos_iff.mpr hne
  have hlead : ForwardChains.leader (Feeds (p.rewrite folded)) 0 = 0 :=
    Nat.le_zero.mp (ForwardChains.leader_le .refl)
  have hin : 0 < (p.rewrite folded).nodes.length := by omega
  obtain ⟨group, hgroup, hroot⟩ := hleads 0 (p.rewrite folded).nodes[0]
    (List.getElem?_eq_getElem hin) hlead
  exact List.ne_nil_of_mem ((hlaunches _).mpr ⟨group, hgroup, _, hroot, rfl⟩)

/-- **When reports describe well-formed work.**  Either validation finds an
error, or every node with one of the operators that it does not check has the
shape that its input gives it. -/
theorem report_formed_iff [Zero δ] (p : CompilePipeline δ) (s : Scalar α) (d : Doubles δ)
    (h : m.Indexed) :
    ∃ report m', p.run s d m = some (report, m') ∧
      (ReportsFormed m m' report ↔
        validate m ≠ .ok [] ∨ ∀ node ∈ m.nodes, FollowsInput m node) := by
  obtain ⟨errors, hvalidate⟩ := h.validate_ok
  cases errors with
  | cons error errors =>
      have hinvalid : validate m ≠ .ok [] := by simp [hvalidate]
      refine ⟨_, m, CompilePipeline.run_rejected hvalidate, ?_⟩
      refine iff_of_true ⟨fun hne => absurd rfl hne, fun _ => ⟨rfl, rfl⟩⟩ (Or.inl hinvalid)
  | nil =>
      have haccepted : Accepted m := ⟨h, hvalidate⟩
      obtain ⟨folded, groups, report, _, _, _, _, _, hrun, _⟩ :=
        CompilePipeline.run_accepted p s d haccepted
      refine ⟨report, p.rewrite folded, hrun, ?_⟩
      constructor
      · intro hreports
        right
        intro node hmem
        have hne := p.launches_ne_nil haccepted (List.ne_nil_of_mem hmem) hrun
        exact (hreports.1 hne node hmem).followsInput
      · intro hcases
        have hfollows := hcases.resolve_left fun hne => hne hvalidate
        exact ⟨fun _ node hmem => haccepted.formed hmem (hfollows node hmem),
          fun hne => absurd hvalidate hne⟩

/-- A `Relu` and a row sum over a matrix, each with the shape its input
gives. -/
theorem report_formed_iff_example :
    let s : Scalar Int := ⟨0, 0, 1, 2, (· + ·), (· * ·), (· / ·), max, id, id⟩
    let d : Doubles Int := ⟨id, (· * ·), (· / ·), min⟩
    let m : Module Int :=
      ⟨[⟨0, .parameter, [], ⟨0, { dims := [8, 4] }, "x"⟩, [], []⟩,
        ⟨1, .relu, [0], ⟨1, { dims := [8, 4] }, "v1"⟩, [], []⟩,
        ⟨2, .reduceSum, [1], ⟨2, { dims := [8] }, "v2"⟩, [], []⟩], [2]⟩
    ∃ report m', CompilePipeline.run {} s d m = some (report, m') ∧
      ReportsFormed m m' report := by
  intro s d m
  have hindexed : m.Indexed := Module.indexed_of_ids rfl (show 3 ≤ 2 ^ 31 by omega)
  obtain ⟨report, m', hrun, hiff⟩ := report_formed_iff {} s d hindexed
  refine ⟨report, m', hrun, hiff.mpr (Or.inr ?_)⟩
  intro node hmem
  simp only [m, List.mem_cons, List.not_mem_nil, or_false] at hmem
  rcases hmem with rfl | rfl | rfl
  · exact ⟨by simp, by simp, by simp⟩
  · exact ⟨fun _ => ⟨_, rfl, rfl⟩, by simp, by simp⟩
  · exact ⟨by simp, by simp, fun _ => ⟨_, 1, false, { dims := [8] }, rfl, rfl, rfl⟩⟩

/-- A `Relu` that declares 4 entries for the 64 of its input is launched. -/
theorem report_describes_malformed :
    ¬ ∀ (p : CompilePipeline Int) (s : Scalar Int) (d : Doubles Int) (m : Module Int),
      m.Indexed → ∀ report m', p.run s d m = some (report, m') → ReportsFormed m m' report := by
  intro hclaim
  let s : Scalar Int := ⟨0, 0, 1, 2, (· + ·), (· * ·), (· / ·), max, id, id⟩
  let d : Doubles Int := ⟨id, (· * ·), (· / ·), min⟩
  let relu : Node Int := ⟨1, .relu, [0], ⟨1, { dims := [4] }, "v1"⟩, [], []⟩
  let m : Module Int := ⟨[⟨0, .parameter, [], ⟨0, { dims := [8, 8] }, "x"⟩, [], []⟩, relu], [1]⟩
  have haccepted : Accepted m :=
    ⟨Module.indexed_of_ids rfl (show 2 ≤ 2 ^ 31 by omega), rfl⟩
  obtain ⟨folded, groups, report, _, _, _, _, _, hrun, _⟩ :=
    CompilePipeline.run_accepted {} s d haccepted
  have hne := CompilePipeline.launches_ne_nil {} haccepted (by simp [m]) hrun
  obtain ⟨input, hinput, hdims⟩ := ((hclaim {} s d m haccepted.indexed _ _ hrun).1 hne relu
    (by simp [m])).followsInput.dims (Or.inl rfl)
  have hfirst : relu.inputs.map m.node = [m.nodes[0]?] := rfl
  rw [hfirst] at hinput
  simp only [m, List.getElem?_cons_zero, List.cons.injEq, Option.some.injEq, and_true] at hinput
  subst hinput
  simp [relu] at hdims

end Gpuforge.Compiler

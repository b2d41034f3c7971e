import Gpuforge.CompilePipeline

/-!
# Compiling twice

`constant_fold` looks at each node once, after the nodes it reads.  What it
leaves it leaves for a reason that stays, so one sweep reaches the fixpoint of
the folding rules, however long the chains of constants are
(`Folded.fixed`).  Layout inference changes nothing that folding reads and
nothing it would change again.  So a second run of the pipeline plans the same
launches and leaves the module alone (`compile_idempotent`).

On a module whose ids are its positions `validate` throws nothing, accepted or
not.  With other ids a node can stand before the one it reads, and one sweep is
not enough (`compile_late_constant`).
-/

namespace Gpuforge.Compiler

variable {α : Type} {m m' : Module α} {node : Node α} {s : Scalar α}

/-! ## Validation throws nothing -/

/-- Operands with smaller ids are there. -/
theorem Module.Indexed.binaryErrors_ok (h : m.Indexed) (hmem : node ∈ m.nodes)
    (label : String) (infer : Shape → Shape → ShapeResult) :
    ∃ errors, binaryErrors m label infer node = .ok errors := by
  obtain ⟨v, hnode⟩ := List.mem_iff_getElem?.mp hmem
  have hid := h.ids v node hnode
  have hv := (List.getElem?_eq_some_iff.mp hnode).1
  have hfound : ∀ id : Int, 0 ≤ id → id < node.id → ∃ operand, m.node id = some operand := by
    intro id hnonneg hlt
    have hin : id.toNat < m.nodes.length := by omega
    refine ⟨m.nodes[id.toNat], ?_⟩
    rw [Module.node, intAt, if_pos hnonneg]
    exact List.getElem?_eq_getElem hin
  unfold binaryErrors
  split
  · rename_i first second _
    split
    · rename_i hbounds
      obtain ⟨lhs, hlhs⟩ := hfound first hbounds.1 hbounds.2.1
      obtain ⟨rhs, hrhs⟩ := hfound second hbounds.2.2.1 hbounds.2.2.2
      simp only [hlhs, hrhs]
      split
      · exact ⟨_, rfl⟩
      · split <;> exact ⟨_, rfl⟩
    · exact ⟨_, rfl⟩
  · exact ⟨_, rfl⟩

/-- **Validation returns** on a module whose ids are its positions. -/
theorem Module.Indexed.validate_ok (h : m.Indexed) : ∃ errors, validate m = .ok errors := by
  have hnodes : ∀ nodes : List (Node α), (∀ node ∈ nodes, node ∈ m.nodes) →
      ∃ errors, errorsOf m nodes = .ok errors := by
    intro nodes
    induction nodes with
    | nil => exact fun _ => ⟨[], rfl⟩
    | cons node rest ih =>
        intro hsub
        have hmem := hsub node List.mem_cons_self
        obtain ⟨later, hrest⟩ := ih fun node' hnode' => hsub node' (List.mem_cons_of_mem _ hnode')
        have hmatmul : ∃ errors, matmulErrors m node = .ok errors := by
          unfold matmulErrors
          split
          · exact h.binaryErrors_ok hmem _ _
          · exact ⟨_, rfl⟩
        have helementwise : ∃ errors, elementwiseErrors m node = .ok errors := by
          unfold elementwiseErrors
          split
          · exact h.binaryErrors_ok hmem _ _
          · exact ⟨_, rfl⟩
        obtain ⟨matmul, hmatmul⟩ := hmatmul
        obtain ⟨elementwise, helementwise⟩ := helementwise
        simp only [errorsOf, nodeErrors, hmatmul, helementwise, hrest]
        exact ⟨_, rfl⟩
  exact hnodes m.nodes fun _ hmem => hmem

/-! ## The fixpoint of folding -/

/-- **One sweep suffices.**  No node of the folded module folds. -/
theorem Folded.fixed (hf : Folded s m m') :
    ∀ node ∈ m'.nodes, foldedData s m' node = .ok none := by
  intro node hmem
  obtain ⟨v, hnode⟩ := List.mem_iff_getElem?.mp hmem
  obtain ⟨old, folded, _, hfolded, rfl⟩ := hf.origin hnode
  cases folded with
  | none => exact hfolded
  | some data => simp [Node.after, foldedData, IsBinary, IsUnary]

/-- Where nothing folds, the pass changes nothing. -/
theorem constantFold_fixed (h : ∀ node ∈ m.nodes, foldedData s m node = .ok none) :
    m.constantFold s = (.ok (), m) := by
  have hrest : ∀ rest done : List (Node α), done ++ rest = m.nodes →
      foldRest s m.outputs done rest = (.ok (), m) := by
    intro rest
    induction rest with
    | nil =>
        intro done hsplit
        rw [List.append_nil] at hsplit
        rw [foldRest, hsplit]
    | cons node rest ih =>
        intro done hsplit
        have hnode := h node (by rw [← hsplit]; simp)
        rw [foldRest, hsplit, hnode]
        exact ih (done ++ [node]) (by simpa using hsplit)
  exact hrest m.nodes [] rfl

/-- Tiling keeps payloads. -/
@[simp] theorem Node.tiled_constantData (node : Node α) :
    node.tiled.constantData = node.constantData := by
  unfold Node.tiled
  split <;> rfl

/-- Lookups in a tiled module. -/
theorem Module.node_inferLayout (m : Module α) (id : Int) :
    m.inferLayout.node id = (m.node id).map Node.tiled := by
  unfold Module.node intAt
  split
  · rw [Module.inferLayout, List.getElem?_map]
  · rfl

/-- Tiling does not change what folds. -/
theorem foldedData_tiled (m : Module α) (node : Node α) :
    foldedData s m.inferLayout node.tiled = foldedData s m node := by
  have hbinary : ∀ f : α → α → α, foldedBinary f m.inferLayout node.tiled =
      foldedBinary f m node := by
    intro f
    unfold foldedBinary
    rw [Node.tiled_inputs]
    split
    · rename_i first second _
      rw [m.node_inferLayout, m.node_inferLayout]
      cases m.node first <;> cases m.node second <;> simp
    · rfl
  have hunary : ∀ f : α → α, foldedUnary f m.inferLayout node.tiled = foldedUnary f m node := by
    intro f
    unfold foldedUnary
    rw [Node.tiled_inputs]
    split
    · rename_i id _
      rw [m.node_inferLayout]
      cases m.node id <;> simp
    · rfl
  rw [foldedData, foldedData, hbinary, hunary, Node.tiled_op]

/-- Tiling twice is tiling once. -/
theorem Module.inferLayout_inferLayout (m : Module α) :
    m.inferLayout.inferLayout = m.inferLayout := by
  have htiled : ∀ node : Node α, node.tiled.tiled = node.tiled := by
    intro node
    by_cases hmatmul : node.op = .matMul ∧ node.output.shape.dims.length = 2
    · simp [Node.tiled, hmatmul]
    · simp [Node.tiled, hmatmul]
  simp [Module.inferLayout, htiled]

/-! ## The second run -/

section pipeline

variable {δ : Type}

/-- After the rewriting nothing is left to fold or to rewrite. -/
theorem CompilePipeline.rewrite_fixed (p : CompilePipeline δ) {folded : Module α}
    (hf : Folded s m folded) :
    (p.rewrite folded).constantFold s = (.ok (), p.rewrite folded) ∧
      p.rewrite (p.rewrite folded) = p.rewrite folded := by
  unfold CompilePipeline.rewrite Module.canonicalize
  split
  · refine ⟨constantFold_fixed ?_, folded.inferLayout_inferLayout⟩
    intro node hmem
    obtain ⟨old, hold, rfl⟩ := List.mem_map.mp hmem
    rw [foldedData_tiled]
    exact hf.fixed old hold
  · exact ⟨constantFold_fixed hf.fixed, rfl⟩

/-- **Compilation is idempotent.**  A run returns, and a second run returns the
same report and leaves the module as it is.  On a valid module one pass of
`constant_fold` reaches its fixpoint. -/
theorem compile_idempotent [Zero δ] (p : CompilePipeline δ) (s : Scalar α) (d : Doubles δ)
    (m : Module α) (h : m.Indexed) :
    (∃ report m', p.run s d m = some (report, m') ∧ p.run s d m' = some (report, m')) ∧
      (validate m = .ok [] → ∃ folded, m.constantFold s = (.ok (), folded) ∧
        ∀ node ∈ folded.nodes, foldedData s folded node = .ok none) := by
  obtain ⟨errors, hvalidate⟩ := h.validate_ok
  cases errors with
  | cons error errors =>
      have hrun := CompilePipeline.run_rejected (p := p) (s := s) (d := d) hvalidate
      refine ⟨⟨_, m, hrun, hrun⟩, ?_⟩
      intro hvalid
      rw [hvalidate] at hvalid
      cases hvalid
  | nil =>
      have haccepted : Accepted m := ⟨h, hvalidate⟩
      obtain ⟨folded, groups, report, hfold, hf, haccepted', hgroups, hplan, hrun, _⟩ :=
        CompilePipeline.run_accepted p s d haccepted
      obtain ⟨hfold', hrewrite'⟩ := p.rewrite_fixed hf
      refine ⟨⟨report, p.rewrite folded, hrun, ?_⟩, fun _ => ⟨folded, hfold, hf.fixed⟩⟩
      simp only [CompilePipeline.run, haccepted'.valid, hfold', hrewrite', hgroups, hplan,
        Option.map_some]

end pipeline

/-- A chain of constants: both nodes above the payload fold in one pass. -/
theorem compile_idempotent_example :
    let s : Scalar Int := ⟨0, 0, 1, 2, (· + ·), (· * ·), (· / ·), max, id, id⟩
    let d : Doubles Int := ⟨id, (· * ·), (· / ·), min⟩
    let shape : Shape := { dims := [2] }
    let m : Module Int :=
      ⟨[⟨0, .constant, [], ⟨0, shape, "c"⟩, [], [-3, 4]⟩,
        ⟨1, .relu, [0], ⟨1, shape, "v1"⟩, [], []⟩,
        ⟨2, .add, [1, 0], ⟨2, shape, "v2"⟩, [], []⟩], [2]⟩
    ∃ report m' folded, CompilePipeline.run {} s d m = some (report, m') ∧
      CompilePipeline.run {} s d m' = some (report, m') ∧
      m.constantFold s = (.ok (), folded) ∧
      folded.nodes.map Node.constantData = [[-3, 4], [0, 4], [-3, 8]] ∧
      ∀ node ∈ folded.nodes, foldedData s folded node = .ok none := by
  intro s d shape m
  have hindexed : m.Indexed := Module.indexed_of_ids rfl (show 3 ≤ 2 ^ 31 by omega)
  obtain ⟨⟨report, m', hfirst, hsecond⟩, hfix⟩ := compile_idempotent {} s d m hindexed
  obtain ⟨folded, hfold, hfixed⟩ := hfix rfl
  refine ⟨report, m', folded, hfirst, hsecond, hfold, ?_, hfixed⟩
  have hdata : (m.constantFold s).2.nodes.map Node.constantData =
      [[-3, 4], [0, 4], [-3, 8]] := by decide +kernel
  rw [hfold] at hdata
  exact hdata

/-- **Ids have to be positions.**  Here the `Relu` over a constant stands after the node
that reads it: one run folds the `Relu`, the next one its reader too. -/
theorem compile_late_constant :
    ¬ ∀ (s : Scalar Int) (d : Doubles Int) (m : Module Int),
      ∃ report m', CompilePipeline.run {} s d m = some (report, m') ∧
        CompilePipeline.run {} s d m' = some (report, m') := by
  intro hclaim
  let s : Scalar Int := ⟨0, 0, 1, 2, (· + ·), (· * ·), (· / ·), max, id, id⟩
  let d : Doubles Int := ⟨id, (· * ·), (· / ·), min⟩
  let shape : Shape := { dims := [1] }
  let m : Module Int :=
    ⟨[⟨2, .relu, [1], ⟨2, shape, "v2"⟩, [], []⟩,
      ⟨3, .relu, [2], ⟨3, shape, "v3"⟩, [], []⟩,
      ⟨0, .constant, [], ⟨0, shape, "c"⟩, [], [4]⟩,
      ⟨1, .parameter, [], ⟨1, shape, "x"⟩, [], []⟩], [3]⟩
  obtain ⟨report, m', hfirst, hsecond⟩ := hclaim s d m
  let folded : Module Int :=
    ⟨[⟨2, .relu, [1], ⟨2, shape, "v2"⟩, [], []⟩,
      ⟨3, .constant, [], ⟨3, shape, "v3"⟩, [], [4]⟩,
      ⟨0, .constant, [], ⟨0, shape, "c"⟩, [], [4]⟩,
      ⟨1, .parameter, [], ⟨1, shape, "x"⟩, [], []⟩], [3]⟩
  have hmodule : (CompilePipeline.run {} s d m).map Prod.snd = some folded := by decide +kernel
  have hagain : (CompilePipeline.run {} s d folded).map (fun run => run.2.nodes.map Node.op) =
      some [.constant, .constant, .constant, .parameter] := by decide +kernel
  rw [hfirst] at hmodule
  have hfolded : m' = folded := Option.some.inj hmodule
  rw [← hfolded, hsecond, hfolded] at hagain
  cases hagain

end Gpuforge.Compiler

import Gpuforge.CompileReports

/-!
# Which tuning result a product is launched with

The autotuner records an `M x K` by `K x N` product under `(M, N, K)`
(`autoTune_key`).  The pipeline looks the product up by the dims of its output
alone, `[M, N]`, with the last of them in the place of `K`: it reads
`(M, N, N)`.  `tuned_launch_iff` says when the launch has the settings of the
right entry all the same, which square problems always have.
-/

namespace Gpuforge.Compiler

open ForwardChains

variable {α δ : Type} {m : Module α} {node : Node α}

/-! ## Settings -/

/-- A schedule has the settings of a tuning result. -/
structure Schedule.Has (schedule : Schedule) (r : TuneResult δ) : Prop where
  blockM : schedule.blockM = wrapInt (r.config.tile * 8)
  blockN : schedule.blockN = wrapInt (r.config.tile * 8)
  warps : schedule.warps = r.config.warps
  tensorCore : schedule.tensorCore = r.config.useTensorCore

/-- Two results lead to the same settings over a base schedule: both are
invalid, or both set the same, or the only valid one sets what the base has. -/
def SameSettings (base : Schedule) (r r' : TuneResult δ) : Prop :=
  match r.valid, r'.valid with
  | false, false => True
  | true, false => base.Has r
  | false, true => base.Has r'
  | true, true =>
      wrapInt (r.config.tile * 8) = wrapInt (r'.config.tile * 8) ∧
        r.config.warps = r'.config.warps ∧ r.config.useTensorCore = r'.config.useTensorCore

/-- A schedule is left alone by settings it has, and by no others. -/
theorem Schedule.has_iff {base : Schedule} {r : TuneResult δ} (hr : r.valid = true) :
    base.Has r ↔ base.tuned r = base := by
  obtain ⟨blockM, blockN, blockK, warps, tensorCore, asyncCopy⟩ := base
  simp only [Schedule.tuned, hr, if_true, Schedule.mk.injEq, true_and, and_true]
  constructor
  · intro h
    exact ⟨h.blockM.symm, h.blockN.symm, h.warps.symm, h.tensorCore.symm⟩
  · intro h
    obtain ⟨hm, hn, hwarps, htensor⟩ := h
    exact ⟨hm.symm, hn.symm, hwarps.symm, htensor.symm⟩

/-- Same settings, same schedule. -/
theorem sameSettings_iff (base : Schedule) (r r' : TuneResult δ) :
    SameSettings base r r' ↔ base.tuned r = base.tuned r' := by
  cases hr : r.valid with
  | false =>
      have hbase : base.tuned r = base := by simp [Schedule.tuned, hr]
      cases hr' : r'.valid with
      | false => simp [SameSettings, hr, hr', Schedule.tuned]
      | true =>
          simp only [SameSettings, hr, hr', hbase]
          rw [Schedule.has_iff hr', eq_comm]
  | true =>
      cases hr' : r'.valid with
      | false =>
          have hbase : base.tuned r' = base := by simp [Schedule.tuned, hr']
          simp only [SameSettings, hr, hr', hbase]
          exact Schedule.has_iff hr
      | true =>
          simp only [SameSettings, hr, hr', Schedule.tuned, if_true, Schedule.mk.injEq, true_and,
            and_true]
          constructor
          · intro h
            exact ⟨h.1, h.1, h.2⟩
          · intro h
            exact ⟨h.1, h.2.2⟩

/-! ## The launch of a product -/

/-- A product never joins the group of another node. -/
theorem matMul_leads {v : Nat} (hnode : m.nodes[v]? = some node) (hop : node.op = .matMul) :
    leader (Feeds m) v = v := by
  by_contra hne
  obtain ⟨u, hfeeds, _⟩ := leader_step hne
  obtain ⟨_, node', hnode', helementwise⟩ := hfeeds
  rw [hnode, Option.some.injEq] at hnode'
  subst hnode'
  rw [hop] at helementwise
  cases helementwise

/-- A product declares the rows of one operand and the columns of the other. -/
theorem Accepted.matMul_dims (h : Accepted m) {v a b : Nat} (hnode : m.nodes[v]? = some node)
    (hop : node.op = .matMul) (hinputs : node.inputs = [(a : Int), (b : Int)])
    {lhs rhs : Node α} (hlhs : m.nodes[a]? = some lhs) (hrhs : m.nodes[b]? = some rhs)
    {M K N : Int} (hleft : lhs.output.shape.dims = [M, K])
    (hright : rhs.output.shape.dims = [K, N]) : node.output.shape.dims = [M, N] := by
  obtain ⟨lhs', rhs', shape, hoperands, hshape, hdims⟩ := h.matMul_formed hnode hop
  obtain ⟨rfl, rfl⟩ : lhs = lhs' ∧ rhs = rhs' := by
    simpa [hinputs, Module.node, hlhs, hrhs] using hoperands
  obtain ⟨M', K', N', hleft', hright', hout⟩ := dims_of_inferMatmul hshape
  rw [hleft] at hleft'
  rw [hright] at hright'
  cases hleft'
  cases hright'
  rw [hdims, hout]

/-- Folding and layout leave the operator, the dims and the type of a product. -/
theorem CompilePipeline.rewrite_matMul (p : CompilePipeline δ) {s : Scalar α}
    {folded : Module α} (hf : Folded s m folded) {v : Nat} (hnode : m.nodes[v]? = some node)
    (hop : node.op = .matMul) :
    ∃ node', (p.rewrite folded).nodes[v]? = some node' ∧ node'.op = .matMul ∧
      node'.output.shape.dims = node.output.shape.dims ∧
      node'.output.shape.type = node.output.shape.type := by
  obtain ⟨data, hdata, hafter⟩ := hf.turns v node hnode
  have hnone : data = none := by
    simpa [foldedData, IsBinary, IsUnary, hop, eq_comm] using hdata
  subst hnone
  unfold rewrite Module.canonicalize
  split
  · refine ⟨node.tiled, ?_, by rw [Node.tiled_op, hop], node.tiled_dims, ?_⟩
    · rw [Module.inferLayout, List.getElem?_map, hafter]
      rfl
    · unfold Node.tiled
      split <;> rfl
  · exact ⟨node, hafter, hop, rfl, rfl⟩

/-- What `schedule` looks at. -/
theorem schedule_congr {node' : Node α} (hdims : node'.output.shape.dims = node.output.shape.dims)
    (htype : node'.output.shape.type = node.output.shape.type) :
    schedule node' = schedule node := by
  simp only [schedule, hdims, htype]

variable [Zero δ]

/-- The launches of a product.  There is one, planned for a node with the operator, the
dims and the type of the product. -/
theorem CompilePipeline.matMul_planned (p : CompilePipeline δ) (s : Scalar α) (d : Doubles δ)
    (h : Accepted m) {v : Nat} (hnode : m.nodes[v]? = some node) (hop : node.op = .matMul) :
    ∃ report m', p.run s d m = some (report, m') ∧
      (∃ launch ∈ report.launches, launch.node = v) ∧
      ∀ launch ∈ report.launches, launch.node = v → ∃ (group : FusionGroup) (node' : Node α),
        launch = p.launch d group node' ∧
          node'.output.shape.dims = node.output.shape.dims ∧
          node'.output.shape.type = node.output.shape.type := by
  obtain ⟨folded, groups, report, _, hf, haccepted, _, _, hrun, _, hleads, hlaunches⟩ :=
    CompilePipeline.run_accepted p s d h
  obtain ⟨node', hnode', hop', hdims', htype'⟩ := p.rewrite_matMul hf hnode hop
  refine ⟨report, p.rewrite folded, hrun, ?_, ?_⟩
  · obtain ⟨group, hgroup, hroot⟩ := hleads v node' hnode' (matMul_leads hnode' hop')
    exact ⟨p.launch d group node', (hlaunches _).mpr ⟨group, hgroup, node', hroot, rfl⟩,
      haccepted.indexed.ids v node' hnode'⟩
  · intro launch hmem hv
    obtain ⟨group, _, root, ⟨front, _, _, hfront⟩, rfl⟩ := (hlaunches launch).mp hmem
    obtain ⟨u, rfl, hu⟩ := intAt_eq_some hfront
    -- the launch has the id of its root, which is the position of the root
    have hid := haccepted.indexed.ids u root hu
    have huv : u = v := by
      have hv' : root.id = (v : Int) := hv
      omega
    rw [huv, hnode', Option.some.injEq] at hu
    subst hu
    exact ⟨group, node', rfl, hdims', htype'⟩

/-- **The launch of a product.**  There is one, and it has the settings of the
entry under its rows, its columns, and its columns again. -/
theorem matMul_launch (p : CompilePipeline δ) (s : Scalar α) (d : Doubles δ)
    {db : TuneDatabase δ} (htuning : p.tuning = some db) (h : Accepted m) {v : Nat}
    (hnode : m.nodes[v]? = some node) (hop : node.op = .matMul) {M N : Int}
    (hdims : node.output.shape.dims = [M, N]) :
    ∃ report m', p.run s d m = some (report, m') ∧
      (∃ launch ∈ report.launches, launch.node = v) ∧
      ∀ launch ∈ report.launches, launch.node = v →
        launch.schedule =
          (schedule node).tuned (db.best (castSize M) (castSize N) (castSize N)) := by
  obtain ⟨report, m', hrun, hex, hall⟩ := p.matMul_planned s d h hnode hop
  refine ⟨report, m', hrun, hex, ?_⟩
  intro launch hmem hv
  obtain ⟨group, node', rfl, hdims', htype'⟩ := hall launch hmem hv
  show p.scheduleOf node' = _
  rw [CompilePipeline.scheduleOf, htuning]
  simp only [hdims', hdims, schedule_congr hdims' htype']
  rfl

/-- **When the launch has the recorded settings.**  The launch of a product has
the settings of the entry under its own key exactly when the entry under
`(M, N, N)` leads to the same settings. -/
theorem tuned_launch_iff (p : CompilePipeline δ) (s : Scalar α) (d : Doubles δ)
    {db : TuneDatabase δ} (htuning : p.tuning = some db) (h : Accepted m) {v a b : Nat}
    (hnode : m.nodes[v]? = some node) (hop : node.op = .matMul)
    (hinputs : node.inputs = [(a : Int), (b : Int)]) {lhs rhs : Node α}
    (hlhs : m.nodes[a]? = some lhs) (hrhs : m.nodes[b]? = some rhs) {M K N : Int}
    (hleft : lhs.output.shape.dims = [M, K]) (hright : rhs.output.shape.dims = [K, N]) :
    ∃ report m', p.run s d m = some (report, m') ∧
      ((∃ launch ∈ report.launches, launch.node = v) ∧
        (∀ launch ∈ report.launches, launch.node = v →
          launch.schedule =
            (schedule node).tuned (db.best (castSize M) (castSize N) (castSize K))) ↔
      SameSettings (schedule node) (db.best (castSize M) (castSize N) (castSize N))
        (db.best (castSize M) (castSize N) (castSize K))) := by
  have hdims := h.matMul_dims hnode hop hinputs hlhs hrhs hleft hright
  obtain ⟨report, m', hrun, ⟨launch, hmem, hv⟩, hall⟩ :=
    matMul_launch p s d htuning h hnode hop hdims
  refine ⟨report, m', hrun, ?_⟩
  rw [sameSettings_iff]
  constructor
  · intro hclaim
    rw [← hall launch hmem hv, hclaim.2 launch hmem hv]
  · intro hsame
    refine ⟨⟨launch, hmem, hv⟩, ?_⟩
    intro launch' hmem' hv'
    rw [hall launch' hmem' hv', hsame]

/-- A square right operand: the entry recorded for the product is used. -/
theorem tuned_launch_iff_example :
    let s : Scalar Int := ⟨0, 0, 1, 2, (· + ·), (· * ·), (· / ·), max, id, id⟩
    let d : Doubles Int := ⟨id, (· * ·), (· / ·), min⟩
    let db : TuneDatabase Int := TuneDatabase.record id {} 2 3 3 ⟨⟨8, 4, true⟩, 5, 7, false⟩
    let m : Module Int :=
      ⟨[⟨0, .parameter, [], ⟨0, { dims := [2, 3] }, "x"⟩, [], []⟩,
        ⟨1, .parameter, [], ⟨1, { dims := [3, 3] }, "y"⟩, [], []⟩,
        ⟨2, .matMul, [0, 1], ⟨2, { dims := [2, 3] }, "v2"⟩, [], []⟩], [2]⟩
    ∃ report m', CompilePipeline.run { tuning := some db } s d m = some (report, m') ∧
      (∃ launch ∈ report.launches, launch.node = 2) ∧
      ∀ launch ∈ report.launches, launch.node = 2 →
        launch.schedule = ⟨64, 64, 32, 4, true, true⟩ := by
  intro s d db m
  have haccepted : Accepted m :=
    ⟨Module.indexed_of_ids rfl (show 3 ≤ 2 ^ 31 by omega), rfl⟩
  have hproduct : m.nodes[2]? =
      some ⟨2, .matMul, [0, 1], ⟨2, { dims := [2, 3] }, "v2"⟩, [], []⟩ := rfl
  obtain ⟨report, m', hrun, hiff⟩ := tuned_launch_iff { tuning := some db } s d rfl haccepted
    hproduct (a := 0) (b := 1) rfl rfl rfl rfl rfl rfl
  have hsame : SameSettings (schedule (⟨2, .matMul, [0, 1], ⟨2, { dims := [2, 3] }, "v2"⟩, [], []⟩
        : Node Int))
      (db.best (castSize 2) (castSize 3) (castSize 3))
      (db.best (castSize 2) (castSize 3) (castSize 3)) := ⟨rfl, rfl, rfl⟩
  obtain ⟨hex, hall⟩ := hiff.mpr hsame
  refine ⟨report, m', hrun, hex, ?_⟩
  intro launch hmem hv
  exact (hall launch hmem hv).trans rfl

/-- A 2 x 4 by 4 x 3 product with a recorded entry: the launch looks under
`(2, 3, 3)` and stays untuned. -/
theorem launch_misses_recorded_entry :
    ¬ ∀ (s : Scalar Int) (d : Doubles Int) (db : TuneDatabase Int) (m : Module Int),
      Accepted m → ∀ (v a b : Nat) (node lhs rhs : Node Int) (M K N : Int),
        m.nodes[v]? = some node → node.op = .matMul →
        node.inputs = [(a : Int), (b : Int)] → m.nodes[a]? = some lhs → m.nodes[b]? = some rhs →
        lhs.output.shape.dims = [M, K] → rhs.output.shape.dims = [K, N] →
        ∀ report m', CompilePipeline.run { tuning := some db } s d m = some (report, m') →
          ∀ launch ∈ report.launches, launch.node = v →
            launch.schedule =
              (schedule node).tuned (db.best (castSize M) (castSize N) (castSize K)) := by
  intro hclaim
  let s : Scalar Int := ⟨0, 0, 1, 2, (· + ·), (· * ·), (· / ·), max, id, id⟩
  let d : Doubles Int := ⟨id, (· * ·), (· / ·), min⟩
  let db : TuneDatabase Int := TuneDatabase.record id {} 2 3 4 ⟨⟨8, 4, true⟩, 5, 7, false⟩
  let product : Node Int := ⟨2, .matMul, [0, 1], ⟨2, { dims := [2, 3] }, "v2"⟩, [], []⟩
  let m : Module Int :=
    ⟨[⟨0, .parameter, [], ⟨0, { dims := [2, 4] }, "x"⟩, [], []⟩,
      ⟨1, .parameter, [], ⟨1, { dims := [4, 3] }, "y"⟩, [], []⟩, product], [2]⟩
  have haccepted : Accepted m :=
    ⟨Module.indexed_of_ids rfl (show 3 ≤ 2 ^ 31 by omega), rfl⟩
  have hproduct : m.nodes[2]? = some product := rfl
  obtain ⟨report, m', hrun, ⟨launch, hmem, hv⟩, hall⟩ := matMul_launch { tuning := some db } s d
    rfl haccepted hproduct rfl (M := 2) (N := 3) rfl
  have huntuned : launch.schedule = schedule product := (hall launch hmem hv).trans rfl
  have htuned := hclaim s d db m haccepted 2 0 1 product _ _ 2 4 3 rfl rfl rfl rfl rfl rfl rfl
    report m' hrun launch hmem hv
  have hwarps := congrArg Schedule.warps (huntuned.symm.trans htuned)
  revert hwarps
  decide +kernel

end Gpuforge.Compiler

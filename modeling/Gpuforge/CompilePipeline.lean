import Gpuforge.FusionOrder
import Gpuforge.PassSequences
import Gpuforge.TuneTable

/-!
# The compile pipeline (`pipeline.cpp`)

`run` validates a module, folds and lays it out in place, groups its nodes, and
plans one launch for each group: a schedule, which the tuning table may change,
thread and memory sizes, and an estimated cost.  A module that fails validation
is left alone, and the report has the messages and no launch.

Costs are doubles; their type and arithmetic are parameters.  `schedule` and
the cost model are `PassManager::schedule` and `CostModel` of `compiler.cpp`.
-/

namespace Gpuforge.Compiler

variable {α δ : Type}

/-! ## Schedules and costs -/

structure Schedule where
  blockM : Int := 128
  blockN : Int := 128
  blockK : Int := 32
  warps : Int := 8
  tensorCore : Bool := true
  asyncCopy : Bool := true
  deriving DecidableEq, Repr

def Schedule.str (schedule : Schedule) : String :=
  "bm=" ++ toString schedule.blockM ++ ",bn=" ++ toString schedule.blockN ++
    ",bk=" ++ toString schedule.blockK ++ ",warps=" ++ toString schedule.warps ++
    (if schedule.tensorCore then ",tc" else "") ++ (if schedule.asyncCopy then ",async" else "")

/-- The schedule of a node without tuning. -/
def schedule (node : Node α) : Schedule :=
  let dims := node.output.shape.dims
  let schedule : Schedule :=
    if dims.length = 2 ∧ 1024 ≤ dims.getD 1 0 then { blockM := 128, blockN := 256, warps := 8 }
    else {}
  if node.output.shape.type = .f32 then { schedule with tensorCore := false } else schedule

/-- A schedule with the settings of a tuning result, if that is valid. -/
def Schedule.tuned (schedule : Schedule) (best : TuneResult δ) : Schedule :=
  if best.valid = true then
    { schedule with
      blockM := wrapInt (best.config.tile * 8)
      blockN := wrapInt (best.config.tile * 8)
      warps := best.config.warps
      tensorCore := best.config.useTensorCore }
  else schedule

/-- The arithmetic of doubles that the cost model uses. -/
structure Doubles (δ : Type) where
  ofInt : Int → δ
  mul : δ → δ → δ
  div : δ → δ → δ
  min : δ → δ → δ

/-- `CostModel::estimate_ms` at its default rates. -/
def estimateMs (d : Doubles δ) (node : Node α) (schedule : Schedule) : δ :=
  let dims := node.output.shape.dims
  if dims = [] then d.ofInt 0
  else
    let perElement : Int :=
      if node.op = .matMul ∧ 1 < dims.length then wrapInt64 (2 * dims.getLastD 0) else 10
    let work := d.mul (d.ofInt node.output.shape.elements) (d.ofInt perElement)
    let computeRate := d.mul (d.ofInt 20) (d.ofInt 1000000000000)
    let memoryRate :=
      d.mul (d.mul (d.ofInt 500) (d.ofInt 1000000000)) (d.ofInt (max 1 schedule.blockK))
    d.mul (d.div work (d.min computeRate memoryRate)) (d.ofInt 1000)

/-- `CostModel::profitable`. -/
def profitable (group : FusionGroup) : Bool :=
  1 < group.nodes.length || 4096 < group.flops

/-! ## The pipeline -/

structure LaunchPlan (δ : Type) where
  node : Int
  kernel : String
  schedule : Schedule
  sharedBytes : Nat
  threads : Nat
  estimatedMs : δ
  deriving DecidableEq, Repr

structure CompileReport (δ : Type) where
  launches : List (LaunchPlan δ) := []
  diagnostics : List String := []
  deriving DecidableEq, Repr

structure CompilePipeline (δ : Type) where
  tuning : Option (TuneDatabase δ) := none
  fusion : Bool := true
  layout : Bool := true

namespace CompilePipeline

/-- The rewriting after folding. -/
def rewrite (p : CompilePipeline δ) (m : Module α) : Module α :=
  (if p.layout then m.inferLayout else m).canonicalize

/-- The groups to launch; `none` is a subscript out of range. -/
def groups (p : CompilePipeline δ) (m : Module α) : Option (List FusionGroup) :=
  if p.fusion then m.fuse
  else some (m.nodes.map fun node => ⟨[node.id], "node_" ++ toString node.id, 1024⟩)

/-- The schedule of the launch of a node. -/
def scheduleOf [Zero δ] (p : CompilePipeline δ) (root : Node α) : Schedule :=
  let dims := root.output.shape.dims
  match p.tuning with
  | none => schedule root
  | some tuning =>
      if dims.length = 2 then
        (schedule root).tuned (tuning.best (castSize (dims.getD 0 0)) (castSize (dims.getD 1 0))
          (castSize (dims.getLastD 0)))
      else schedule root

def launch [Zero δ] (p : CompilePipeline δ) (d : Doubles δ) (group : FusionGroup)
    (root : Node α) : LaunchPlan δ :=
  let schedule := p.scheduleOf root
  { node := root.id
    kernel := group.kernel
    schedule := schedule
    threads := castSize schedule.warps * 32 % 2 ^ 64
    sharedBytes :=
      castSize schedule.blockK * castSize (wrapInt (schedule.blockM + schedule.blockN)) * 2 %
        2 ^ 64
    estimatedMs := estimateMs d root schedule }

/-- The loop over the groups; `none` is a throwing lookup. -/
def plan [Zero δ] (p : CompilePipeline δ) (d : Doubles δ) (m : Module α) :
    List FusionGroup → CompileReport δ → Option (CompileReport δ)
  | [], report => some report
  | group :: rest, report =>
      match group.nodes with
      | [] => p.plan d m rest report
      | front :: _ =>
          match m.node front with
          | none => none
          | some root =>
              p.plan d m rest
                { launches := report.launches ++ [p.launch d group root]
                  diagnostics :=
                    if profitable group then report.diagnostics
                    else report.diagnostics ++
                      ["small fusion group at node " ++ toString root.id] }

/-- The report and the module afterwards; `none` when a lookup throws. -/
def run [Zero δ] (p : CompilePipeline δ) (s : Scalar α) (d : Doubles δ) (m : Module α) :
    Option (CompileReport δ × Module α) :=
  match validate m with
  | .error _ => none
  | .ok (error :: errors) => some ({ diagnostics := error :: errors }, m)
  | .ok [] =>
      match m.constantFold s with
      | (.error _, _) => none
      | (.ok _, folded) =>
          let m := p.rewrite folded
          match p.groups m with
          | none => none
          | some groups => (p.plan d m groups {}).map fun report => (report, m)

/-! ## What a run does -/

variable {p : CompilePipeline δ} {m : Module α} {s : Scalar α} {d : Doubles δ}

/-- A group with its first node. -/
def Rooted (m : Module α) (group : FusionGroup) (root : Node α) : Prop :=
  ∃ front rest, group.nodes = front :: rest ∧ m.node front = some root

/-- The first nodes of the groups are there. -/
def AllRooted (m : Module α) (groups : List FusionGroup) : Prop :=
  ∀ group ∈ groups, ∀ front rest, group.nodes = front :: rest → ∃ root, m.node front = some root

/-- The loop makes one launch for each group that has nodes. -/
theorem plan_launches [Zero δ] (p : CompilePipeline δ) (d : Doubles δ) (m : Module α) :
    ∀ (groups : List FusionGroup) (report : CompileReport δ), AllRooted m groups →
      ∃ report', p.plan d m groups report = some report' ∧
        ∀ launch, launch ∈ report'.launches ↔ launch ∈ report.launches ∨
          ∃ group ∈ groups, ∃ root, Rooted m group root ∧ launch = p.launch d group root := by
  intro groups
  induction groups with
  | nil =>
      intro report _
      exact ⟨report, rfl, by simp⟩
  | cons group rest ih =>
      intro report hrooted
      have hrest : AllRooted m rest :=
        fun group' hgroup' => hrooted group' (List.mem_cons_of_mem _ hgroup')
      cases hnodes : group.nodes with
      | nil =>
          obtain ⟨report', hplan, hmem⟩ := ih report hrest
          refine ⟨report', by rw [plan, hnodes]; exact hplan, ?_⟩
          intro launch
          rw [hmem]
          have hnot : ∀ root, ¬ Rooted m group root := by
            intro root hroot
            obtain ⟨front, later, hcons, _⟩ := hroot
            rw [hnodes] at hcons
            cases hcons
          simp [hnot]
      | cons front later =>
          obtain ⟨root, hroot⟩ := hrooted group List.mem_cons_self front later hnodes
          obtain ⟨report', hplan, hmem⟩ := ih _ hrest
          refine ⟨report', by rw [plan, hnodes]; simp only [hroot]; exact hplan, ?_⟩
          intro launch
          have hrooted' : ∀ root', Rooted m group root' ↔ root' = root := by
            intro root'
            unfold Rooted
            simp [hnodes, hroot, eq_comm]
          simp [hmem, hrooted', or_assoc]

/-- The groups of an accepted module have first nodes, and every node that is
its own leader starts one. -/
theorem groups_rooted (p : CompilePipeline δ) (h : Accepted m) :
    ∃ groups, p.groups m = some groups ∧ AllRooted m groups ∧
      ∀ (v : Nat) (node : Node α), m.nodes[v]? = some node →
        ForwardChains.leader (Feeds m) v = v → ∃ group ∈ groups, Rooted m group node := by
  unfold groups
  cases p.fusion with
  | false =>
      refine ⟨_, rfl, ?_, ?_⟩
      · intro group hgroup front rest hnodes
        obtain ⟨node, hnode, rfl⟩ := List.mem_map.mp hgroup
        obtain ⟨v, hnode⟩ := List.mem_iff_getElem?.mp hnode
        cases hnodes
        refine ⟨node, ?_⟩
        rw [h.indexed.ids v node hnode, Module.node, intAt_natCast, hnode]
      · intro v node hnode _
        refine ⟨_, List.mem_map_of_mem (List.mem_of_getElem? hnode), node.id, [], rfl, ?_⟩
        rw [h.indexed.ids v node hnode, Module.node, intAt_natCast, hnode]
  | true =>
      obtain ⟨groups, hfuse, hfused⟩ := fuse_groups h
      obtain ⟨roots, _, hled, hall⟩ := hfused.by_position
      refine ⟨groups, hfuse, ?_, ?_⟩
      · intro group hgroup front rest hnodes
        obtain ⟨i, hi⟩ := List.mem_iff_getElem?.mp hgroup
        obtain ⟨r, _, path, hpath, _, hmem⟩ := hled i group hi
        rw [hnodes] at hpath
        cases path with
        | nil => cases hpath
        | cons first later =>
            have hlt := ((hmem first).mp List.mem_cons_self).1
            refine ⟨m.nodes[first], ?_⟩
            rw [(List.cons.inj hpath).1]
            exact (intAt_natCast _ _).trans (List.getElem?_eq_getElem hlt)
      · intro v node hnode hv
        have hlt := (List.getElem?_eq_some_iff.mp hnode).1
        obtain ⟨i, group, hi, _, path, hpath, hsorted, hmem⟩ := hall v hlt
        rw [hv] at hmem
        cases path with
        | nil => cases (hmem v).mpr ⟨hlt, hv⟩
        | cons first later =>
            obtain ⟨_, hfirst⟩ := (hmem first).mp List.mem_cons_self
            have hle : v ≤ first := hfirst ▸ ForwardChains.leader_le .refl
            have hge : first ≤ v := by
              rcases List.mem_cons.mp ((hmem v).mpr ⟨hlt, hv⟩) with heq | hlater
              · omega
              · exact Nat.le_of_lt ((List.pairwise_cons.mp hsorted).1 v hlater)
            have heq : first = v := by omega
            refine ⟨group, List.mem_of_getElem? hi, (v : Int), later.map Int.ofNat, ?_, ?_⟩
            · rw [hpath, heq]
              rfl
            · rw [Module.node, intAt_natCast, hnode]

/-- The rewriting keeps a module accepted. -/
theorem accepted_rewrite (p : CompilePipeline δ) (h : Accepted m) :
    Accepted (p.rewrite m) := by
  unfold rewrite Module.canonicalize
  split
  · exact h.layout_accepted
  · exact h

/-- A run on a module that `validate` rejects. -/
theorem run_rejected [Zero δ] {error : String} {errors : List String}
    (h : validate m = .ok (error :: errors)) :
    p.run s d m = some ({ diagnostics := error :: errors }, m) := by
  simp only [run, h]

/-- **A run on an accepted module.**  It folds, rewrites, and has one launch for
each group. -/
theorem run_accepted [Zero δ] (p : CompilePipeline δ) (s : Scalar α) (d : Doubles δ)
    (h : Accepted m) :
    ∃ folded groups report, m.constantFold s = (.ok (), folded) ∧ Folded s m folded ∧
      Accepted (p.rewrite folded) ∧ p.groups (p.rewrite folded) = some groups ∧
      p.plan d (p.rewrite folded) groups {} = some report ∧
      p.run s d m = some (report, p.rewrite folded) ∧
      AllRooted (p.rewrite folded) groups ∧
      (∀ (v : Nat) (node : Node α), (p.rewrite folded).nodes[v]? = some node →
        ForwardChains.leader (Feeds (p.rewrite folded)) v = v →
        ∃ group ∈ groups, Rooted (p.rewrite folded) group node) ∧
      ∀ launch, launch ∈ report.launches ↔
        ∃ group ∈ groups, ∃ root, Rooted (p.rewrite folded) group root ∧
          launch = p.launch d group root := by
  obtain ⟨folded, hfold, hf⟩ := h.folded (s := s)
  have haccepted := accepted_rewrite p (h.fold_accepted hf)
  obtain ⟨groups, hgroups, hrooted, hleads⟩ := groups_rooted p haccepted
  obtain ⟨report, hplan, hlaunches⟩ := plan_launches p d (p.rewrite folded) groups {} hrooted
  refine ⟨folded, groups, report, hfold, hf, haccepted, hgroups, hplan, ?_, hrooted, hleads, ?_⟩
  · simp only [run, h.valid, hfold, hgroups, hplan, Option.map_some]
  · intro launch
    rw [hlaunches]
    simp

end CompilePipeline

end Gpuforge.Compiler

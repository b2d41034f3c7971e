import Gpuforge.TilePlanner
import Gpuforge.TunedLaunches

/-!
# Shared memory of products (`pipeline.cpp`, `planner.cpp`)

The pipeline reserves shared memory for the launch of a product, and the tile planner
works out from the same schedule how much the tiles of the product take.  The planner
counts four bytes for an element of an `F32` left operand and two for any other; the
pipeline always counts two (`launch_sharedBytes`).  So the launch of an `F32` product
reserves half of what its tiles hold (`shared_memory_iff`).
-/

namespace Gpuforge

variable {α δ : Type}

/-- The entries of a tuning table have tiles that give blocks below `2^15`. -/
def TuneDatabase.SmallTiles (db : TuneDatabase δ) : Prop :=
  ∀ m n k, ∀ r ∈ db.candidates m n k, 1 ≤ r.config.tile ∧ r.config.tile * 8 < 2 ^ 15

/-- The tile of a valid best entry is small. -/
theorem TuneDatabase.SmallTiles.best [Zero δ] {db : TuneDatabase δ} (h : db.SmallTiles)
    {m n k : Nat} (hvalid : (db.best m n k).valid = true) :
    1 ≤ (db.best m n k).config.tile ∧ (db.best m n k).config.tile * 8 < 2 ^ 15 := by
  rw [TuneDatabase.best_eq_head] at hvalid ⊢
  cases hentries : db.candidates m n k with
  | nil =>
      rw [hentries] at hvalid
      cases hvalid
  | cons first rest => exact h m n k first (by simp [hentries])

namespace Compiler

variable {m : Module α} {node : Node α} {schedule : Schedule}

/-- The shared memory of a launch is that of the tile plan for its schedule. -/
def ReservesPlanned (lhs rhs : Shape) (launch : LaunchPlan δ) : Prop :=
  ∃ planned, plan lhs rhs launch.schedule = some planned ∧
    launch.sharedBytes = planned.sharedBytes

/-- The shared memory of a launch holds the tiles, in elements of a type. -/
def HoldsTiles (type : ScalarType) (launch : LaunchPlan δ) : Prop :=
  launch.schedule.blockK * (launch.schedule.blockM + launch.schedule.blockN) * type.bytes ≤
    launch.sharedBytes

/-- **Launch and plan agree.**  A launch reserves what is planned, and that holds the
tiles in elements of the operands. -/
structure SharedMemoryAgrees (lhs rhs : Shape) (launch : LaunchPlan δ) : Prop where
  planned : ReservesPlanned lhs rhs launch
  holds : ∀ operand ∈ [lhs, rhs], HoldsTiles operand.type launch

/-! ## Blocks of schedules -/

/-- The blocks that the pipeline launches products with. -/
structure Schedule.InRange (schedule : Schedule) : Prop where
  blockM : 1 ≤ schedule.blockM ∧ schedule.blockM < 2 ^ 15
  blockN : 1 ≤ schedule.blockN ∧ schedule.blockN < 2 ^ 15
  blockK : schedule.blockK = 32

/-- Untuned schedules are in range. -/
theorem schedule_inRange (node : Node α) : (Compiler.schedule node).InRange := by
  simp only [Compiler.schedule]
  split <;> split <;> constructor <;> dsimp only <;> omega

/-- A result with a small tile keeps a schedule in range. -/
theorem Schedule.InRange.tuned (h : schedule.InRange) {r : TuneResult δ}
    (hr : r.valid = true → 1 ≤ r.config.tile ∧ r.config.tile * 8 < 2 ^ 15) :
    (schedule.tuned r).InRange := by
  unfold Schedule.tuned
  split
  · next hvalid =>
      obtain ⟨hlow, hhigh⟩ := hr hvalid
      have hblock := wrapInt_of_lt (i := r.config.tile * 8) (by omega) (by omega)
      constructor
      · dsimp only
        omega
      · dsimp only
        omega
      · exact h.blockK
  · exact h

/-- So are the schedules that a pipeline launches with. -/
theorem CompilePipeline.scheduleOf_inRange [Zero δ] (p : CompilePipeline δ)
    (hsmall : ∀ db, p.tuning = some db → db.SmallTiles) (root : Node α) :
    (p.scheduleOf root).InRange := by
  unfold scheduleOf
  split
  · exact schedule_inRange root
  · next db hdb =>
      dsimp only
      split
      · exact (schedule_inRange root).tuned (hsmall db hdb).best
      · exact schedule_inRange root

/-! ## Bytes -/

/-- The shared memory that the planner computes for a schedule in range. -/
theorem Schedule.InRange.bytes (h : schedule.InRange) (type : ScalarType) :
    mulSize (mulSize (castSize schedule.blockK)
      (castSize (wrapInt (schedule.blockM + schedule.blockN)))) (elementBytes type) =
        (schedule.blockK * (schedule.blockM + schedule.blockN)).toNat * elementBytes type := by
  have hblockK := h.blockK
  have hbounds : PlanBounds 1 1 1 schedule :=
    ⟨by omega, by omega, by omega, h.blockM, h.blockN, by omega⟩
  exact sharedBytes_eq hbounds type

/-- The pipeline reserves two bytes for each element, whatever the type. -/
theorem launch_sharedBytes [Zero δ] (p : CompilePipeline δ) (d : Doubles δ)
    (group : FusionGroup) {root : Node α} (h : (p.scheduleOf root).InRange) :
    (p.launch d group root).sharedBytes =
      ((p.scheduleOf root).blockK *
        ((p.scheduleOf root).blockM + (p.scheduleOf root).blockN)).toNat * 2 := by
  have hplanned := h.bytes .f16
  unfold mulSize at hplanned
  rw [Nat.mod_mul_mod] at hplanned
  exact hplanned

/-- The planner takes the size of an element from the left operand. -/
theorem plan_sharedBytes (h : schedule.InRange) {lhs rhs : Shape} {M K N : Int}
    (hleft : lhs.dims = [M, K]) (hright : rhs.dims = [K, N]) :
    ∃ planned, plan lhs rhs schedule = some planned ∧ planned.sharedBytes =
      (schedule.blockK * (schedule.blockM + schedule.blockN)).toNat * elementBytes lhs.type := by
  have hblockK := h.blockK
  have hragged := anyRagged_eq [(M, schedule.blockM), (N, schedule.blockN), (K, schedule.blockK)]
    (by simpa using ⟨h.blockM.1, h.blockN.1, show 1 ≤ schedule.blockK by omega⟩)
  simp only [plan, matrixShape, hleft, hright, List.length_cons, List.length_nil,
    List.getD_cons_zero, List.getD_cons_succ, gridSize_wrapped h.blockM.1,
    gridSize_wrapped h.blockN.1, hragged, h.bytes lhs.type, Option.bind_eq_bind, Option.bind_some]
  rw [if_neg (by decide), if_neg (by simp)]
  split
  · exact ⟨_, rfl, rfl⟩
  · exact ⟨_, rfl, rfl⟩

/-- Two bytes are what the planner counts unless the left operand is `F32`. -/
theorem elementBytes_eq_two_iff (type : ScalarType) : elementBytes type = 2 ↔ type ≠ .f32 := by
  cases type <;> simp [elementBytes]

/-- Two bytes hold an element unless it is an `F32`. -/
theorem bytes_le_two_iff (type : ScalarType) : type.bytes ≤ 2 ↔ type ≠ .f32 := by
  cases type <;> simp [ScalarType.bytes]

/-! ## Launches of products -/

/-- The tiles of a schedule in range have elements. -/
theorem Schedule.InRange.pos (h : schedule.InRange) :
    0 < schedule.blockK * (schedule.blockM + schedule.blockN) := by
  have hblockK := h.blockK
  exact Int.mul_pos (by omega) (Int.add_pos h.blockM.1 h.blockN.1)

section launches

variable {launch : LaunchPlan δ} {lhs rhs : Shape}

/-- A launch of two bytes an element reserves what is planned for two bytes. -/
theorem reservesPlanned_iff (h : launch.schedule.InRange) (hbytes : launch.sharedBytes =
      (launch.schedule.blockK * (launch.schedule.blockM + launch.schedule.blockN)).toNat * 2)
    {M K N : Int} (hleft : lhs.dims = [M, K]) (hright : rhs.dims = [K, N]) :
    ReservesPlanned lhs rhs launch ↔ lhs.type ≠ .f32 := by
  obtain ⟨planned, hplan, hplanned⟩ := plan_sharedBytes h hleft hright
  have hpos := h.pos
  rw [← elementBytes_eq_two_iff]
  constructor
  · intro hreserves
    obtain ⟨planned', hplan', hsame⟩ := hreserves
    rw [hplan, Option.some.injEq] at hplan'
    rw [← hplan', hplanned, hbytes] at hsame
    exact (Nat.eq_of_mul_eq_mul_left (by omega) hsame).symm
  · intro htwo
    exact ⟨planned, hplan, by rw [hplanned, hbytes, htwo]⟩

/-- It holds tiles of elements of at most two bytes. -/
theorem holdsTiles_iff (h : launch.schedule.InRange) (hbytes : launch.sharedBytes =
      (launch.schedule.blockK * (launch.schedule.blockM + launch.schedule.blockN)).toNat * 2)
    (type : ScalarType) : HoldsTiles type launch ↔ type ≠ .f32 := by
  have hpos := h.pos
  have hreserved : (launch.sharedBytes : Int) =
      launch.schedule.blockK * (launch.schedule.blockM + launch.schedule.blockN) * 2 := by
    rw [hbytes, Int.natCast_mul, Int.toNat_of_nonneg (Int.le_of_lt hpos)]
    rfl
  rw [← bytes_le_two_iff, HoldsTiles, hreserved]
  constructor
  · intro hle
    exact_mod_cast Int.le_of_mul_le_mul_left hle hpos
  · intro hle
    exact Int.mul_le_mul_of_nonneg_left (by exact_mod_cast hle) (Int.le_of_lt hpos)

end launches

/-- **When a launch reserves enough shared memory.**  A product has one launch.  It
reserves what the tile planner plans for the operands exactly when the left operand is
not `F32`, and that holds the tiles of both operands exactly when neither is. -/
theorem shared_memory_iff [Zero δ] (p : CompilePipeline δ) (s : Scalar α) (d : Doubles δ)
    (hsmall : ∀ db, p.tuning = some db → db.SmallTiles) (h : Accepted m) {v : Nat}
    (hnode : m.nodes[v]? = some node) (hop : node.op = .matMul) {lhs rhs : Node α}
    (hoperands : node.inputs.map m.node = [some lhs, some rhs]) :
    ∃ report m', p.run s d m = some (report, m') ∧
      (∃ launch ∈ report.launches, launch.node = v) ∧
      ∀ launch ∈ report.launches, launch.node = v →
        (ReservesPlanned lhs.output.shape rhs.output.shape launch ↔
          lhs.output.shape.type ≠ .f32) ∧
        (SharedMemoryAgrees lhs.output.shape rhs.output.shape launch ↔
          lhs.output.shape.type ≠ .f32 ∧ rhs.output.shape.type ≠ .f32) := by
  obtain ⟨report, m', hrun, hex, hall⟩ := p.matMul_planned s d h hnode hop
  refine ⟨report, m', hrun, hex, ?_⟩
  intro launch hmem hv
  obtain ⟨group, node', rfl, _⟩ := hall launch hmem hv
  obtain ⟨lhs', rhs', shape, hoperands', hinfer, _⟩ := h.matMul_formed hnode hop
  rw [hoperands] at hoperands'
  obtain ⟨rfl, rfl⟩ : lhs = lhs' ∧ rhs = rhs' := by simpa using hoperands'
  obtain ⟨M, K, N, hleft, hright, _⟩ := dims_of_inferMatmul hinfer
  have hin := p.scheduleOf_inRange hsmall node'
  have hbytes := launch_sharedBytes p d group hin
  have hreserves := reservesPlanned_iff hin hbytes hleft hright
  have hholds := holdsTiles_iff hin hbytes
  refine ⟨hreserves, ?_, ?_⟩
  · intro hagrees
    exact ⟨hreserves.mp hagrees.planned, (hholds _).mp (hagrees.holds _ (by simp))⟩
  · intro htypes
    refine ⟨hreserves.mpr htypes.1, ?_⟩
    intro operand hoperand
    rcases List.mem_pair.mp hoperand with rfl | rfl
    · exact (hholds _).mpr htypes.1
    · exact (hholds _).mpr htypes.2

/-- A tuned product of two byte elements: 8192 bytes are planned and reserved. -/
theorem shared_memory_iff_example :
    let s : Scalar Int := ⟨0, 0, 1, 2, (· + ·), (· * ·), (· / ·), max, id, id⟩
    let d : Doubles Int := ⟨id, (· * ·), (· / ·), min⟩
    let db : TuneDatabase Int := TuneDatabase.record id {} 64 64 64 ⟨⟨8, 4, true⟩, 5, 7, false⟩
    let square : Shape := { dims := [64, 64], type := .f16 }
    let m : Module Int :=
      ⟨[⟨0, .parameter, [], ⟨0, square, "x"⟩, [], []⟩,
        ⟨1, .parameter, [], ⟨1, square, "y"⟩, [], []⟩,
        ⟨2, .matMul, [0, 1], ⟨2, square, "v2"⟩, [], []⟩], [2]⟩
    ∃ report m', CompilePipeline.run { tuning := some db } s d m = some (report, m') ∧
      ∃ launch ∈ report.launches, launch.node = 2 ∧ SharedMemoryAgrees square square launch := by
  intro s d db square m
  have hsmall : db.SmallTiles := by
    intro rows columns inner r hr
    by_cases hkey : (rows, columns, inner) = (64, 64, 64)
    · obtain ⟨rfl, rfl, rfl⟩ : rows = 64 ∧ columns = 64 ∧ inner = 64 := by simpa using hkey
      rw [TuneDatabase.candidates_record_self] at hr
      obtain rfl := List.mem_singleton.mp hr
      exact ⟨by decide, by decide⟩
    · rw [TuneDatabase.candidates_record_ne hkey] at hr
      cases hr
  have haccepted : Accepted m := ⟨Module.indexed_of_ids rfl (show 3 ≤ 2 ^ 31 by omega), rfl⟩
  have hproduct : m.nodes[2]? = some ⟨2, .matMul, [0, 1], ⟨2, square, "v2"⟩, [], []⟩ := rfl
  obtain ⟨report, m', hrun, ⟨launch, hmem, hv⟩, hall⟩ := shared_memory_iff
    { tuning := some db } s d (fun db' hdb' => Option.some.inj hdb' ▸ hsmall) haccepted hproduct
    rfl rfl
  exact ⟨report, m', hrun, launch, hmem, hv, (hall launch hmem hv).2.mpr ⟨by decide, by decide⟩⟩

/-- A product of two `F32` matrices with the default pipeline: 16384 bytes are reserved
for the 32768 that are planned. -/
theorem f32_product_reserves_half :
    let s : Scalar Int := ⟨0, 0, 1, 2, (· + ·), (· * ·), (· / ·), max, id, id⟩
    let d : Doubles Int := ⟨id, (· * ·), (· / ·), min⟩
    let square : Shape := { dims := [64, 64] }
    let m : Module Int :=
      ⟨[⟨0, .parameter, [], ⟨0, square, "x"⟩, [], []⟩,
        ⟨1, .parameter, [], ⟨1, square, "y"⟩, [], []⟩,
        ⟨2, .matMul, [0, 1], ⟨2, square, "v2"⟩, [], []⟩], [2]⟩
    Accepted m ∧ ∃ report m', CompilePipeline.run {} s d m = some (report, m') ∧
      ∃ launch ∈ report.launches, launch.node = 2 ∧ launch.sharedBytes = 16384 ∧
        (plan square square launch.schedule).map TilePlan.sharedBytes = some 32768 ∧
        ¬ SharedMemoryAgrees square square launch := by
  intro s d square m
  have haccepted : Accepted m := ⟨Module.indexed_of_ids rfl (show 3 ≤ 2 ^ 31 by omega), rfl⟩
  let product : Node Int := ⟨2, .matMul, [0, 1], ⟨2, square, "v2"⟩, [], []⟩
  have hproduct : m.nodes[2]? = some product := rfl
  obtain ⟨report, m', hrun, ⟨launch, hmem, hv⟩, hall⟩ :=
    CompilePipeline.matMul_planned {} s d haccepted hproduct rfl
  obtain ⟨group, node', rfl, hdims, htype⟩ := hall launch hmem hv
  have hschedule : schedule node' = { tensorCore := false } :=
    (schedule_congr hdims htype).trans (by decide +kernel : schedule product = _)
  have hplanned : (plan square square (schedule node')).map TilePlan.sharedBytes = some 32768 := by
    rw [hschedule]
    decide +kernel
  have hreserved : castSize (schedule node').blockK *
      castSize (wrapInt ((schedule node').blockM + (schedule node').blockN)) * 2 % 2 ^ 64 =
        16384 := by
    rw [hschedule]
    decide +kernel
  refine ⟨haccepted, report, m', hrun, _, hmem, hv, hreserved, hplanned, fun hagrees => ?_⟩
  obtain ⟨planned, hplan, hsame⟩ := hagrees.planned
  have hlaunch : plan square square (schedule node') = some planned := hplan
  rw [hlaunch, Option.map_some, Option.some.injEq, ← hsame] at hplanned
  exact absurd (hreserved.symm.trans hplanned) (by decide)

end Compiler

end Gpuforge

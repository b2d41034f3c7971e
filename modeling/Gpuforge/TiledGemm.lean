import Mathlib.Algebra.Ring.Defs
import Gpuforge.CpuGemm
import Gpuforge.DeviceAccess

/-!
# The tiled product on the device (`gemm_tiled`, `gemm_cuda`)

A block of 32 by 32 threads computes a tile of the output.  For each tile of the
inner dimension its threads load a tile of both operands into shared memory,
wait, multiply, and wait.  Each thread has one accumulator.

The threads of a block are in lock step: all take a statement, in some order,
before any takes the next one.  Shared and device memory start with any values
(`Uninitialized`).  A launch runs every block of its grid; what a device says
about the size of a grid is no part of the model.
-/

namespace Gpuforge

open ForLoop GridLaunch

/-- `kGemmTile`. -/
def kGemmTile : Nat := 32

theorem kGemmTile_pos : 0 < kGemmTile := by decide

/-- What memory holds before it is written. -/
structure Uninitialized (α : Type) where
  device : Nat → α
  lhsTile : Nat → Nat → α
  rhsTile : Nat → Nat → α

/-- The arguments of `gemm_tiled`: the input arrays, the size of the output
array, and the sizes. -/
structure GemmArgs (α : Type) where
  lhs : List α
  rhs : List α
  outputSize : Nat
  rows : Int
  columns : Int
  inner : Int

/-- The shared memory of a block and the accumulators of its threads. -/
structure GemmBlock (α : Type) where
  lhsTile : Nat → Nat → α
  rhsTile : Nat → Nat → α
  accumulator : Idx → α

section kernel

variable {α : Type} [Zero α] [Add α] [Mul α]

/-- `row` of a thread; `blockIdx` is unsigned. -/
def gemmRow (blockIdx threadIdx : Idx) : Int := castInt (blockIdx.y * kGemmTile + threadIdx.y)

/-- `column` of a thread. -/
def gemmColumn (blockIdx threadIdx : Idx) : Int :=
  castInt (blockIdx.x * kGemmTile + threadIdx.x)

/-- What a thread loads into `lhs_tile[ty][tx]`. -/
def lhsElement (args : GemmArgs α) (blockIdx : Idx) (block : Nat) (threadIdx : Idx) :
    Except Fault α :=
  let row := gemmRow blockIdx threadIdx
  if row < args.rows then do
    let position ← checkedInt (block + threadIdx.x)
    if position < args.inner then do
      let product ← checkedInt (row * args.inner)
      let sum ← checkedInt (product + block)
      let index ← checkedInt (sum + threadIdx.x)
      readAt args.lhs index
    else .ok 0
  else .ok 0

/-- What a thread loads into `rhs_tile[ty][tx]`. -/
def rhsElement (args : GemmArgs α) (blockIdx : Idx) (block : Nat) (threadIdx : Idx) :
    Except Fault α := do
  let column := gemmColumn blockIdx threadIdx
  let position ← checkedInt (block + threadIdx.y)
  if position < args.inner ∧ column < args.columns then do
    cellAt args.rhs position args.columns column
  else .ok 0

/-- `tile[y][x]`, read. -/
def tileAt (tile : Nat → Nat → α) (y x : Nat) : Except Fault α :=
  if y < kGemmTile ∧ x < kGemmTile then .ok (tile y x) else .error .outOfBounds

/-- `tile[y][x] = value`. -/
def setTile (tile : Nat → Nat → α) (y x : Nat) (value : α) : Except Fault (Nat → Nat → α) :=
  if y < kGemmTile ∧ x < kGemmTile then
    .ok fun y' x' => if y' = y ∧ x' = x then value else tile y' x'
  else .error .outOfBounds

def loadLhs (args : GemmArgs α) (blockIdx : Idx) (block : Nat) (threadIdx : Idx)
    (s : GemmBlock α) : Except Fault (GemmBlock α) := do
  let value ← lhsElement args blockIdx block threadIdx
  let tile ← setTile s.lhsTile threadIdx.y threadIdx.x value
  .ok { s with lhsTile := tile }

def loadRhs (args : GemmArgs α) (blockIdx : Idx) (block : Nat) (threadIdx : Idx)
    (s : GemmBlock α) : Except Fault (GemmBlock α) := do
  let value ← rhsElement args blockIdx block threadIdx
  let tile ← setTile s.rhsTile threadIdx.y threadIdx.x value
  .ok { s with rhsTile := tile }

/-- `accumulator += lhs_tile[ty][k] * rhs_tile[k][tx]`. -/
def multiply (k : Nat) (threadIdx : Idx) (s : GemmBlock α) : Except Fault (GemmBlock α) := do
  let x ← tileAt s.lhsTile threadIdx.y k
  let y ← tileAt s.rhsTile k threadIdx.x
  .ok { s with accumulator := fun t =>
    if t = threadIdx then s.accumulator t + x * y else s.accumulator t }

/-- One turn of the loop over `block`, with its two barriers. -/
def tileTurn (threads : TurnOrder) (args : GemmArgs α) (blockIdx : Idx) (block : Nat)
    (s : GemmBlock α) : Except Fault (GemmBlock α) := do
  let order := threads.turns kGemmTile kGemmTile
  let s ← loop (loadLhs args blockIdx block) order s
  let s ← loop (loadRhs args blockIdx block) order s
  loop (fun k => loop (multiply k) order) (upTo 0 kGemmTile) s

/-- The guarded store at the end. -/
def storeCell (args : GemmArgs α) (blockIdx : Idx) (s : GemmBlock α) (threadIdx : Idx) :
    Except Fault (List (Store α)) :=
  let row := gemmRow blockIdx threadIdx
  let column := gemmColumn blockIdx threadIdx
  if row < args.rows ∧ column < args.columns then do
    let index ← cellIndex row args.columns column
    writeAt args.outputSize blockIdx threadIdx index (s.accumulator threadIdx)
  else .ok []

/-- The kernel, for one block. -/
def gemmTiled (threads : TurnOrder) (fresh : Uninitialized α) (args : GemmArgs α)
    (blockIdx : Idx) : Except Fault (List (Store α)) := do
  let s ← counted (2 ^ 31) .overflow (tileTurn threads args blockIdx) args.inner.toNat kGemmTile
    ⟨fresh.lhsTile, fresh.rhsTile, fun _ => 0⟩
  gather (storeCell args blockIdx s) (threads.turns kGemmTile kGemmTile)

def gemmCuda (device : Device) (fresh : Uninitialized α) (lhs rhs : Tensor α) :
    Except Fault (Launched α) :=
  match lhs.shape, rhs.shape with
  | [lhsRows, lhsColumns], [rhsRows, rhsColumns] =>
      if lhsColumns ≠ rhsRows then .error (.threw .invalidArgument)
      else do
        let rows := castInt lhsRows
        let inner := castInt lhsColumns
        let columns := castInt rhsColumns
        let output ← Tensor.new [castSize rows, castSize columns]
        let args : GemmArgs α := ⟨lhs.storage, rhs.storage, output.numel, rows, columns, inner⟩
        let gridX := wrapInt (wrapInt (columns + kGemmTile) - 1)
        let gridY := wrapInt (wrapInt (rows + kGemmTile) - 1)
        let stores ← gather (gemmTiled device.threads fresh args)
          (device.blocks.turns (castUnsigned (gridX.tdiv kGemmTile))
            (castUnsigned (gridY.tdiv kGemmTile)))
        .ok (copyBack fresh.device stores output)
  | _, _ => .error (.threw .invalidArgument)

end kernel

end Gpuforge

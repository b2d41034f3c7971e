import Gpuforge.CpuAttention
import Gpuforge.DeviceAccess

/-!
# The fused attention kernel (`qkv_attention`, `attention_cuda`)

A block has 128 threads, and each thread computes one row of the output.  It keeps
the scores of its query in an array of 256 entries of its own, with their maximum,
which starts at `-1e30`.  It replaces the scores by exponentials, sums them, and
adds up the value rows.

Threads share no memory that is written, so a thread runs from its start to its
end.  The array of scores and device memory start with any values.
-/

namespace Gpuforge

open ForLoop GridLaunch

/-- `kAttentionBlock`. -/
def kAttentionBlock : Nat := 128

/-- The number of entries of `scores`. -/
def scoresSize : Nat := 256

/-- The arguments of `qkv_attention`, with the size of the output array. -/
structure AttentionArgs (α : Type) where
  query : List α
  key : List α
  value : List α
  outputSize : Nat
  queries : Int
  keys : Int
  depth : Int
  valueDim : Int
  scale : α
  causal : Bool

variable {α : Type} [Field α] [LinearOrder α]

/-- `scores[i]`, read. -/
def scoreAt (scores : Nat → α) (i : Nat) : Except Fault α :=
  if i < scoresSize then .ok (scores i) else .error .outOfBounds

/-- `scores[i] = value`. -/
def setScore (scores : Nat → α) (i : Nat) (value : α) : Except Fault (Nat → α) :=
  if i < scoresSize then .ok fun i' => if i' = i then value else scores i'
  else .error .outOfBounds

/-- `query_row` of a thread; `blockIdx` is unsigned. -/
def queryRow (blockIdx threadIdx : Idx) : Int :=
  castInt (blockIdx.x * kAttentionBlock + threadIdx.x)

/-- The loop over `d` for one key. -/
def keyScore (args : AttentionArgs α) (row : Int) (keyRow : Nat) : Except Fault α :=
  loop (fun (d : Nat) score => do
      let x ← cellAt args.query row args.depth d
      let y ← cellAt args.key keyRow args.depth d
      .ok (score + x * y))
    (upTo 0 args.depth.toNat) 0

/-- The body of the first loop over keys, on the scores and their maximum. -/
def scoreTurn (args : AttentionArgs α) (row : Int) (keyRow : Nat) (s : (Nat → α) × α) :
    Except Fault ((Nat → α) × α) := do
  let score ← keyScore args row keyRow
  let scores ← setScore s.1 keyRow
    (if args.causal ∧ row < keyRow then maskedScore else score * args.scale)
  let stored ← scoreAt scores keyRow
  .ok (scores, max s.2 stored)

/-- The body of the second loop over keys, on the scores and the denominator. -/
def exponentialTurn (exp : α → α) (maximum : α) (keyRow : Nat) (s : (Nat → α) × α) :
    Except Fault ((Nat → α) × α) := do
  let score ← scoreAt s.1 keyRow
  let scores ← setScore s.1 keyRow (exp (score - maximum))
  let stored ← scoreAt scores keyRow
  .ok (scores, s.2 + stored)

/-- The loop over keys for one entry of the output. -/
def valueSum (args : AttentionArgs α) (scores : Nat → α) (denominator : α) (d : Nat) :
    Except Fault α :=
  loop (fun (keyRow : Nat) result => do
      let score ← scoreAt scores keyRow
      let x ← cellAt args.value keyRow args.valueDim d
      .ok (result + score / denominator * x))
    (upTo 0 args.keys.toNat) 0

/-- The kernel, for one thread. -/
def qkvAttention (exp : α → α) (stack : Idx → Idx → Nat → α) (args : AttentionArgs α)
    (blockIdx threadIdx : Idx) : Except Fault (List (Store α)) :=
  let row := queryRow blockIdx threadIdx
  if args.queries ≤ row then .ok []
  else do
    let s ← loop (scoreTurn args row) (upTo 0 args.keys.toNat)
      (stack blockIdx threadIdx, -1000000000000000000000000000000)
    let e ← loop (exponentialTurn exp s.2) (upTo 0 args.keys.toNat) (s.1, 0)
    gather (fun (d : Nat) => do
        let result ← valueSum args e.1 e.2 d
        let index ← cellIndex row args.valueDim d
        writeAt args.outputSize blockIdx threadIdx index result)
      (upTo 0 args.valueDim.toNat)

def attentionCuda (math : FloatMath α) (device : Device) (fresh : Nat → α)
    (stack : Idx → Idx → Nat → α) (query key value : Tensor α) (config : AttentionConfig α) :
    Except Fault (Launched α) :=
  match query.shape, key.shape, value.shape with
  | [queryRows, queryDepth], [keyRows, keyDepth], [valueRows, valueColumns] =>
      if queryDepth ≠ keyDepth ∨ keyRows ≠ valueRows ∨ scoresSize < keyRows then
        .error (.threw .invalidArgument)
      else do
        let queries := castInt queryRows
        let keys := castInt keyRows
        let depth := castInt queryDepth
        let valueDim := castInt valueColumns
        let output ← Tensor.new [castSize queries, castSize valueDim]
        let scale := if config.scale = 0 then 1 / math.sqrt depth else config.scale
        let args : AttentionArgs α := ⟨query.storage, key.storage, value.storage, output.numel,
          queries, keys, depth, valueDim, scale, config.causal⟩
        let rounded := wrapInt (wrapInt (queries + kAttentionBlock) - 1)
        let stores ← gather (fun blockIdx =>
            gather (qkvAttention math.exp stack args blockIdx)
              (device.threads.turns kAttentionBlock 1))
          (device.blocks.turns (castUnsigned (rounded.tdiv kAttentionBlock)) 1)
        .ok (copyBack fresh stores output)
  | _, _, _ => .error (.threw .invalidArgument)

end Gpuforge

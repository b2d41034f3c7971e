import Mathlib.Order.WithBot
import Gpuforge.CpuGemm
import Gpuforge.ExpWeights

/-!
# Attention on the CPU (`kernels.cpp`)

`softmax` replaces each row of a matrix by the weights of its entries, shifted by
their maximum.  The loop for the maximum starts at minus infinity, which is `⊥`.

`attention` transposes the keys, multiplies, scales, masks the later keys of each
query when it is causal, takes the softmax, and multiplies by the values.

Arithmetic is exact: over an ordered field, with `exp` and `sqrt` as parameters.
The tile of an `AttentionConfig` is not read by the code and is left out.
-/

namespace Gpuforge

open ForLoop ExpWeights

/-- The functions of `<cmath>`. -/
structure FloatMath (α : Type) where
  exp : α → α
  sqrt : α → α

structure AttentionConfig (α : Type) where
  scale : α
  causal : Bool

section code

variable {α : Type} [Field α] [LinearOrder α]

/-- The loop for the maximum of a row. -/
def rowMaximum (input : Tensor α) (columns row : Nat) : Except Fault (WithBot α) :=
  loop (fun column maximum => do
      let x ← input.get (flatIndex row columns column)
      .ok (max maximum (x : WithBot α)))
    (upTo 0 columns) ⊥

/-- The loop for the exponentials of a row and their sum. -/
def rowExponentials (exp : α → α) (input : Tensor α) (columns row : Nat) (maximum : α)
    (output : Tensor α) : Except Fault (Tensor α × α) :=
  loop (fun column s => do
      let x ← input.get (flatIndex row columns column)
      let value := exp (x - maximum)
      let output ← s.1.put (flatIndex row columns column) value
      .ok (output, s.2 + value))
    (upTo 0 columns) (output, 0)

/-- The loop that divides a row. -/
def rowDivide (columns row : Nat) (denominator : α) (output : Tensor α) :
    Except Fault (Tensor α) :=
  loop (fun column output => do
      let value ← output.get (flatIndex row columns column)
      output.put (flatIndex row columns column) (value / denominator))
    (upTo 0 columns) output

/-- The loop body of `softmax`.  A row has an entry, so its maximum is no `⊥`. -/
def softmaxRow (exp : α → α) (input : Tensor α) (columns row : Nat) (output : Tensor α) :
    Except Fault (Tensor α) := do
  let maximum ← rowMaximum input columns row
  let s ← rowExponentials exp input columns row (maximum.unbotD 0) output
  rowDivide columns row s.2 s.1

def softmax (exp : α → α) (input : Tensor α) : Except Fault (Tensor α) :=
  match input.shape with
  | [rows, columns] =>
      if columns = 0 then .error (.threw .invalidArgument)
      else do
        let output ← Tensor.new [rows, columns]
        loop (softmaxRow exp input columns) (upTo 0 rows) output
  | _ => .error (.threw .invalidArgument)

/-- The loops that fill `transposed_key`. -/
def transposeKey (key : Tensor α) (keys depth : Nat) : Except Fault (Tensor α) := do
  let transposed ← Tensor.new [depth, keys]
  loop (fun row =>
      loop (fun column transposed => do
          let x ← key.get (flatIndex row depth column)
          transposed.put (flatIndex column keys row) x)
        (upTo 0 depth))
    (upTo 0 keys) transposed

/-- `scores.at(i) *= scale` for all entries. -/
def scaleScores (scale : α) (scores : Tensor α) : Except Fault (Tensor α) :=
  loop (fun i scores => do
      let x ← scores.get i
      scores.put i (x * scale))
    (upTo 0 scores.numel) scores

/-- The score of a masked key. -/
def maskedScore : α := -1000000000

/-- The loops that mask the later keys. -/
def maskScores (queries keys : Nat) (scores : Tensor α) : Except Fault (Tensor α) :=
  loop (fun row =>
      loop (fun column scores => scores.put (flatIndex row keys column) maskedScore)
        (upTo (addSize row 1) keys))
    (upTo 0 queries) scores

/-- The mask, for causal attention. -/
def applyMask (causal : Bool) (queries keys : Nat) (scores : Tensor α) :
    Except Fault (Tensor α) :=
  if causal then maskScores queries keys scores else .ok scores

/-- `config.scale`, where zero asks for one over the root of the depth. -/
def scaleOf (math : FloatMath α) (config : AttentionConfig α) (depth : Nat) : α :=
  if config.scale = 0 then 1 / math.sqrt depth else config.scale

def attention (math : FloatMath α) (query key value : Tensor α) (config : AttentionConfig α) :
    Except Fault (Tensor α) :=
  match query.shape, key.shape, value.shape with
  | [queries, depth], [keys, keyDepth], [valueRows, _] =>
      if depth ≠ keyDepth ∨ keys ≠ valueRows then .error (.threw .invalidArgument)
      else do
        let transposed ← transposeKey key keys keyDepth
        let scores ← gemm query transposed
        let scores ← scaleScores (scaleOf math config depth) scores
        let scores ← applyMask config.causal queries keys scores
        let weights ← softmax math.exp scores
        gemm weights value
  | _, _, _ => .error (.threw .invalidArgument)

end code

end Gpuforge

import Mathlib.Algebra.Order.Field.Basic
import Gpuforge.CompilePipeline
import Gpuforge.ErrorFunction
import Gpuforge.FoldingMeaning

/-!
# Generated kernels (`PassManager::emit_cuda`)

The generator prints a kernel of one statement: it stores one expression over
`input[i]` and `rhs[i]` into `output[i]`, for each `i` below `n`.  Which expression
that is depends on the operator of the first node of the group.

A `Kernel` holds what the text varies in.  `Kernel.str` is the text, and
`Kernel.thread` what a thread stores when it runs the text: an expression is both
printed and evaluated, so the two belong together.  Arithmetic is exact, and `erf`,
`tanh` and `sqrt` are parameters.
-/

namespace Gpuforge.Compiler

/-! ## Expressions -/

/-- The float literals of the generated code. -/
inductive Literal where
  | half
  | one
  | tanhScale
  | tanhCubic
  deriving DecidableEq, Repr

def Literal.str : Literal → String
  | .half => "0.5f"
  | .one => "1.0f"
  | .tanhScale => "0.79788456f"
  | .tanhCubic => "0.044715f"

def Literal.value {α : Type} [Field α] : Literal → α
  | .half => 1 / 2
  | .one => 1
  | .tanhScale => 79788456 / 100000000
  | .tanhCubic => 44715 / 1000000

inductive KernelExpr where
  | input
  | rhs
  | literal (value : Literal)
  | add (x y : KernelExpr)
  | mul (x y : KernelExpr)
  | paren (x : KernelExpr)
  | tanhf (x : KernelExpr)
  /-- `x > 0.0f ? x : 0.0f` -/
  | positive (x : KernelExpr)
  deriving DecidableEq, Repr

namespace KernelExpr

def str : KernelExpr → String
  | input => "input[i]"
  | rhs => "rhs[i]"
  | literal value => value.str
  | add x y => x.str ++ " + " ++ y.str
  | mul x y => x.str ++ " * " ++ y.str
  | paren x => "(" ++ x.str ++ ")"
  | tanhf x => "tanhf(" ++ x.str ++ ")"
  | positive x => x.str ++ " > 0.0f ? " ++ x.str ++ " : 0.0f"

/-- The value, given what is read at `input[i]` and `rhs[i]`; `none` is a read
out of range. -/
def eval {α : Type} [Field α] [LinearOrder α] (tanh : α → α) (inputEntry rhsEntry : Option α) :
    KernelExpr → Option α
  | input => inputEntry
  | rhs => rhsEntry
  | literal value => some value.value
  | add x y =>
      match x.eval tanh inputEntry rhsEntry, y.eval tanh inputEntry rhsEntry with
      | some a, some b => some (a + b)
      | _, _ => none
  | mul x y =>
      match x.eval tanh inputEntry rhsEntry, y.eval tanh inputEntry rhsEntry with
      | some a, some b => some (a * b)
      | _, _ => none
  | paren x => x.eval tanh inputEntry rhsEntry
  | tanhf x => (x.eval tanh inputEntry rhsEntry).map tanh
  | positive x => (x.eval tanh inputEntry rhsEntry).map fun a => if a > 0 then a else 0

end KernelExpr

/-- What is stored for an operator; `none` is not supported. -/
def kernelBody : Op → Option KernelExpr
  | .relu => some (.positive .input)
  | .add => some (.add .input .rhs)
  | .mul => some (.mul .input .rhs)
  | .gelu =>
      some (.mul (.mul (.literal .half) .input) (.paren (.add (.literal .one) (.tanhf
        (.mul (.literal .tanhScale) (.paren (.add .input
          (.mul (.mul (.mul (.literal .tanhCubic) .input) .input) .input))))))))
  | _ => none

/-- The text for `Gelu`. -/
example : (kernelBody .gelu).map KernelExpr.str =
    some ("0.5f * input[i] * (1.0f + tanhf(0.79788456f * " ++
      "(input[i] + 0.044715f * input[i] * input[i] * input[i])))") := by
  decide +kernel

/-! ## Kernels -/

structure Kernel where
  nodes : List Int
  schedule : String
  name : String
  body : KernelExpr
  deriving DecidableEq, Repr

/-- The text of a kernel. -/
def Kernel.str (kernel : Kernel) : String :=
  "// generated by GPUForge\n// nodes: " ++
    String.join (kernel.nodes.map fun id => toString id ++ " ") ++
    "\n// schedule " ++ kernel.schedule ++ "\n" ++
    "extern \"C\" __global__ void " ++ kernel.name ++
    "(const float* input, const float* rhs, float* output, int n) \x7b\n" ++
    "  const int i = blockIdx.x * blockDim.x + threadIdx.x;\n" ++
    "  if (i >= n) return;\n" ++
    "  output[i] = " ++ kernel.body.str ++ ";\n" ++
    "\x7d\n"

/-- What the thread with a global index stores at `output[i]`; `none` when it
stores nothing, or reads out of range. -/
def Kernel.thread {α : Type} [Field α] [LinearOrder α] (kernel : Kernel) (tanh : α → α)
    (input rhs : Nat → Option α) (n : Int) (index : Nat) : Option α :=
  let i := castInt index
  if n ≤ i then none
  else if i < 0 then none
  else kernel.body.eval tanh (input i.toNat) (rhs i.toNat)

section emit

variable {α : Type}

/-- The kernel of a group.  The groups of `fuse` have a first node; the lookup
of a node may throw. -/
def kernelOf (m : Module α) (group : FusionGroup) (schedule : Schedule) : Except Exn Kernel :=
  match group.nodes with
  | [] => .error .outOfRange
  | front :: _ =>
      match m.node front with
      | none => .error .outOfRange
      | some node =>
          match kernelBody node.op with
          | none => .error .invalidArgument
          | some body => .ok ⟨group.nodes, schedule.str, group.kernel, body⟩

def emitCuda (m : Module α) (group : FusionGroup) (schedule : Schedule) : Except Exn String :=
  (kernelOf m group schedule).map Kernel.str

end emit

/-! ## What a group means -/

/-- The functions of `<cmath>` that operators and kernels use. -/
structure MathFunctions (α : Type) where
  erf : α → α
  tanh : α → α
  sqrt : α → α

section meaning

variable {α : Type} [Field α] [LinearOrder α]

/-- The operators, in exact arithmetic. -/
def MathFunctions.scalar (math : MathFunctions α) : Scalar α where
  zero := 0
  half := 1 / 2
  one := 1
  two := 2
  add := fun x y => x + y
  mul := fun x y => x * y
  div := fun x y => x / y
  max := max
  erf := math.erf
  sqrt := math.sqrt

/-- What is known of the functions: `erf` comes close to 1 quickly and stays below,
`tanh` does not exceed 1, and the kernel's formula for `Gelu` is somewhere larger
than the one with `erf`. -/
structure MathFunctions.Laws (math : MathFunctions α) : Prop where
  sqrt_two : 0 < math.sqrt 2
  erf_pos : ∀ x, 0 < x → 0 < math.erf x
  erf_lt_one : ∀ x, math.erf x < 1
  erf_limit : ∀ ε, 0 < ε → ∃ bound, ∀ x, bound ≤ x → x * (1 - math.erf x) ≤ ε
  tanh_le_one : ∀ x, math.tanh x ≤ 1
  tanh_above : ∃ x, 0 < x ∧ math.erf (x / math.sqrt 2) <
    math.tanh (Literal.tanhScale.value * (x + Literal.tanhCubic.value * x * x * x))

noncomputable def MathFunctions.real : MathFunctions ℝ where
  erf := ErrorFunction.erf
  tanh := Real.tanh
  sqrt := Real.sqrt

/-- At 10 the `tanh` of the kernel is above the `erf` of the operator. -/
theorem MathFunctions.real_above_at_ten : MathFunctions.real.erf (10 / MathFunctions.real.sqrt 2) <
    MathFunctions.real.tanh
      (Literal.tanhScale.value * (10 + Literal.tanhCubic.value * 10 * 10 * 10)) := by
  refine ErrorFunction.erf_lt_tanh (div_nonneg (by norm_num) (Real.sqrt_nonneg 2)) ?_
  have hroot : (10 : ℝ) / √2 ≤ 8 := by
    rw [div_le_iff₀ (Real.sqrt_pos.mpr two_pos)]
    have hsqrt : (5 : ℝ) / 4 ≤ √2 := Real.le_sqrt_of_sq_le (by norm_num)
    linarith
  have hsquare : ((10 : ℝ) / √2 + 1) ^ 2 ≤ 9 ^ 2 :=
    pow_le_pow_left₀ (by positivity) (by linarith) 2
  refine le_trans (add_le_add_left hsquare 1) ?_
  norm_num [Literal.value]

/-- **The laws hold of the real functions.**  The two formulas for `Gelu` differ at 10. -/
theorem MathFunctions.real_laws : MathFunctions.real.Laws where
  sqrt_two := Real.sqrt_pos.mpr two_pos
  erf_pos := fun _ hx => ErrorFunction.erf_pos hx
  erf_lt_one := ErrorFunction.erf_lt_one
  erf_limit := fun _ hε => ErrorFunction.erf_limit hε
  tanh_le_one := fun x => (Real.tanh_lt_one x).le
  tanh_above := ⟨10, by norm_num, MathFunctions.real_above_at_ten⟩

/-- A value from outside of the group, with given contents. -/
def externalArray (contents : Nat → Nat → α) (node : Node α) : NodeArray α :=
  arrayOver node.output.shape.dims fun j => some (contents node.id.toNat j)

/-- What a node denotes: the nodes of the group are computed. -/
def groupMeaning (math : MathFunctions α) (contents : Nat → Nat → α) (group : FusionGroup)
    (node : Node α) (inputs : List (Option (NodeArray α))) : NodeArray α :=
  if node.id ∈ group.nodes then
    nodeArray math.scalar (fun _ _ => none) (fun _ _ _ _ _ => none) node inputs
  else externalArray contents node

/-- The arrays of a module in which only a group is computed. -/
def Module.groupArrays (m : Module α) (math : MathFunctions α) (contents : Nat → Nat → α)
    (group : FusionGroup) : List (NodeArray α) :=
  Dataflow.evaluate (groupMeaning math contents group) Node.args m.nodes

/-- The entries passed to the kernel for an operand of the first node. -/
def Module.argument (m : Module α) (contents : Nat → Nat → α) (root : Node α) (k : Nat) :
    Nat → Option α :=
  match (root.inputs[k]?).bind m.node with
  | some operand => (externalArray contents operand).entries
  | none => fun _ => none

/-- **What the kernel of a group should do.**  For all contents, thread `i` stores
the entry `i` of the last node, for every `i` below its element count. -/
def ComputesGroup (m : Module α) (math : MathFunctions α) (group : FusionGroup)
    (kernel : Kernel) : Prop :=
  ∀ root last : Node α, group.nodes.head?.bind m.node = some root →
    group.nodes.getLast?.bind m.node = some last →
    ∀ contents : Nat → Nat → α,
      ∀ i < last.output.shape.elements, ∃ value array,
        kernel.thread math.tanh (m.argument contents root 0) (m.argument contents root 1)
          (castInt last.output.shape.elements) i = some value ∧
        (m.groupArrays math contents group)[last.id.toNat]? = some array ∧
        array.entries i = some value

/-- Where broadcasting reads an operand. -/
def operandOffset (node operand : Node α) (j : Nat) : Nat :=
  BroadcastIndex.offset (axes node.output.shape.dims node.output.shape.dims.length)
    (axes operand.output.shape.dims node.output.shape.dims.length) j

/-- **Where the kernel suffices**, for `n` entries of the last node.  The first node
is a `Relu`, an `Add` or a `Mul`; the others only copy its entries, or take the
positive part of numbers that are not negative; every array has `n` entries, and
broadcasting reads the operands in place. -/
structure KernelSuffices (m : Module α) (group : FusionGroup) (root : Node α) (n : Nat) :
    Prop where
  narrow : n < 2 ^ 31
  rootOp : root.op = .relu ∨ root.op = .add ∨ root.op = .mul
  laterOps : ∀ id ∈ group.nodes.tail, ∀ node, m.node id = some node →
    node.op = .cast ∨ node.op = .relu ∧
      (root.op = .relu ∨ root.op = .mul ∧ root.inputs[0]? = root.inputs[1]?)
  sizes : ∀ id ∈ group.nodes, ∀ node, m.node id = some node → n ≤ volume node.output.shape.dims
  operands : ∀ id ∈ root.inputs, ∀ operand, m.node id = some operand →
    n ≤ volume operand.output.shape.dims
  inPlace : root.op ≠ .relu → ∀ id ∈ root.inputs, ∀ operand, m.node id = some operand →
    ∀ j < n, operandOffset root operand j = j

/-- The last node of the group is empty, or the kernel suffices. -/
def WithinKernel (m : Module α) (group : FusionGroup) : Prop :=
  ∀ root last : Node α, group.nodes.head?.bind m.node = some root →
    group.nodes.getLast?.bind m.node = some last →
    last.output.shape.elements = 0 ∨
      KernelSuffices m group root last.output.shape.elements

end meaning

end Gpuforge.Compiler

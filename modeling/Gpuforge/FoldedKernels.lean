import Gpuforge.FoldingTurns
import Gpuforge.GroupKernels

/-!
# Folded payloads and generated kernels (`compiler.cpp`)

What `Add`, `Mul`, `Relu` and `Gelu` do to numbers is written twice: as loops in
`constant_fold`, and as the statement that `emit_cuda` prints.  The two agree for the
first three.  For `Gelu` folding uses `erf` and the kernel an approximation with `tanh`,
so that a payload is what the kernel stores only where the two functions happen to meet
(`folded_kernel_iff`, `gelu_folds_otherwise`).
-/

namespace Gpuforge.Compiler

variable {α : Type}

/-- The operands of a node: constants with payloads of as many entries as the node. -/
structure ConstantOperands (m : Module α) (node : Node α) (operands : List (Node α)) :
    Prop where
  found : node.inputs.map m.node = operands.map some
  arity : node.inputs.length = expectedInputs node.op
  constant : ∀ operand ∈ operands, operand.op = .constant
  payload : ∀ operand ∈ operands, operand.constantData.length = node.output.shape.elements

/-- The pass stores a payload for the node at a position. -/
def FoldedTo (s : Scalar α) (m : Module α) (v : Nat) (payload : List α) : Prop :=
  ∃ node, (m.constantFold s).2.nodes[v]? = some node ∧ node.op = .constant ∧
    node.constantData = payload

/-- The payload of an operand as an argument of a kernel. -/
def payloadArgument (operands : List (Node α)) (k i : Nat) : Option α :=
  (operands[k]?).bind fun operand => operand.constantData[i]?

section gives

variable [Field α] [LinearOrder α]

/-- Every kernel that is generated for the node at a position stores a payload, entry
by entry, when it runs on the payloads of the operands. -/
def KernelGives (math : MathFunctions α) (m : Module α) (v : Nat) (operands : List (Node α))
    (payload : List α) : Prop :=
  ∀ (group : FusionGroup) (schedule : Schedule), group.nodes.head? = some (v : Int) →
    ∃ kernel, kernelOf m group schedule = .ok kernel ∧
      ∀ i < payload.length,
        kernel.thread math.tanh (payloadArgument operands 0) (payloadArgument operands 1)
          (castInt payload.length) i = payload[i]?

/-- **Folding gives what the kernel gives.** -/
def FoldsLikeKernel (math : MathFunctions α) (m : Module α) (v : Nat) (node : Node α)
    (operands : List (Node α)) : Prop :=
  ∀ payload, FoldedTo math.scalar m v payload →
    payload.length = node.output.shape.elements ∧ KernelGives math m v operands payload

/-- The two formulas for `Gelu` have one value: at 0, and where `erf` and `tanh` meet. -/
def GeluAgrees (math : MathFunctions α) (x : α) : Prop :=
  x = 0 ∨ math.erf (x / math.sqrt math.scalar.two) =
    math.tanh (Literal.tanhScale.value * (x + Literal.tanhCubic.value * x * x * x))

end gives

/-- The operators with a kernel. -/
abbrev HasKernel (op : Op) : Prop := op = .add ∨ op = .mul ∨ op = .relu ∨ op = .gelu

/-! ## Operands -/

section operands

variable {m : Module α} {node : Node α} {operands : List (Node α)} {v : Nat}

/-- Operands are found, and constants. -/
theorem ConstantOperands.constants (h : ConstantOperands m node operands) :
    ∀ id ∈ node.inputs, ∃ operand, m.node id = some operand ∧ operand.op = .constant := by
  intro id hid
  have hmem : m.node id ∈ operands.map some := h.found ▸ List.mem_map_of_mem hid
  obtain ⟨operand, hoperand, heq⟩ := List.mem_map.mp hmem
  exact ⟨operand, heq.symm, h.constant operand hoperand⟩

/-- A node that takes one operand has it. -/
theorem ConstantOperands.one (h : ConstantOperands m node operands)
    (harity : expectedInputs node.op = 1) :
    ∃ id input, node.inputs = [id] ∧ operands = [input] ∧ m.node id = some input := by
  obtain ⟨id, hinputs⟩ := List.length_eq_one_iff.mp (h.arity.trans harity)
  have hlength := congrArg List.length h.found
  rw [List.length_map, List.length_map, hinputs] at hlength
  obtain ⟨input, hoperands⟩ := List.length_eq_one_iff.mp hlength.symm
  have hfound := h.found
  simp only [hinputs, hoperands, List.map_cons, List.map_nil, List.cons.injEq, and_true] at hfound
  exact ⟨id, input, hinputs, hoperands, hfound⟩

/-- A node that takes two operands has them. -/
theorem ConstantOperands.two (h : ConstantOperands m node operands)
    (harity : expectedInputs node.op = 2) :
    ∃ first second lhs rhs, node.inputs = [first, second] ∧ operands = [lhs, rhs] ∧
      m.node first = some lhs ∧ m.node second = some rhs := by
  obtain ⟨first, second, hinputs⟩ := List.length_eq_two.mp (h.arity.trans harity)
  have hlength := congrArg List.length h.found
  rw [List.length_map, List.length_map, hinputs] at hlength
  obtain ⟨lhs, rhs, hoperands⟩ := List.length_eq_two.mp hlength.symm
  have hfound := h.found
  simp only [hinputs, hoperands, List.map_cons, List.map_nil, List.cons.injEq, and_true] at hfound
  exact ⟨first, second, lhs, rhs, hinputs, hoperands, hfound.1, hfound.2⟩

end operands

/-! ## Entries -/

section entries

variable [Field α] [LinearOrder α] {math : MathFunctions α}

/-- `Relu` is the same function in both. -/
theorem relu_agrees (math : MathFunctions α) (x : α) :
    (if x > 0 then x else 0) = math.scalar.unary .relu x := by
  rw [scalar_relu]
  split
  · next hpos => rw [max_eq_right hpos.le]
  · next hneg => rw [max_eq_left (not_lt.mp hneg)]

/-- `Gelu` is the same where its formulas meet. -/
theorem gelu_agrees_iff [IsStrictOrderedRing α] (math : MathFunctions α) (x : α) :
    1 / 2 * x * (1 + math.tanh (Literal.tanhScale.value *
      (x + Literal.tanhCubic.value * x * x * x))) = math.scalar.unary .gelu x ↔
        GeluAgrees math x := by
  have hhalf : (1 / 2 : α) ≠ 0 := by norm_num
  rw [scalar_gelu, mul_eq_mul_left_iff, add_right_inj, mul_eq_zero, or_iff_right hhalf, or_comm,
    GeluAgrees]
  exact or_congr Iff.rfl eq_comm

/-- What the pass makes of a node with constant operands, beside what the kernel makes
of the same entries. -/
structure FoldsEntrywise (math : MathFunctions α) (m : Module α) (node : Node α)
    (operands : List (Node α)) (data : List α) (body : KernelExpr) : Prop where
  hasBody : kernelBody node.op = some body
  length : data.length = node.output.shape.elements
  folded : foldedData math.scalar m node =
    .ok (if node.output.shape.elements = 0 then none else some data)
  entry : ∀ i < node.output.shape.elements,
    body.eval math.tanh (payloadArgument operands 0 i) (payloadArgument operands 1 i) = data[i]? ↔
      (node.op = .gelu → ∀ x, payloadArgument operands 0 i = some x → GeluAgrees math x)

/-- Nodes with one operand. -/
theorem ConstantOperands.entrywise_unary [IsStrictOrderedRing α] (math : MathFunctions α)
    {m : Module α} {node : Node α} {operands : List (Node α)}
    (h : ConstantOperands m node operands) (hop : node.op = .relu ∨ node.op = .gelu) :
    ∃ data body, FoldsEntrywise math m node operands data body := by
  obtain ⟨id, input, hinputs, rfl, hinput⟩ :=
    h.one (by rcases hop with hop | hop <;> rw [hop] <;> rfl)
  have hlength : input.constantData.length = node.output.shape.elements :=
    h.payload input (List.mem_singleton_self _)
  have hconstant : input.op = .constant := h.constant input (List.mem_singleton_self _)
  have hunary : IsUnary node.op := by rcases hop with hop | hop <;> simp [IsUnary, hop]
  have hfolded : foldedData math.scalar m node =
      .ok (if node.output.shape.elements = 0 then none
        else some (input.constantData.map (math.scalar.unary node.op))) := by
    rw [← hlength]
    simp only [foldedData, if_neg hunary.not_binary, if_pos hunary, foldedUnary, hinputs, hinput,
      hconstant, ne_eq, not_true_eq_false, false_or, List.length_eq_zero_iff]
    split <;> rfl
  have hread : ∀ i < node.output.shape.elements, ∃ x, input.constantData[i]? = some x :=
    fun i hi => ⟨_, List.getElem?_eq_getElem (hlength ▸ hi)⟩
  rcases hop with hop | hop
  · refine ⟨_, _, by rw [hop]; rfl, (List.length_map _).trans hlength, hfolded, ?_⟩
    intro i hi
    obtain ⟨x, hx⟩ := hread i hi
    refine iff_of_true ?_ fun hgelu => by rw [hop] at hgelu; cases hgelu
    rw [List.getElem?_map, hx, hop, Option.map_some, ← relu_agrees]
    simp [payloadArgument, hx, KernelExpr.eval]
  · refine ⟨_, _, by rw [hop]; rfl, (List.length_map _).trans hlength, hfolded, ?_⟩
    intro i hi
    obtain ⟨x, hx⟩ := hread i hi
    have hargument : payloadArgument [input] 0 i = some x := hx
    have hcondition : (node.op = .gelu → ∀ y, some x = some y → GeluAgrees math y) ↔
        GeluAgrees math x :=
      ⟨fun h => h hop x rfl, fun h _ y hy => Option.some.inj hy ▸ h⟩
    rw [hargument, hcondition, ← gelu_agrees_iff, List.getElem?_map, hx, hop, Option.map_some]
    exact Option.some_inj

/-- Nodes with two operands. -/
theorem ConstantOperands.entrywise_binary (math : MathFunctions α) {m : Module α}
    {node : Node α} {operands : List (Node α)} (h : ConstantOperands m node operands)
    (hop : IsBinary node.op) : ∃ data body, FoldsEntrywise math m node operands data body := by
  obtain ⟨first, second, lhs, rhs, hinputs, rfl, hlhs, hrhs⟩ :=
    h.two (by rcases hop with hop | hop <;> rw [hop] <;> rfl)
  have hleft : lhs.constantData.length = node.output.shape.elements := h.payload lhs (by simp)
  have hright : rhs.constantData.length = node.output.shape.elements := h.payload rhs (by simp)
  have hlop : lhs.op = .constant := h.constant lhs (by simp)
  have hrop : rhs.op = .constant := h.constant rhs (by simp)
  have hfolded : foldedData math.scalar m node =
      .ok (if node.output.shape.elements = 0 then none
        else some (List.zipWith (math.scalar.binary node.op) lhs.constantData
          rhs.constantData)) := by
    simp only [foldedData, if_pos hop, foldedBinary, hinputs, hlhs, hrhs, hlop, hrop, ne_eq,
      not_true_eq_false, false_or, hleft, hright, or_false, ← List.length_eq_zero_iff]
    split <;> rfl
  have hlength : (List.zipWith (math.scalar.binary node.op) lhs.constantData
      rhs.constantData).length = node.output.shape.elements := by
    rw [List.length_zipWith, hleft, hright, Nat.min_self]
  have hnotGelu : node.op ≠ .gelu := by rcases hop with hop | hop <;> simp [hop]
  have hread : ∀ i < node.output.shape.elements, ∃ x y, lhs.constantData[i]? = some x ∧
      rhs.constantData[i]? = some y := fun i hi =>
    ⟨_, _, List.getElem?_eq_getElem (hleft ▸ hi), List.getElem?_eq_getElem (hright ▸ hi)⟩
  rcases hop with hop | hop <;>
  · refine ⟨_, _, by rw [hop]; rfl, hlength, hfolded, ?_⟩
    intro i hi
    obtain ⟨x, y, hx, hy⟩ := hread i hi
    refine iff_of_true ?_ fun hgelu => absurd hgelu hnotGelu
    rw [List.getElem?_zipWith, hx, hy, hop]
    simp [payloadArgument, hx, hy, KernelExpr.eval, Scalar.binary, MathFunctions.scalar]

/-- Nodes with an operator that has a kernel. -/
theorem ConstantOperands.entrywise [IsStrictOrderedRing α] (math : MathFunctions α)
    {m : Module α} {node : Node α} {operands : List (Node α)}
    (h : ConstantOperands m node operands) (hop : HasKernel node.op) :
    ∃ data body, FoldsEntrywise math m node operands data body := by
  rcases hop with hop | hop | hop | hop
  · exact h.entrywise_binary math (Or.inl hop)
  · exact h.entrywise_binary math (Or.inr hop)
  · exact h.entrywise_unary math (Or.inl hop)
  · exact h.entrywise_unary math (Or.inr hop)

/-! ## Kernels of a node -/

section node

variable {m : Module α} {node : Node α} {operands : List (Node α)} {v : Nat} {data : List α}
  {body : KernelExpr}

omit [Field α] [LinearOrder α] in
/-- The kernel of a group that starts with a node. -/
theorem kernelOf_eq (hnode : m.nodes[v]? = some node) (hbody : kernelBody node.op = some body)
    {group : FusionGroup} (hhead : group.nodes.head? = some (v : Int)) (schedule : Schedule) :
    kernelOf m group schedule = .ok ⟨group.nodes, schedule.str, group.kernel, body⟩ := by
  obtain ⟨rest, hnodes⟩ := List.head?_eq_some_iff.mp hhead
  simp only [kernelOf, hnodes, Module.node, intAt_natCast, hnode, hbody]

/-- The payload that the pass stores, if it stores one. -/
theorem FoldsEntrywise.foldedTo_iff (hentries : FoldsEntrywise math m node operands data body)
    (hnode : m.nodes[v]? = some node) (h : ConstantOperands m node operands) (payload : List α) :
    FoldedTo math.scalar m v payload ↔
      TurnReached m v ∧ node.output.shape.elements ≠ 0 ∧ payload = data := by
  have hop : node.op ≠ .constant := by
    intro hop
    have hbody := hentries.hasBody
    rw [hop] at hbody
    cases hbody
  obtain ⟨hreached, hskipped⟩ := constantFold_at hnode h.constants hentries.folded
  unfold FoldedTo
  by_cases hall : TurnReached m v
  · rw [hreached hall]
    by_cases hempty : node.output.shape.elements = 0
    · rw [if_pos hempty]
      simp [Node.after, hempty, hop]
    · rw [if_neg hempty]
      simp [Node.after, hempty, hall, eq_comm]
  · rw [hskipped hall]
    simp [hall, hop]

/-- The kernel gives a payload when `int` counts its entries and each is what the
statement stores. -/
theorem FoldsEntrywise.kernelGives_iff (hentries : FoldsEntrywise math m node operands data body)
    (hnode : m.nodes[v]? = some node) :
    KernelGives math m v operands data ↔
      node.output.shape.elements < 2 ^ 31 ∧ ∀ i < node.output.shape.elements,
        body.eval math.tanh (payloadArgument operands 0 i) (payloadArgument operands 1 i) =
          data[i]? := by
  rw [← hentries.length]
  constructor
  · intro hgives
    obtain ⟨kernel, hkernel, hthreads⟩ := hgives ⟨[(v : Int)], "", 0⟩ {} rfl
    rw [kernelOf_eq hnode hentries.hasBody rfl, Except.ok.injEq] at hkernel
    have hnarrow : data.length < 2 ^ 31 := by
      by_contra hwide
      have hlast := hthreads (2 ^ 31 - 1) (by omega)
      rw [thread_last, List.getElem?_eq_getElem (by omega)] at hlast
      cases hlast
    refine ⟨hnarrow, ?_⟩
    intro i hi
    rw [← hthreads i hi, thread_eq hnarrow hi, ← hkernel]
  · intro h group schedule hhead
    refine ⟨_, kernelOf_eq hnode hentries.hasBody hhead schedule, ?_⟩
    intro i hi
    rw [thread_eq h.1 hi]
    exact h.2 i hi

end node

/-- **When folding gives what the kernel gives.**  A payload is stored when no turn
before throws and there are entries.  It is then what the kernel stores exactly when
`int` counts the entries and the node is no `Gelu`, or one whose two formulas meet at
every entry of its operand. -/
theorem folded_kernel_iff [IsStrictOrderedRing α] (math : MathFunctions α) {m : Module α}
    {node : Node α} {operands : List (Node α)} {v : Nat} (hnode : m.nodes[v]? = some node)
    (hop : HasKernel node.op) (h : ConstantOperands m node operands) :
    ((∃ payload, FoldedTo math.scalar m v payload) ↔
        TurnReached m v ∧ node.output.shape.elements ≠ 0) ∧
      (FoldsLikeKernel math m v node operands ↔
        (TurnReached m v → node.output.shape.elements ≠ 0 →
          node.output.shape.elements < 2 ^ 31 ∧
            (node.op = .gelu → ∀ operand ∈ operands, ∀ x ∈ operand.constantData,
              GeluAgrees math x))) := by
  obtain ⟨data, body, hentries⟩ := h.entrywise math hop
  have hstored := hentries.foldedTo_iff hnode h
  have hgives := hentries.kernelGives_iff hnode
  refine ⟨⟨?_, ?_⟩, ⟨?_, ?_⟩⟩
  · intro hfolded
    obtain ⟨payload, hpayload⟩ := hfolded
    obtain ⟨hreached, hne, _⟩ := (hstored payload).mp hpayload
    exact ⟨hreached, hne⟩
  · intro hreached
    exact ⟨data, (hstored data).mpr ⟨hreached.1, hreached.2, rfl⟩⟩
  · intro hlike hreached hne
    obtain ⟨hnarrow, hall⟩ :=
      hgives.mp (hlike data ((hstored data).mpr ⟨hreached, hne, rfl⟩)).2
    refine ⟨hnarrow, ?_⟩
    intro hgelu operand hoperand x hx
    obtain ⟨_, input, _, rfl, _⟩ := h.one (by rw [hgelu]; rfl)
    obtain rfl := List.mem_singleton.mp hoperand
    obtain ⟨i, hi⟩ := List.mem_iff_getElem?.mp hx
    have hlt : i < node.output.shape.elements :=
      h.payload operand hoperand ▸ (List.getElem?_eq_some_iff.mp hi).1
    exact (hentries.entry i hlt).mp (hall i hlt) hgelu x hi
  · intro hcondition payload hpayload
    obtain ⟨hreached, hne, rfl⟩ := (hstored payload).mp hpayload
    obtain ⟨hnarrow, hmeet⟩ := hcondition hreached hne
    refine ⟨hentries.length, hgives.mpr ⟨hnarrow, ?_⟩⟩
    intro i hi
    refine (hentries.entry i hi).mpr ?_
    intro hgelu x hx
    obtain ⟨operand, hoperand, hentry⟩ := Option.bind_eq_some_iff.mp hx
    exact hmeet hgelu operand (List.mem_of_getElem? hoperand) x (List.mem_of_getElem? hentry)

/-- A sum of two constants of the real numbers. -/
theorem folded_kernel_iff_example :
    let lhs : Node ℝ := ⟨0, .constant, [], ⟨0, { dims := [2] }, "a"⟩, [], [1, 2]⟩
    let rhs : Node ℝ := ⟨1, .constant, [], ⟨1, { dims := [2] }, "b"⟩, [], [3, -4]⟩
    let sum : Node ℝ := ⟨2, .add, [0, 1], ⟨2, { dims := [2] }, "v2"⟩, [], []⟩
    (∃ payload, FoldedTo MathFunctions.real.scalar ⟨[lhs, rhs, sum], [2]⟩ 2 payload) ∧
      FoldsLikeKernel MathFunctions.real ⟨[lhs, rhs, sum], [2]⟩ 2 sum [lhs, rhs] := by
  intro lhs rhs sum
  have hoperands : ConstantOperands ⟨[lhs, rhs, sum], [2]⟩ sum [lhs, rhs] :=
    ⟨rfl, rfl, by simp [lhs, rhs], by simp [lhs, rhs, sum, Shape.elements, elementsFrom]⟩
  have hreached : TurnReached ⟨[lhs, rhs, sum], [2]⟩ 2 := by
    intro u hu node hnode
    have hop : node.op = .constant := by
      obtain rfl | rfl : u = 0 ∨ u = 1 := by omega
      · exact Option.some.inj hnode ▸ rfl
      · exact Option.some.inj hnode ▸ rfl
    simp [TurnThrows, IsBinary, IsUnary, hop]
  have hcount : sum.output.shape.elements = 2 := by decide +kernel
  have hadd : sum.op ≠ .gelu := by decide
  obtain ⟨hstored, hlike⟩ := folded_kernel_iff MathFunctions.real (v := 2)
    (m := ⟨[lhs, rhs, sum], [2]⟩) rfl (Or.inl rfl) hoperands
  exact ⟨hstored.mpr ⟨hreached, by omega⟩, hlike.mpr fun _ _ =>
    ⟨by omega, fun hgelu => absurd hgelu hadd⟩⟩

end entries

/-- **A `Gelu` that is folded to another number.**  The operand is the constant 10. -/
theorem gelu_folds_otherwise :
    let ten : Node ℝ := ⟨0, .constant, [], ⟨0, { dims := [1] }, "c"⟩, [], [10]⟩
    let gelu : Node ℝ := ⟨1, .gelu, [0], ⟨1, { dims := [1] }, "v1"⟩, [], []⟩
    ConstantOperands ⟨[ten, gelu], [1]⟩ gelu [ten] ∧
      ∃ payload, FoldedTo MathFunctions.real.scalar ⟨[ten, gelu], [1]⟩ 1 payload ∧
        payload = [1 / 2 * 10 * (1 + ErrorFunction.erf (10 / √2))] ∧
        ¬ KernelGives MathFunctions.real ⟨[ten, gelu], [1]⟩ 1 [ten] payload := by
  intro ten gelu
  have hoperands : ConstantOperands ⟨[ten, gelu], [1]⟩ gelu [ten] :=
    ⟨rfl, rfl, by simp [ten], by simp [ten, gelu, Shape.elements, elementsFrom]⟩
  have hcount : gelu.output.shape.elements = 1 := by decide +kernel
  have hnode : (⟨[ten, gelu], [1]⟩ : Module ℝ).nodes[1]? = some gelu := rfl
  obtain ⟨data, body, hentries⟩ := hoperands.entrywise_unary MathFunctions.real (Or.inr rfl)
  have hfolded : FoldedTo MathFunctions.real.scalar ⟨[ten, gelu], [1]⟩ 1
      [1 / 2 * 10 * (1 + ErrorFunction.erf (10 / √2))] := ⟨_, rfl, rfl, rfl⟩
  refine ⟨hoperands, _, hfolded, rfl, ?_⟩
  intro hgives
  obtain ⟨_, _, hdata⟩ := (hentries.foldedTo_iff hnode hoperands _).mp hfolded
  rw [hdata] at hgives
  have hstores := ((hentries.kernelGives_iff hnode).mp hgives).2 0 (by omega)
  have hagrees := (hentries.entry 0 (by omega)).mp hstores rfl 10 rfl
  rcases hagrees with hzero | hmeet
  · norm_num at hzero
  · exact (ne_of_lt MathFunctions.real_above_at_ten) hmeet

end Gpuforge.Compiler

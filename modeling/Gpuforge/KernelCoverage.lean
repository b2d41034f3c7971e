import Gpuforge.KernelLimits

/-!
# When the generated kernel computes its group

The generator prints the operator of the first node only.  That is all the group
computes exactly if the others do not change what the first one gives, and the
kernel reads the positions that broadcasting reads
(`emitted_kernel_computes_iff`).
-/

namespace Gpuforge.Compiler

variable {α : Type} [Field α] [LinearOrder α] [IsStrictOrderedRing α] {m : Module α}
  {group : FusionGroup} {r l : Nat} {root : Node α} {n i : Nat}

/-! ## Where the kernel suffices -/

/-- What the kernel stores is the entry of the first node, and not negative where
a `Relu` may follow. -/
theorem KernelSuffices.root_value (h : Accepted m) (hg : GroupEnds m group r l)
    (hroot : m.nodes[r]? = some root) (hs : KernelSuffices m group root n) (hi : i < n)
    {body : KernelExpr} (hbody : kernelBody root.op = some body) (math : MathFunctions α)
    (contents : Nat → Nat → α) :
    ∃ value, body.eval math.tanh (m.argument contents root 0 i) (m.argument contents root 1 i)
        = some value ∧ m.groupEntry math contents group r i = some value ∧
      (root.op = .relu ∨ root.op = .mul ∧ root.inputs[0]? = root.inputs[1]? → 0 ≤ value) := by
  have hsize := hs.sizes r ((hg.mem _).mpr ⟨r, rfl, hg.root⟩) root (by simpa using hroot)
  have hin : i < volume root.output.shape.dims := by omega
  have hread : ∀ {u : Nat} {operand : Node α}, (u : Int) ∈ root.inputs →
      m.nodes[u]? = some operand →
        m.groupEntry math contents group u i = some (contents u i) := by
    intro u operand hinput hoperand
    have hcount := hs.operands u hinput operand (by simpa using hoperand)
    rw [groupEntry_operand math contents h hg hroot hinput hoperand, if_pos (by omega)]
  have harg : ∀ {u : Nat} {operand : Node α} (k : Nat), root.inputs[k]? = some (u : Int) →
      m.nodes[u]? = some operand → m.argument contents root k i = some (contents u i) := by
    intro u operand k hinput hoperand
    have hcount := hs.operands u (List.mem_of_getElem? hinput) operand (by simpa using hoperand)
    rw [argument_operand contents h hinput hoperand, if_pos (by omega)]
  rcases hs.rootOp with hop | hop
  · -- `Relu`
    obtain ⟨u, operand, hinputs, _, hoperand⟩ := h.oneOperand hroot (by rw [hop]; rfl)
    have hu := hread (by simp [hinputs]) hoperand
    rw [hop] at hbody
    cases hbody
    refine ⟨max 0 (contents u i), ?_, ?_, fun _ => le_max_left _ _⟩
    · rw [harg 0 (by simp [hinputs]) hoperand]
      simp only [KernelExpr.eval, Option.map_some]
      by_cases hpos : contents u i > 0
      · rw [if_pos hpos, max_eq_right hpos.le]
      · rw [if_neg hpos, max_eq_left (not_lt.mp hpos)]
    · rw [groupEntry_unary math contents h hg hg.root hroot (Or.inl hop) hinputs hoperand,
        if_pos hin, hu, hop]
      rfl
  · -- `Add` and `Mul`
    have hbinary : IsBinary root.op := hop
    have hne : root.op ≠ .relu := by
      rcases hop with hop | hop <;> simp [hop]
    obtain ⟨a, b, lhs, rhs, hinputs, _, _, hlhs, hrhs⟩ := h.twoOperands hroot (by
      rcases hop with hop | hop <;> rw [hop] <;> rfl)
    have ha := hread (by simp [hinputs]) hlhs
    have hb := hread (by simp [hinputs]) hrhs
    have hoffA := hs.inPlace hne a (by simp [hinputs]) lhs (by simpa using hlhs) i hi
    have hoffB := hs.inPlace hne b (by simp [hinputs]) rhs (by simpa using hrhs) i hi
    have hentry := groupEntry_binary math contents h hg hg.root hroot hbinary hinputs hlhs hrhs i
    rw [if_pos hin, hoffA, hoffB, ha, hb] at hentry
    rw [harg 0 (by simp [hinputs]) hlhs, harg 1 (by simp [hinputs]) hrhs]
    rcases hop with hop | hop
    · rw [hop] at hbody hentry
      cases hbody
      refine ⟨contents a i + contents b i, rfl, hentry, ?_⟩
      intro hcase
      simp [hop] at hcase
    · rw [hop] at hbody hentry
      cases hbody
      refine ⟨contents a i * contents b i, rfl, hentry, ?_⟩
      intro hcase
      have hsame : a = b := by simpa [hop, hinputs] using hcase
      rw [hsame]
      exact mul_self_nonneg _

omit [IsStrictOrderedRing α] in
/-- **Every node of the group has the entries that the kernel stores.** -/
theorem KernelSuffices.entry (h : Accepted m) (hg : GroupEnds m group r l)
    (hs : KernelSuffices m group root n) (hi : i < n) {math : MathFunctions α}
    {contents : Nat → Nat → α} {value : α}
    (hvalue : m.groupEntry math contents group r i = some value)
    (hnonneg : root.op = .relu ∨ root.op = .mul ∧ root.inputs[0]? = root.inputs[1]? →
      0 ≤ value) {v : Nat} (hv : Member m r v) :
    m.groupEntry math contents group v i = some value := by
  induction v using Nat.strongRecOn with
  | ind v ih =>
      by_cases hvr : v = r
      · rw [hvr, hvalue]
      · obtain ⟨node, hnode⟩ := hv.exists_node
        obtain ⟨u, hu, _, hlt, huses, _⟩ := hv.follows h hvr hnode
        have hop := hs.laterOps v ((hg.tail _).mpr ⟨v, rfl, hv, hvr⟩) node (by simpa using hnode)
        have hsize := hs.sizes v ((hg.mem _).mpr ⟨v, rfl, hv⟩) node (by simpa using hnode)
        have hunary : IsUnary node.op := by
          rcases hop with hop | ⟨hop, _⟩ <;> simp [IsUnary, hop]
        have harity : expectedInputs node.op = 1 := by
          rcases hop with hop | ⟨hop, _⟩ <;> rw [hop] <;> rfl
        obtain ⟨u', operand, hinputs, _, hoperand⟩ := h.oneOperand hnode harity
        have hsame : u = u' := by simpa [hinputs] using huses
        subst hsame
        rw [groupEntry_unary math contents h hg hv hnode hunary hinputs hoperand,
          if_pos (by omega), ih u hlt hu, Option.map_some]
        rcases hop with hop | ⟨hop, hroot⟩
        · rw [hop, scalar_cast]
        · rw [hop, scalar_relu, max_eq_right (hnonneg hroot)]

/-! ## Emitted kernels -/

omit [Field α] [LinearOrder α] [IsStrictOrderedRing α] in
/-- Code is the text of a kernel, whose body is that of the first node. -/
theorem emitCuda_cases {schedule : Schedule} {code : String}
    (hcode : emitCuda m group schedule = .ok code) :
    ∃ kernel front rest, kernelOf m group schedule = .ok kernel ∧ code = kernel.str ∧
      group.nodes = front :: rest ∧
        ∃ root, m.node front = some root ∧ kernelBody root.op = some kernel.body := by
  obtain ⟨kernel, hkernel, hcode⟩ := bind_ok hcode
  have hrun := hkernel
  unfold kernelOf at hrun
  split at hrun
  · cases hrun
  · rename_i front rest hnodes
    split at hrun
    · cases hrun
    · rename_i root hroot
      split at hrun
      · cases hrun
      · rename_i body hbody
        cases hrun
        exact ⟨_, front, rest, hkernel, (Except.ok.inj hcode).symm, hnodes, root, hroot, hbody⟩

omit [IsStrictOrderedRing α] in
/-- What the kernel should do, for given ends. -/
theorem computesGroup_iff (h : Accepted m) (hg : GroupEnds m group r l) {last : Node α}
    (hroot : m.nodes[r]? = some root) (hlast : m.nodes[l]? = some last)
    (math : MathFunctions α) (kernel : Kernel) :
    ComputesGroup m math group kernel ↔
      ∀ contents : Nat → Nat → α, ∀ i < last.output.shape.elements, ∃ value,
        kernel.thread math.tanh (m.argument contents root 0) (m.argument contents root 1)
          (castInt last.output.shape.elements) i = some value ∧
        m.groupEntry math contents group l i = some value := by
  have hhead : group.nodes.head?.bind m.node = some root := by
    rw [hg.head, Option.bind_some, Module.node_natCast, hroot]
  have htail : group.nodes.getLast?.bind m.node = some last := by
    rw [hg.last, Option.bind_some, Module.node_natCast, hlast]
  have hid : last.id.toNat = l := by
    rw [h.indexed.ids l last hlast, Int.toNat_natCast]
  constructor
  · intro hcomputes contents i hi
    obtain ⟨value, array, hthread, harray, hentry⟩ :=
      hcomputes root last hhead htail contents i hi
    refine ⟨value, hthread, ?_⟩
    rw [Module.groupEntry, ← hid, harray, Option.bind_some, hentry]
  · intro hall root' last' hhead' htail' contents i hi
    rw [hhead, Option.some.injEq] at hhead'
    rw [htail, Option.some.injEq] at htail'
    subst hhead' htail'
    obtain ⟨value, hthread, hentry⟩ := hall contents i hi
    obtain ⟨array, harray, hvalue⟩ := Option.bind_eq_some_iff.mp hentry
    exact ⟨value, array, hthread, by rw [hid, harray], hvalue⟩

/-- **The generated kernel computes its group exactly within its limits.**  For every
group of an accepted module for which code is emitted, the threads store the
entries of the last node if and only if the last node is empty, or the first node
is a `Relu`, an `Add` or a `Mul` that reads its operands in place, and the others
do not change what it stores. -/
theorem emitted_kernel_computes_iff {math : MathFunctions α} (laws : math.Laws)
    (h : Accepted m) {groups : List FusionGroup}
    (hfuse : m.fuse = some groups) (hgroup : group ∈ groups) {schedule : Schedule}
    {code : String} (hcode : emitCuda m group schedule = .ok code) :
    ∃ kernel, kernelOf m group schedule = .ok kernel ∧ code = kernel.str ∧
      (ComputesGroup m math group kernel ↔ WithinKernel m group) := by
  obtain ⟨kernel, front, rest, hkernel, htext, hnodes, root, hfront, hbody⟩ :=
    emitCuda_cases hcode
  refine ⟨kernel, hkernel, htext, ?_⟩
  -- the ends of the group
  obtain ⟨groups', hfuse', hfused⟩ := fuse_groups h
  rw [hfuse, Option.some.injEq] at hfuse'
  subst hfuse'
  obtain ⟨roots, _, hled, _⟩ := hfused.by_position
  obtain ⟨k, hk⟩ := List.mem_iff_getElem?.mp hgroup
  obtain ⟨r, _, hledBy⟩ := hled k group hk
  obtain ⟨l, hg⟩ := hledBy.ends (by simp [hnodes])
  have hfrontEq : front = (r : Int) := by
    have hhead := hg.head
    rw [hnodes, List.head?_cons] at hhead
    exact Option.some.inj hhead
  have hroot : m.nodes[r]? = some root := by
    rw [← hfront, hfrontEq, Module.node_natCast]
  obtain ⟨last, hlast⟩ := hg.lastMem.exists_node
  have hhead : group.nodes.head?.bind m.node = some root := by
    rw [hg.head, Option.bind_some, Module.node_natCast, hroot]
  have htail : group.nodes.getLast?.bind m.node = some last := by
    rw [hg.last, Option.bind_some, Module.node_natCast, hlast]
  rw [computesGroup_iff h hg hroot hlast math kernel]
  constructor
  · intro hcomputes root' last' hhead' htail'
    rw [hhead, Option.some.injEq] at hhead'
    rw [htail, Option.some.injEq] at htail'
    subst hhead' htail'
    rcases Nat.eq_zero_or_pos last.output.shape.elements with hzero | hpos
    · exact Or.inl hzero
    · refine Or.inr ?_
      have hnarrow : last.output.shape.elements < 2 ^ 31 := by
        by_contra hwide
        obtain ⟨value, hthread, _⟩ := hcomputes (fun _ _ => 0) (2 ^ 31 - 1) (by omega)
        rw [thread_last] at hthread
        cases hthread
      have hstores : StoresLast m math group root l kernel.body last.output.shape.elements := by
        intro contents i hi
        obtain ⟨value, hthread, hentry⟩ := hcomputes contents i hi
        rw [thread_eq hnarrow hi] at hthread
        exact ⟨value, hthread, hentry⟩
      exact hstores.suffices laws h hg hroot hbody hpos hnarrow
  · intro hwithin contents i hi
    rcases hwithin root last hhead htail with hzero | hs
    · omega
    · obtain ⟨value, hvalue, hentry, hnonneg⟩ :=
        hs.root_value h hg hroot hi hbody math contents
      refine ⟨value, ?_, hs.entry h hg hi hentry hnonneg hg.lastMem⟩
      rw [thread_eq hs.narrow hi, hvalue]

/-! ## A sum and a product -/

/-- A sum and a product of two parameters, with a `Relu` and a `Cast`. -/
def sumAndProduct (α : Type) : Module α :=
  let shape : Shape := { dims := [2] }
  ⟨[⟨0, .parameter, [], ⟨0, shape, "x"⟩, [], []⟩,
    ⟨1, .parameter, [], ⟨1, shape, "y"⟩, [], []⟩,
    ⟨2, .add, [0, 1], ⟨2, shape, "v2"⟩, [], []⟩,
    ⟨3, .relu, [2], ⟨3, shape, "v3"⟩, [], []⟩,
    ⟨4, .mul, [0, 1], ⟨4, shape, "v4"⟩, [], []⟩,
    ⟨5, .cast, [4], ⟨5, shape, "v5"⟩, [], []⟩], [3, 5]⟩

theorem sumAndProduct_accepted (α : Type) : Accepted (sumAndProduct α) :=
  ⟨Module.indexed_of_ids rfl (show 6 ≤ 2 ^ 31 by omega), rfl⟩

theorem sumAndProduct_fuse : (sumAndProduct ℝ).fuse = some
    [⟨[0], "fused_0", 1024⟩, ⟨[1], "fused_1", 1024⟩, ⟨[2, 3], "fused_2", 2048⟩,
      ⟨[4, 5], "fused_4", 2048⟩] := by
  decide +kernel

/-- The kernel of the product suffices. -/
theorem product_within : WithinKernel (sumAndProduct ℝ) ⟨[4, 5], "fused_4", 2048⟩ := by
  intro root last hroot hlast
  cases hroot
  cases hlast
  refine Or.inr ⟨by decide, Or.inr (Or.inr rfl), ?_, ?_, ?_, ?_⟩
  · intro id hid node hnode
    obtain rfl : id = 5 := by simpa using hid
    cases hnode
    exact Or.inl rfl
  · intro id hid node hnode
    rcases (by simpa using hid : id = 4 ∨ id = 5) with rfl | rfl <;> cases hnode <;> decide
  · intro id hid operand hnode
    rcases (by simpa using hid : id = 0 ∨ id = 1) with rfl | rfl <;> cases hnode <;> decide
  · intro _ id hid operand hnode
    rcases (by simpa using hid : id = 0 ∨ id = 1) with rfl | rfl <;> cases hnode <;> decide

/-- The product and its `Cast` are computed. -/
theorem emitted_kernel_computes_iff_example : ∃ kernel,
    kernelOf (sumAndProduct ℝ) ⟨[4, 5], "fused_4", 2048⟩ {} = .ok kernel ∧
      ComputesGroup (sumAndProduct ℝ) MathFunctions.real ⟨[4, 5], "fused_4", 2048⟩ kernel := by
  obtain ⟨kernel, hkernel, _, hiff⟩ := emitted_kernel_computes_iff
    MathFunctions.real_laws (sumAndProduct_accepted ℝ) sumAndProduct_fuse
    (show ⟨[4, 5], "fused_4", 2048⟩ ∈ _ by simp) (show emitCuda _ _ {} = .ok _ from rfl)
  exact ⟨kernel, hkernel, hiff.mpr product_within⟩

/-- **The kernel of a sum and its `Relu` stores the sum.** -/
theorem emitted_kernel_omits_relu :
    ¬ ∀ m : Module ℝ, Accepted m → ∀ groups, m.fuse = some groups → ∀ group ∈ groups,
      ∀ schedule code, emitCuda m group schedule = .ok code →
        ∃ kernel, kernelOf m group schedule = .ok kernel ∧ code = kernel.str ∧
          ComputesGroup m MathFunctions.real group kernel := by
  intro hclaim
  let group : FusionGroup := ⟨[2, 3], "fused_2", 2048⟩
  obtain ⟨kernel, hkernel, _, hcomputes⟩ := hclaim (sumAndProduct ℝ) (sumAndProduct_accepted ℝ) _
    sumAndProduct_fuse group (by simp [group]) {} _ rfl
  cases hkernel
  obtain ⟨value, array, hthread, harray, hentry⟩ :=
    hcomputes _ _ rfl rfl (fun _ _ => -1) 0 (by decide)
  have hstored : some value = some (-1 + -1 : ℝ) := by
    rw [← hthread]
    rfl
  have hmeant : some value = some (max 0 (-1 + -1) : ℝ) := by
    rw [← hentry]
    cases harray
    rfl
  rw [hstored] at hmeant
  norm_num at hmeant

end Gpuforge.Compiler

import Mathlib.Tactic.Linarith
import Mathlib.Tactic.Ring
import Gpuforge.GroupKernels

/-!
# What a generated kernel cannot compute

Contents tell a group from its kernel.  With large numbers everywhere, a later `Add`
or `Mul` makes the entries larger than what the kernel stores
(`StoresLast.no_binary`).  Without one, a `Gelu` makes positive entries smaller
(`StoresLast.no_gelu`).  With a negative number, a later `Relu` changes what the
kernel stores (`StoresLast.relu_after`).  With a single 1, the kernel and
broadcasting must read the same position (`StoresLast.in_place`).
-/

namespace Gpuforge.Compiler

variable {α : Type} [Field α] [LinearOrder α] [IsStrictOrderedRing α] {m : Module α}
  {group : FusionGroup} {r l : Nat} {root : Node α} {body : KernelExpr} {n i : Nat}
  {math : MathFunctions α}

/-! ## The operators -/

/-- `Gelu` makes positive numbers smaller, and leaves them positive. -/
theorem MathFunctions.Laws.gelu_lt (laws : math.Laws) {x : α} (hx : 0 < x) :
    0 < math.scalar.unary .gelu x ∧ math.scalar.unary .gelu x < x := by
  have hpos := laws.erf_pos (x / math.sqrt 2) (div_pos hx laws.sqrt_two)
  have hlt := laws.erf_lt_one (x / math.sqrt 2)
  rw [scalar_gelu]
  constructor
  · positivity
  · nlinarith

/-- **`Gelu` takes little from large numbers.** -/
theorem MathFunctions.Laws.gelu_limit (laws : math.Laws) {ε : α} (hε : 0 < ε) :
    ∃ bound, ∀ x, bound ≤ x → x - ε ≤ math.scalar.unary .gelu x := by
  have hsqrt := laws.sqrt_two
  obtain ⟨bound, hbound⟩ := laws.erf_limit (2 * ε / math.sqrt 2) (by positivity)
  refine ⟨bound * math.sqrt 2, ?_⟩
  intro x hx
  have hloss := hbound (x / math.sqrt 2) ((le_div_iff₀ hsqrt).mpr hx)
  rw [div_mul_eq_mul_div, div_le_div_iff_of_pos_right hsqrt] at hloss
  rw [scalar_gelu]
  linarith

/-- The kernel's formula does not exceed its operand. -/
theorem MathFunctions.Laws.formula_le (laws : math.Laws) {x : α} (hx : 0 ≤ x) (y : α) :
    1 / 2 * x * (1 + math.tanh y) ≤ x := by
  have hle := laws.tanh_le_one y
  nlinarith

/-- The sum and the product of numbers from 2 on are larger. -/
theorem binary_grows {op : Op} (hop : IsBinary op) {x y : α} (hx : 2 ≤ x) (hy : 2 ≤ y) :
    x + 1 ≤ math.scalar.binary op x y := by
  rcases hop with rfl | rfl
  · have hvalue : math.scalar.binary .add x y = x + y := rfl
    rw [hvalue]
    linarith
  · have hvalue : math.scalar.binary .mul x y = x * y := rfl
    rw [hvalue]
    nlinarith

omit [IsStrictOrderedRing α] in
theorem binary_comm {op : Op} (hop : IsBinary op) (x y : α) :
    math.scalar.binary op x y = math.scalar.binary op y x := by
  rcases hop with rfl | rfl
  · exact add_comm x y
  · exact mul_comm x y

/-! ## Later members -/

/-- A later member, by its operator and the member it follows. -/
theorem Member.operands {β : Type} {m : Module β} {r v : Nat} {node : Node β}
    (h : Accepted m) (hv : Member m r v) (hne : v ≠ r) (hnode : m.nodes[v]? = some node) :
    ∃ u, Member m r u ∧ Feeds m u v ∧ u < v ∧
      ((IsUnary node.op ∧ node.inputs = [(u : Int)]) ∨
        (IsBinary node.op ∧ ∃ a b : Nat, node.inputs = [(a : Int), (b : Int)] ∧ a < v ∧ b < v ∧
          (u = a ∨ u = b))) := by
  obtain ⟨u, hu, hfeeds, hlt, huses, helementwise⟩ := hv.follows h hne hnode
  refine ⟨u, hu, hfeeds, hlt, ?_⟩
  by_cases hbinary : IsBinary node.op
  · refine Or.inr ⟨hbinary, ?_⟩
    obtain ⟨a, b, _, _, hinputs, ha, hb, _, _⟩ := h.twoOperands hnode (by
      rcases hbinary with hop | hop <;> rw [hop] <;> rfl)
    refine ⟨a, b, hinputs, ha, hb, ?_⟩
    simpa [hinputs] using huses
  · have hunary : IsUnary node.op := by
      cases hop : node.op <;> simp_all [isElementwise, IsUnary, IsBinary]
    obtain ⟨u', _, hinputs, _, _⟩ := h.oneOperand hnode (by
      rcases hunary with hop | hop | hop | hop <;> rw [hop] <;> rfl)
    have hsame : u = u' := by simpa [hinputs] using huses
    subst hsame
    exact Or.inl ⟨hunary, hinputs⟩

/-- There is an operator with a property after the first node, up to `v`. -/
def Later {β : Type} (m : Module β) (r : Nat) (p : Op → Prop) (v : Nat) : Prop :=
  ∃ w ≤ v, Member m r w ∧ w ≠ r ∧ ∃ node, m.nodes[w]? = some node ∧ p node.op

omit [Field α] [LinearOrder α] [IsStrictOrderedRing α] in
/-- There is nothing between the first node and itself. -/
theorem not_later_root (hg : GroupEnds m group r l) (p : Op → Prop) : ¬ Later m r p r := by
  intro hlater
  obtain ⟨w, hwr, hw, hne, _⟩ := hlater
  exact hne (Nat.le_antisymm hwr (hg.least w hw))

omit [IsStrictOrderedRing α] in
/-- **An entry of a later member** comes from an entry of the member it follows, and
for `Add` and `Mul` from one of another earlier node. -/
theorem entry_step (h : Accepted m) (hg : GroupEnds m group r l) {contents : Nat → Nat → α}
    {v j : Nat} {node : Node α} (hv : Member m r v) (hvr : v ≠ r)
    (hnode : m.nodes[v]? = some node) {x : α}
    (hx : m.groupEntry math contents group v j = some x) :
    ∃ u k y, Member m r u ∧ u < v ∧ (∀ w ≤ v, Member m r w → w = v ∨ w ≤ u) ∧
      m.groupEntry math contents group u k = some y ∧
        ((IsUnary node.op ∧ node.op ≠ .reshape ∧ k = j ∧ x = math.scalar.unary node.op y) ∨
          (IsBinary node.op ∧ ∃ o k' z, o < v ∧
            m.groupEntry math contents group o k' = some z ∧
              x = math.scalar.binary node.op y z)) := by
  obtain ⟨u, hu, hfeeds, hlt, hcase⟩ := hv.operands h hvr hnode
  have hbefore : ∀ w ≤ v, Member m r w → w = v ∨ w ≤ u := by
    intro w hwv hw
    rcases Nat.lt_or_eq_of_le hwv with hwlt | heq
    · exact Or.inr (Member.le_of_lt h hu hfeeds hw hwlt)
    · exact Or.inl heq
  have hsize := groupEntry_lt h hnode hx
  rcases hcase with ⟨hunary, hinputs⟩ | ⟨hbinary, a, b, hinputs, hav, hbv, huab⟩
  · obtain ⟨operand, hoperand⟩ := hu.exists_node
    rw [groupEntry_unary _ _ h hg hv hnode hunary hinputs hoperand, if_pos hsize] at hx
    obtain ⟨y, hy, hxy⟩ := Option.map_eq_some_iff.mp hx
    refine ⟨u, j, y, hu, hlt, hbefore, hy, Or.inl ⟨hunary, ?_, rfl, hxy.symm⟩⟩
    intro hop
    obtain ⟨_, _, _, _, _, helementwise⟩ := hv.follows h hvr hnode
    rw [hop] at helementwise
    cases helementwise
  · obtain ⟨lhs, hlhs⟩ := h.operand hnode (u := a) (by simp [hinputs])
    obtain ⟨rhs, hrhs⟩ := h.operand hnode (u := b) (by simp [hinputs])
    rw [groupEntry_binary _ _ h hg hv hnode hbinary hinputs hlhs hrhs, if_pos hsize] at hx
    split at hx
    case h_2 => cases hx
    case h_1 y z hy hz =>
      have hxyz := (Option.some.inj hx).symm
      rcases huab with rfl | rfl
      · exact ⟨u, _, y, hu, hlt, hbefore, hy, Or.inr ⟨hbinary, b, _, z, hbv, hz, hxyz⟩⟩
      · refine ⟨u, _, z, hu, hlt, hbefore, hz, Or.inr ⟨hbinary, a, _, y, hav, hy, ?_⟩⟩
        rw [hxyz, binary_comm hbinary]

omit [Field α] [LinearOrder α] [IsStrictOrderedRing α] in
/-- An operator up to `v` is the one of `v`, or one up to the node that `v` follows. -/
theorem Later.cases {p : Op → Prop} {u v : Nat} {node : Node α} (hlater : Later m r p v)
    (hnode : m.nodes[v]? = some node) (hbefore : ∀ w ≤ v, Member m r w → w = v ∨ w ≤ u) :
    p node.op ∨ Later m r p u := by
  obtain ⟨w, hwv, hw, hwr, node', hnode', hp⟩ := hlater
  rcases hbefore w hwv hw with rfl | hwu
  · rw [hnode, Option.some.injEq] at hnode'
    subst hnode'
    exact Or.inl hp
  · exact Or.inr ⟨w, hwu, hw, hwr, node', hnode', hp⟩

/-! ## The first node -/

omit [Field α] [LinearOrder α] [IsStrictOrderedRing α] in
/-- The operands of the first node, by the operators that have a kernel. -/
theorem rootOperands (h : Accepted m) (hroot : m.nodes[r]? = some root)
    (hbody : kernelBody root.op = some body) :
    ((root.op = .relu ∨ root.op = .gelu) ∧ ∃ (u : Nat) (operand : Node α),
        root.inputs = [(u : Int)] ∧ m.nodes[u]? = some operand) ∨
      (IsBinary root.op ∧ ∃ (a b : Nat) (lhs rhs : Node α),
        root.inputs = [(a : Int), (b : Int)] ∧ m.nodes[a]? = some lhs ∧
          m.nodes[b]? = some rhs) := by
  cases hop : root.op <;> rw [hop] at hbody <;> try cases hbody
  case relu =>
    obtain ⟨u, operand, hinputs, _, hoperand⟩ := h.oneOperand hroot (by rw [hop]; rfl)
    exact Or.inl ⟨Or.inl rfl, u, operand, hinputs, hoperand⟩
  case gelu =>
    obtain ⟨u, operand, hinputs, _, hoperand⟩ := h.oneOperand hroot (by rw [hop]; rfl)
    exact Or.inl ⟨Or.inr rfl, u, operand, hinputs, hoperand⟩
  case add =>
    obtain ⟨a, b, lhs, rhs, hinputs, _, _, hlhs, hrhs⟩ := h.twoOperands hroot (by rw [hop]; rfl)
    exact Or.inr ⟨Or.inl rfl, a, b, lhs, rhs, hinputs, hlhs, hrhs⟩
  case mul =>
    obtain ⟨a, b, lhs, rhs, hinputs, _, _, hlhs, hrhs⟩ := h.twoOperands hroot (by rw [hop]; rfl)
    exact Or.inr ⟨Or.inr rfl, a, b, lhs, rhs, hinputs, hlhs, hrhs⟩

/-- What the thread `i` stores. -/
def Stored (m : Module α) (root : Node α) (body : KernelExpr) (math : MathFunctions α)
    (contents : Nat → Nat → α) (i : Nat) : Option α :=
  body.eval math.tanh (m.argument contents root 0 i) (m.argument contents root 1 i)

section root

variable {math : MathFunctions α} {contents : Nat → Nat → α} {value : α}

omit [IsStrictOrderedRing α] in
/-- The kernel of a unary operator reads one entry. -/
theorem Stored.unary (h : Accepted m) (hbody : kernelBody root.op = some body)
    (hop : root.op = .relu ∨ root.op = .gelu) {u : Nat} {operand : Node α}
    (hinputs : root.inputs = [(u : Int)]) (hoperand : m.nodes[u]? = some operand)
    (hvalue : Stored m root body math contents i = some value) :
    i < volume operand.output.shape.dims ∧
      body.eval math.tanh (some (contents u i)) none = some value := by
  have hzero : root.inputs[0]? = some (u : Int) := by simp [hinputs]
  have hread := argument_operand contents h hzero hoperand i
  have hnone : m.argument contents root 1 i = none := by
    simp [Module.argument, hinputs]
  rw [Stored, hread, hnone] at hvalue
  by_cases hin : i < volume operand.output.shape.dims
  · rw [if_pos hin] at hvalue
    exact ⟨hin, hvalue⟩
  · rw [if_neg hin] at hvalue
    rcases hop with hop | hop <;> rw [hop] at hbody <;> cases hbody <;> cases hvalue

omit [IsStrictOrderedRing α] in
/-- The kernel of `Relu` stores a positive part. -/
theorem Stored.relu (h : Accepted m) (hbody : kernelBody root.op = some body)
    (hop : root.op = .relu) {u : Nat} {operand : Node α}
    (hinputs : root.inputs = [(u : Int)]) (hoperand : m.nodes[u]? = some operand)
    (hvalue : Stored m root body math contents i = some value) :
    i < volume operand.output.shape.dims ∧ value = max 0 (contents u i) := by
  obtain ⟨hin, heval⟩ := Stored.unary h hbody (Or.inl hop) hinputs hoperand hvalue
  rw [hop] at hbody
  cases hbody
  refine ⟨hin, ?_⟩
  simp only [KernelExpr.eval, Option.map_some, Option.some.injEq] at heval
  rw [← heval]
  by_cases hpos : contents u i > 0
  · rw [if_pos hpos, max_eq_right hpos.le]
  · rw [if_neg hpos, max_eq_left (not_lt.mp hpos)]

omit [IsStrictOrderedRing α] in
/-- The kernel of `Add` and `Mul` reads two entries in one position. -/
theorem Stored.binary (h : Accepted m) (hbody : kernelBody root.op = some body)
    (hop : IsBinary root.op) {a b : Nat} {lhs rhs : Node α}
    (hinputs : root.inputs = [(a : Int), (b : Int)]) (hlhs : m.nodes[a]? = some lhs)
    (hrhs : m.nodes[b]? = some rhs)
    (hvalue : Stored m root body math contents i = some value) :
    i < volume lhs.output.shape.dims ∧ i < volume rhs.output.shape.dims ∧
      value = math.scalar.binary root.op (contents a i) (contents b i) := by
  have hzero : root.inputs[0]? = some (a : Int) := by simp [hinputs]
  have hone : root.inputs[1]? = some (b : Int) := by simp [hinputs]
  have hreadA := argument_operand contents h hzero hlhs i
  have hreadB := argument_operand contents h hone hrhs i
  rw [Stored, hreadA, hreadB] at hvalue
  by_cases hinA : i < volume lhs.output.shape.dims
  · by_cases hinB : i < volume rhs.output.shape.dims
    · rw [if_pos hinA, if_pos hinB] at hvalue
      refine ⟨hinA, hinB, ?_⟩
      rcases hop with hop | hop <;> rw [hop] at hbody ⊢ <;> cases hbody <;>
        exact (Option.some.inj hvalue).symm
    · rw [if_pos hinA, if_neg hinB] at hvalue
      rcases hop with hop | hop <;> rw [hop] at hbody <;> cases hbody <;> cases hvalue
  · rw [if_neg hinA] at hvalue
    rcases hop with hop | hop <;> rw [hop] at hbody <;> cases hbody <;> cases hvalue

omit [IsStrictOrderedRing α] in
/-- The entries of a first node with one operand. -/
theorem rootEntry_unary (h : Accepted m) (hg : GroupEnds m group r l)
    (hroot : m.nodes[r]? = some root) (hop : IsUnary root.op) {u : Nat} {operand : Node α}
    (hinputs : root.inputs = [(u : Int)]) (hoperand : m.nodes[u]? = some operand)
    (hvalue : m.groupEntry math contents group r i = some value) :
    value = math.scalar.unary root.op (contents u i) := by
  rw [groupEntry_unary math contents h hg hg.root hroot hop hinputs hoperand] at hvalue
  split at hvalue
  case isFalse => cases hvalue
  case isTrue =>
    obtain ⟨x, hx, rfl⟩ := Option.map_eq_some_iff.mp hvalue
    rw [groupEntry_operand math contents h hg hroot (by simp [hinputs]) hoperand] at hx
    split at hx
    · rw [Option.some.inj hx]
    · cases hx

omit [IsStrictOrderedRing α] in
/-- The entries of a first node with two operands. -/
theorem rootEntry_binary (h : Accepted m) (hg : GroupEnds m group r l)
    (hroot : m.nodes[r]? = some root) (hop : IsBinary root.op) {a b : Nat} {lhs rhs : Node α}
    (hinputs : root.inputs = [(a : Int), (b : Int)]) (hlhs : m.nodes[a]? = some lhs)
    (hrhs : m.nodes[b]? = some rhs)
    (hvalue : m.groupEntry math contents group r i = some value) :
    value = math.scalar.binary root.op (contents a (operandOffset root lhs i))
      (contents b (operandOffset root rhs i)) := by
  rw [groupEntry_binary math contents h hg hg.root hroot hop hinputs hlhs hrhs] at hvalue
  split at hvalue
  case isFalse => cases hvalue
  case isTrue =>
    split at hvalue
    case h_2 => cases hvalue
    case h_1 x y hx hy =>
      rw [groupEntry_operand math contents h hg hroot (by simp [hinputs]) hlhs] at hx
      rw [groupEntry_operand math contents h hg hroot (by simp [hinputs]) hrhs] at hy
      split at hx <;> cases hx
      split at hy <;> cases hy
      exact (Option.some.inj hvalue).symm

end root

omit [IsStrictOrderedRing α] in
/-- The kernel of `Gelu` stores its formula. -/
theorem Stored.gelu {contents : Nat → Nat → α} {value : α} (h : Accepted m)
    (hbody : kernelBody root.op = some body) (hop : root.op = .gelu) {u : Nat}
    {operand : Node α} (hinputs : root.inputs = [(u : Int)])
    (hoperand : m.nodes[u]? = some operand)
    (hvalue : Stored m root body math contents i = some value) :
    value = 1 / 2 * contents u i * (1 + math.tanh (Literal.tanhScale.value *
      (contents u i +
        Literal.tanhCubic.value * contents u i * contents u i * contents u i))) := by
  obtain ⟨_, heval⟩ := Stored.unary h hbody (Or.inr hop) hinputs hoperand hvalue
  rw [hop] at hbody
  cases hbody
  exact (Option.some.inj heval).symm

/-! ## Equal contents -/

/-- For all contents, the threads below `n` store the entries of the last node. -/
def StoresLast (m : Module α) (math : MathFunctions α) (group : FusionGroup) (root : Node α)
    (l : Nat) (body : KernelExpr) (n : Nat) : Prop :=
  ∀ contents, ∀ i < n, ∃ value, Stored m root body math contents i = some value ∧
    m.groupEntry math contents group l i = some value

/-- The entries of a member when all contents are `c`. -/
abbrev evenEntry (m : Module α) (math : MathFunctions α) (group : FusionGroup) (c : α) :
    Nat → Nat → Option α :=
  m.groupEntry math (fun _ _ => c) group

/-- **Large entries grow along the group**: by 1 from a binary operator on, less
what each `Gelu` takes. -/
theorem entries_grow (h : Accepted m) (hg : GroupEnds m group r l) {c ε base : α}
    (hc : 3 ≤ c) (hbase : c ≤ base) (hε : 0 < ε) (htotal : m.nodes.length * ε ≤ 1)
    (hgelu : ∀ x, c - 1 ≤ x → x - ε ≤ math.scalar.unary .gelu x)
    (hfirst : ∀ j x, evenEntry m math group c r j = some x → base - ε ≤ x) {v : Nat}
    (hv : Member m r v) {j : Nat} {x : α} (hx : evenEntry m math group c v j = some x) :
    base - (v + 1) * ε ≤ x ∧ (Later m r IsBinary v → base + 1 - (v + 1) * ε ≤ x) := by
  have hsmall : ∀ w : Nat, w < m.nodes.length → (w + 1) * ε ≤ 1 := by
    intro w hw
    have hcast : (w : α) + 1 ≤ m.nodes.length := by exact_mod_cast hw
    exact le_trans (mul_le_mul_of_nonneg_right hcast hε.le) htotal
  induction v using Nat.strongRecOn generalizing j x with
  | ind v ih =>
      by_cases hvr : v = r
      · subst hvr
        have hx := hfirst j x hx
        have hnonneg : (0 : α) ≤ v * ε := by positivity
        exact ⟨by linarith, fun hlater => absurd hlater (not_later_root hg _)⟩
      · obtain ⟨node, hnode⟩ := hv.exists_node
        obtain ⟨u, k, y, hu, hlt, hbefore, hy, hcase⟩ := entry_step h hg hv hvr hnode hx
        obtain ⟨hle, hmore⟩ := ih u hlt hu hy
        have huv : ((u : α) + 1) * ε + ε ≤ (v + 1) * ε := by
          have hcast : (u : α) + 1 ≤ v := by exact_mod_cast hlt
          nlinarith
        have hy_large : c - 1 ≤ y := by
          have hloss := hsmall u hu.1
          linarith
        rcases hcase with ⟨hunary, hreshape, _, hxy⟩ | ⟨hbinary, o, k', z, hov, hz, hxyz⟩
        · -- no unary operator takes more than `ε`
          have hstep : y - ε ≤ x := by
            rcases hunary with hop | hop | hop | hop <;> rw [hop] at hxy
            · rw [hxy, scalar_relu]
              exact le_trans (by linarith) (le_max_right 0 y)
            · rw [hxy]
              exact hgelu y hy_large
            · rw [hxy, scalar_cast]
              linarith
            · exact absurd hop hreshape
          refine ⟨by linarith, ?_⟩
          intro hlater
          rcases hlater.cases hnode hbefore with hbinary | hearlier
          · rcases hunary with hop | hop | hop | hop <;> simp [IsBinary, hop] at hbinary
          · have hle := hmore hearlier
            linarith
        · -- a binary operator adds at least 1
          have hz_large : c - 1 ≤ z := by
            by_cases hmember : Member m r o
            · have hloss := hsmall o hmember.1
              have hle := (ih o hov hmember hz).1
              linarith
            · have hin : o < m.nodes.length := Nat.lt_trans hov hv.1
              rw [groupEntry_external _ _ h hg hmember (List.getElem?_eq_getElem hin)] at hz
              split at hz
              · cases hz
                linarith
              · cases hz
          have hstep : y + 1 ≤ x := by
            rw [hxyz]
            exact binary_grows hbinary (by linarith) (by linarith)
          exact ⟨by linarith, fun _ => by linarith⟩

/-- **Without a binary operator, positive entries shrink along the group**, from a
`Gelu` on. -/
theorem entries_shrink (laws : math.Laws) (h : Accepted m) (hg : GroupEnds m group r l)
    {c base : α} (hbase : 0 < base)
    (hfirst : ∀ j x, evenEntry m math group c r j = some x → x = base) {v : Nat}
    (hv : Member m r v) (hnone : ¬ Later m r IsBinary v) {j : Nat} {x : α}
    (hx : evenEntry m math group c v j = some x) :
    0 < x ∧ x ≤ base ∧ (Later m r (· = .gelu) v → x < base) := by
  induction v using Nat.strongRecOn generalizing j x with
  | ind v ih =>
      by_cases hvr : v = r
      · subst hvr
        rw [hfirst j x hx]
        exact ⟨hbase, le_rfl, fun hlater => absurd hlater (not_later_root hg _)⟩
      · obtain ⟨node, hnode⟩ := hv.exists_node
        obtain ⟨u, k, y, hu, hlt, hbefore, hy, hcase⟩ := entry_step h hg hv hvr hnode hx
        have hnone' : ¬ Later m r IsBinary u := by
          intro hlater
          obtain ⟨w, hwu, hw⟩ := hlater
          exact hnone ⟨w, by omega, hw⟩
        obtain ⟨hpos, hle, hless⟩ := ih u hlt hu hnone' hy
        rcases hcase with ⟨hunary, hreshape, _, hxy⟩ | ⟨hbinary, _⟩
        · by_cases hgelu : node.op = .gelu
          · obtain ⟨hpos', hlt'⟩ := laws.gelu_lt hpos
            rw [hgelu] at hxy
            rw [hxy]
            have hlt := lt_of_lt_of_le hlt' hle
            exact ⟨hpos', hlt.le, fun _ => hlt⟩
          · have hsame : x = y := by
              rcases hunary with hop | hop | hop | hop
              · rw [hxy, hop, scalar_relu, max_eq_right hpos.le]
              · exact absurd hop hgelu
              · rw [hxy, hop, scalar_cast]
              · exact absurd hop hreshape
            rw [hsame]
            refine ⟨hpos, hle, ?_⟩
            intro hlater
            exact hless ((hlater.cases hnode hbefore).resolve_left hgelu)
        · exact absurd ⟨v, le_rfl, hv, hvr, node, hnode, hbinary⟩ hnone

omit [IsStrictOrderedRing α] in
/-- What the kernel stores, and the entries of the first node, when all contents are
the same positive number. -/
theorem even_root (h : Accepted m) (hg : GroupEnds m group r l)
    (hroot : m.nodes[r]? = some root) (hbody : kernelBody root.op = some body) {c value : α}
    (hc : 0 < c) (hvalue : Stored m root body math (fun _ _ => c) i = some value) :
    (root.op = .gelu ∧
        value = 1 / 2 * c * (1 + math.tanh (Literal.tanhScale.value *
          (c + Literal.tanhCubic.value * c * c * c))) ∧
        ∀ j x, evenEntry m math group c r j = some x → x = math.scalar.unary .gelu c) ∨
      (root.op ≠ .gelu ∧ (value = c ∨ IsBinary root.op ∧
          value = math.scalar.binary root.op c c) ∧
        ∀ j x, evenEntry m math group c r j = some x → x = value) := by
  rcases rootOperands h hroot hbody with
    ⟨hop, u, operand, hinputs, hoperand⟩ | ⟨hop, a, b, lhs, rhs, hinputs, hlhs, hrhs⟩
  · have hunary : IsUnary root.op := by
      rcases hop with hop | hop <;> simp [IsUnary, hop]
    have hentry : ∀ j x, evenEntry m math group c r j = some x →
        x = math.scalar.unary root.op c :=
      fun j x hx => rootEntry_unary h hg hroot hunary hinputs hoperand hx
    rcases hop with hop | hop
    · have hstored := (Stored.relu h hbody hop hinputs hoperand hvalue).2
      rw [max_eq_right hc.le] at hstored
      refine Or.inr ⟨by simp [hop], Or.inl hstored, ?_⟩
      intro j x hx
      rw [hentry j x hx, hop, scalar_relu, max_eq_right hc.le, hstored]
    · refine Or.inl ⟨hop, Stored.gelu h hbody hop hinputs hoperand hvalue, ?_⟩
      rw [hop] at hentry
      exact hentry
  · obtain ⟨_, _, hstored⟩ := Stored.binary h hbody hop hinputs hlhs hrhs hvalue
    refine Or.inr ⟨?_, Or.inr ⟨hop, hstored⟩, ?_⟩
    · intro hgelu
      rcases hop with hop | hop <;> rw [hop] at hgelu <;> cases hgelu
    · intro j x hx
      rw [hstored]
      exact rootEntry_binary h hg hroot hop hinputs hlhs hrhs hx

/-- **No `Add` or `Mul` may follow the first node**: with large contents, the entries
of the last node would be larger than what the kernel stores. -/
theorem StoresLast.no_binary (laws : math.Laws) (h : Accepted m) (hg : GroupEnds m group r l)
    (hroot : m.nodes[r]? = some root) (hbody : kernelBody root.op = some body)
    (hstores : StoresLast m math group root l body n) (hn : 0 < n) :
    ¬ Later m r IsBinary l := by
  intro hlater
  -- all `Gelu`s together take less than 1
  have hcount : (0 : α) < m.nodes.length := by
    exact_mod_cast Nat.lt_of_le_of_lt (Nat.zero_le r) hg.root.1
  obtain ⟨ε, hε, htotal⟩ : ∃ ε : α, 0 < ε ∧ m.nodes.length * ε = 1 / 2 :=
    ⟨1 / 2 / m.nodes.length, by positivity, mul_div_cancel₀ _ hcount.ne'⟩
  obtain ⟨bound, hbound⟩ := laws.gelu_limit hε
  obtain ⟨c, hc, hcbound⟩ : ∃ c : α, 3 ≤ c ∧ bound + 1 ≤ c :=
    ⟨max 3 (bound + 1), le_max_left _ _, le_max_right _ _⟩
  have hgelu : ∀ x, c - 1 ≤ x → x - ε ≤ math.scalar.unary .gelu x :=
    fun x hx => hbound x (by linarith)
  obtain ⟨value, hvalue, hlast⟩ := hstores (fun _ _ => c) 0 hn
  -- the first node starts at a base that the stored value does not exceed
  obtain ⟨base, hbase, hle, hfirst⟩ : ∃ base, c ≤ base ∧ value ≤ base ∧
      ∀ j x, evenEntry m math group c r j = some x → base - ε ≤ x := by
    rcases even_root h hg hroot hbody (by linarith) hvalue with
      ⟨_, hformula, hentry⟩ | ⟨_, hcase, hentry⟩
    · refine ⟨c, le_rfl, ?_, ?_⟩
      · rw [hformula]
        exact laws.formula_le (by linarith) _
      · intro j x hx
        rw [hentry j x hx]
        exact hgelu c (by linarith)
    · refine ⟨value, ?_, le_rfl, ?_⟩
      · rcases hcase with heq | ⟨hop, heq⟩
        · exact heq.ge
        · have htwo : (2 : α) ≤ c := by linarith
          have hgrows : c + 1 ≤ math.scalar.binary root.op c c := binary_grows hop htwo htwo
          rw [heq]
          linarith
      · intro j x hx
        rw [hentry j x hx]
        linarith
  have hgrown := (entries_grow h hg hc hbase hε (by linarith) hgelu hfirst hg.lastMem hlast).2
    hlater
  have hloss : ((l : α) + 1) * ε ≤ 1 / 2 := by
    have hcast : (l : α) + 1 ≤ m.nodes.length := by exact_mod_cast hg.lastMem.1
    exact htotal ▸ mul_le_mul_of_nonneg_right hcast hε.le
  linarith

/-- **The group has no `Gelu`**: with equal contents, the entries of the last node
would be smaller than what the kernel stores. -/
theorem StoresLast.no_gelu (laws : math.Laws) (h : Accepted m) (hg : GroupEnds m group r l)
    (hroot : m.nodes[r]? = some root) (hbody : kernelBody root.op = some body)
    (hstores : StoresLast m math group root l body n) (hn : 0 < n) :
    root.op ≠ .gelu ∧ ¬ Later m r (· = .gelu) l := by
  have hnone := hstores.no_binary laws h hg hroot hbody hn
  obtain ⟨c, hc, habove⟩ := laws.tanh_above
  obtain ⟨value, hvalue, hlast⟩ := hstores (fun _ _ => c) 0 hn
  rcases even_root h hg hroot hbody hc hvalue with
    ⟨_, hformula, hentry⟩ | ⟨hop, hcase, hentry⟩
  · -- the formula is larger than the first entry already
    obtain ⟨_, hle, _⟩ := entries_shrink laws h hg (laws.gelu_lt hc).1 hentry hg.lastMem hnone
      hlast
    rw [hformula, scalar_gelu] at hle
    have hfactor : 0 < 1 / 2 * c := by positivity
    have hless := (mul_le_mul_iff_right₀ hfactor).mp hle
    linarith
  · have hpos : 0 < value := by
      rcases hcase with heq | ⟨hop | hop, heq⟩
      · exact heq ▸ hc
      · rw [heq, hop]
        exact add_pos hc hc
      · rw [heq, hop]
        exact mul_pos hc hc
    refine ⟨hop, ?_⟩
    intro hlater
    exact lt_irrefl value
      ((entries_shrink laws h hg hpos hentry hg.lastMem hnone hlast).2.2 hlater)

/-! ## Chains of copies -/

/-- After the first node there are only copies and `Relu`s. -/
def OnlyCopies (m : Module α) (r : Nat) : Prop :=
  ∀ v, Member m r v → v ≠ r → ∀ node, m.nodes[v]? = some node → node.op = .cast ∨ node.op = .relu

/-- **Only copies and `Relu`s may follow the first node.** -/
theorem StoresLast.only_copies (laws : math.Laws) (h : Accepted m) (hg : GroupEnds m group r l)
    (hroot : m.nodes[r]? = some root) (hbody : kernelBody root.op = some body)
    (hstores : StoresLast m math group root l body n) (hn : 0 < n) : OnlyCopies m r := by
  have hbinary := hstores.no_binary laws h hg hroot hbody hn
  have hgelu := (hstores.no_gelu laws h hg hroot hbody hn).2
  intro v hv hvr node hnode
  have hle := hg.greatest v hv
  obtain ⟨_, _, _, _, _, helementwise⟩ := hv.follows h hvr hnode
  cases hop : node.op <;> rw [hop] at helementwise <;> try cases helementwise
  case add => exact absurd ⟨v, hle, hv, hvr, node, hnode, Or.inl hop⟩ hbinary
  case mul => exact absurd ⟨v, hle, hv, hvr, node, hnode, Or.inr hop⟩ hbinary
  case relu => exact Or.inr rfl
  case gelu => exact absurd ⟨v, hle, hv, hvr, node, hnode, hop⟩ hgelu
  case cast => exact Or.inl rfl

omit [IsStrictOrderedRing α] in
/-- **Copies keep the place of an entry.**  An entry is the one of the first node in
this place, or its positive part; every node before has an entry in this place; and
it is not negative after a `Relu`. -/
theorem entry_from_root (h : Accepted m) (hg : GroupEnds m group r l) (hcopies : OnlyCopies m r)
    {contents : Nat → Nat → α} {v : Nat} (hv : Member m r v) {x : α}
    (hx : m.groupEntry math contents group v i = some x) :
    ∃ y, m.groupEntry math contents group r i = some y ∧ (x = y ∨ x = max 0 y) ∧
      (Later m r (· = .relu) v → 0 ≤ x) ∧
        ∀ w ≤ v, Member m r w → ∀ node, m.nodes[w]? = some node →
          i < volume node.output.shape.dims := by
  induction v using Nat.strongRecOn generalizing x with
  | ind v ih =>
      by_cases hvr : v = r
      · subst hvr
        refine ⟨x, hx, Or.inl rfl, fun hlater => absurd hlater (not_later_root hg _), ?_⟩
        intro w hwv hw node hnode
        rw [Nat.le_antisymm hwv (hg.least w hw)] at hnode
        exact groupEntry_lt h hnode hx
      · obtain ⟨node, hnode⟩ := hv.exists_node
        obtain ⟨u, k, z, hu, hlt, hbefore, hz, hcase⟩ := entry_step h hg hv hvr hnode hx
        have hop := hcopies v hv hvr node hnode
        rcases hcase with ⟨hunary, _, rfl, hxz⟩ | ⟨hbinary, _⟩
        · obtain ⟨y, hy, hzy, hnonneg, hsizes⟩ := ih u hlt hu hz
          have hvalue : x = z ∧ node.op = .cast ∨ x = max 0 z := by
            rcases hop with hop | hop <;> rw [hop] at hxz
            · exact Or.inl ⟨hxz, hop⟩
            · exact Or.inr hxz
          refine ⟨y, hy, ?_, ?_, ?_⟩
          · rcases hvalue with ⟨rfl, _⟩ | rfl
            · exact hzy
            · rcases hzy with rfl | rfl <;> simp
          · intro hlater
            rcases hvalue with ⟨rfl, hcast⟩ | rfl
            · refine hnonneg ((hlater.cases hnode hbefore).resolve_left ?_)
              simp [hcast]
            · exact le_max_left _ _
          · intro w hwv hw node' hnode'
            rcases hbefore w hwv hw with rfl | hwu
            · exact groupEntry_lt h hnode' hx
            · exact hsizes w hwu hw node' hnode'
        · rcases hop with hop | hop <;> rw [hop] at hbinary <;> simp [IsBinary] at hbinary

/-! ## Chosen contents -/

/-- **A later `Relu` may follow only numbers that are not negative.** -/
theorem StoresLast.relu_after (laws : math.Laws) (h : Accepted m) (hg : GroupEnds m group r l)
    (hroot : m.nodes[r]? = some root) (hbody : kernelBody root.op = some body)
    (hstores : StoresLast m math group root l body n) (hn : 0 < n)
    (hlater : Later m r (· = .relu) l) :
    root.op = .relu ∨ root.op = .mul ∧ root.inputs[0]? = root.inputs[1]? := by
  have hgelu := (hstores.no_gelu laws h hg hroot hbody hn).1
  have hcopies := hstores.only_copies laws h hg hroot hbody hn
  -- what the kernel stores is not negative
  have hnonneg : ∀ contents value, Stored m root body math contents 0 = some value →
      0 ≤ value := by
    intro contents value hvalue
    obtain ⟨value', hvalue', hlast⟩ := hstores contents 0 hn
    rw [hvalue, Option.some.injEq] at hvalue'
    subst hvalue'
    obtain ⟨_, _, _, hpositive, _⟩ := entry_from_root h hg hcopies hg.lastMem hlast
    exact hpositive hlater
  rcases rootOperands h hroot hbody with
    ⟨hop, _⟩ | ⟨hop, a, b, lhs, rhs, hinputs, hlhs, hrhs⟩
  · rcases hop with hop | hop
    · exact Or.inl hop
    · exact absurd hop hgelu
  · refine Or.inr ?_
    by_cases hsame : root.op = .mul ∧ a = b
    · exact ⟨hsame.1, by simp [hinputs, hsame.2]⟩
    · -- contents for which the kernel stores a negative number
      exfalso
      obtain ⟨value, hvalue, _⟩ :=
        hstores (fun v _ => if v = a ∨ root.op = .add then -1 else 1) 0 hn
      have hpos := hnonneg _ _ hvalue
      obtain ⟨_, _, hstored⟩ := Stored.binary h hbody hop hinputs hlhs hrhs hvalue
      rcases hop with hop | hop
      · have hneg : value = -1 + -1 := by
          simpa [hop, Scalar.binary, MathFunctions.scalar] using hstored
        linarith
      · have hba : b ≠ a := fun heq => hsame ⟨hop, heq.symm⟩
        have hneg : value = -1 := by
          simpa [hop, hba, Scalar.binary, MathFunctions.scalar] using hstored
        linarith

/-- Of entries that are 0 or 1, only two ones give what two ones give. -/
theorem binary_ones {math : MathFunctions α} {op : Op} (hop : IsBinary op) {p q : Prop}
    [Decidable p] [Decidable q]
    (heq : math.scalar.binary op (if p then 1 else 0) (if q then 1 else 0) =
      math.scalar.binary op 1 1) : p ∧ q := by
  rcases hop with rfl | rfl
  · have hsum : (if p then (1 : α) else 0) + (if q then 1 else 0) = 1 + 1 := heq
    by_cases hp : p <;> by_cases hq : q <;> simp only [hp, hq, if_true, if_false] at hsum
    · exact ⟨hp, hq⟩
    · linarith
    · linarith
    · linarith
  · have hproduct : (if p then (1 : α) else 0) * (if q then 1 else 0) = 1 * 1 := heq
    by_cases hp : p <;> by_cases hq : q <;> simp [hp, hq] at hproduct
    exact ⟨hp, hq⟩

/-- **The kernel and broadcasting must read the same position.**  With a 1 in the
position `i` and 0 elsewhere, what the thread `i` stores is positive. -/
theorem StoresLast.in_place (laws : math.Laws) (h : Accepted m) (hg : GroupEnds m group r l)
    (hroot : m.nodes[r]? = some root) (hbody : kernelBody root.op = some body)
    (hstores : StoresLast m math group root l body n) (hi : i < n) :
    (∀ w, Member m r w → ∀ node, m.nodes[w]? = some node →
        i < volume node.output.shape.dims) ∧
      ∀ u : Nat, (u : Int) ∈ root.inputs → ∀ operand, m.nodes[u]? = some operand →
        i < volume operand.output.shape.dims ∧
          (root.op ≠ .relu → operandOffset root operand i = i) := by
  have hn : 0 < n := by omega
  have hgelu := (hstores.no_gelu laws h hg hroot hbody hn).1
  have hcopies := hstores.only_copies laws h hg hroot hbody hn
  obtain ⟨value, hvalue, hlast⟩ := hstores (fun _ j => if j = i then 1 else 0) i hi
  obtain ⟨y, hy, hvaluey, _, hsizes⟩ := entry_from_root h hg hcopies hg.lastMem hlast
  refine ⟨fun w hw node hnode => hsizes w (hg.greatest w hw) hw node hnode, ?_⟩
  rcases rootOperands h hroot hbody with
    ⟨hop, u, operand, hinputs, hoperand⟩ | ⟨hop, a, b, lhs, rhs, hinputs, hlhs, hrhs⟩
  · have hrelu : root.op = .relu := hop.resolve_right hgelu
    intro u' hu' operand' hoperand'
    have hsame : u' = u := by simpa [hinputs] using hu'
    subst hsame
    rw [hoperand, Option.some.injEq] at hoperand'
    subst hoperand'
    exact ⟨(Stored.relu h hbody hrelu hinputs hoperand hvalue).1, fun hne => absurd hrelu hne⟩
  · obtain ⟨hinA, hinB, hstored⟩ := Stored.binary h hbody hop hinputs hlhs hrhs hvalue
    have hentry := rootEntry_binary h hg hroot hop hinputs hlhs hrhs hy
    have hpos : 0 < value := by
      rcases hop with hop | hop <;>
        simp [hstored, hop, Scalar.binary, MathFunctions.scalar]
    have hfirst : value = y := by
      rcases hvaluey with heq | heq
      · exact heq
      · rcases le_total 0 y with hle | hle
        · rw [heq, max_eq_right hle]
        · rw [heq, max_eq_left hle] at hpos
          exact absurd hpos (lt_irrefl 0)
    -- both entries that broadcasting reads are 1
    have hplaces : operandOffset root lhs i = i ∧ operandOffset root rhs i = i := by
      rw [hfirst, hentry] at hstored
      exact binary_ones hop (by simpa using hstored)
    intro u hu operand hoperand
    have hcase : u = a ∨ u = b := by simpa [hinputs] using hu
    rcases hcase with rfl | rfl
    · rw [hlhs, Option.some.injEq] at hoperand
      subst hoperand
      exact ⟨hinA, fun _ => hplaces.1⟩
    · rw [hrhs, Option.some.injEq] at hoperand
      subst hoperand
      exact ⟨hinB, fun _ => hplaces.2⟩

/-- **A kernel that stores the last node's entries has the shape that suffices.** -/
theorem StoresLast.suffices (laws : math.Laws) (h : Accepted m) (hg : GroupEnds m group r l)
    (hroot : m.nodes[r]? = some root) (hbody : kernelBody root.op = some body)
    (hstores : StoresLast m math group root l body n) (hn : 0 < n) (hnarrow : n < 2 ^ 31) :
    KernelSuffices m group root n := by
  have hgelu := (hstores.no_gelu laws h hg hroot hbody hn).1
  have hcopies := hstores.only_copies laws h hg hroot hbody hn
  have hplace : ∀ i < n, _ := fun i hi => hstores.in_place laws h hg hroot hbody (i := i) hi
  -- an array with fewer entries would miss the entry of its size
  have hroom : ∀ dims : List Int, (∀ i < n, i < volume dims) → n ≤ volume dims := by
    intro dims hall
    by_contra hnot
    exact lt_irrefl _ (hall (volume dims) (by omega))
  have hoperand : ∀ id ∈ root.inputs, ∀ operand, m.node id = some operand → ∃ u : Nat,
      id = u ∧ m.nodes[u]? = some operand := by
    intro id hid operand hnode
    obtain ⟨u, rfl, _⟩ := h.earlier hroot hid
    exact ⟨u, rfl, by simpa using hnode⟩
  refine ⟨hnarrow, ?_, ?_, ?_, ?_, ?_⟩
  · rcases rootOperands h hroot hbody with ⟨hop, _⟩ | ⟨hop, _⟩
    · exact Or.inl (hop.resolve_right hgelu)
    · exact Or.inr hop
  · intro id hid node hnode
    obtain ⟨v, rfl, hv, hvr⟩ := (hg.tail id).mp hid
    have hnode' : m.nodes[v]? = some node := by simpa using hnode
    rcases hcopies v hv hvr node hnode' with hop | hop
    · exact Or.inl hop
    · refine Or.inr ⟨hop, hstores.relu_after laws h hg hroot hbody hn ?_⟩
      exact ⟨v, hg.greatest v hv, hv, hvr, node, hnode', hop⟩
  · intro id hid node hnode
    obtain ⟨v, rfl, hv⟩ := (hg.mem id).mp hid
    exact hroom _ fun i hi => (hplace i hi).1 v hv node (by simpa using hnode)
  · intro id hid operand hnode
    obtain ⟨u, rfl, hu⟩ := hoperand id hid operand hnode
    exact hroom _ fun i hi => ((hplace i hi).2 u hid operand hu).1
  · intro hne id hid operand hnode j hj
    obtain ⟨u, rfl, hu⟩ := hoperand id hid operand hnode
    exact ((hplace j hj).2 u hid operand hu).2 hne

end Gpuforge.Compiler

import Gpuforge.KernelSource

/-!
# Groups and their entries

A group that fusion returns is a chain: each node but the first is the only user of
the one that it follows (`Member.follows`), and there is none between the two
(`Member.le_of_lt`).  The entries of its nodes are those of their operators, and the
kernel is passed the entries of the operands of the first node.
-/

namespace Gpuforge.Compiler

open ForwardChains Relation

/-! ## Threads -/

/-- An `int` is below `2^31`. -/
theorem castInt_lt (i : Nat) : castInt i < 2 ^ 31 := by
  have hlt := Int.bmod_lt (x := (i : Int)) (m := 2 ^ 32) (by decide)
  unfold castInt
  omega

section threads

variable {α : Type} [Field α] [LinearOrder α] {kernel : Kernel} {tanh : α → α}
  {input rhs : Nat → Option α} {n i : Nat}

/-- A thread below the bound evaluates the body. -/
theorem thread_eq (hn : n < 2 ^ 31) (hi : i < n) :
    kernel.thread tanh input rhs (castInt n) i = kernel.body.eval tanh (input i) (rhs i) := by
  rw [Kernel.thread, castInt_of_lt hn, castInt_of_lt (by omega)]
  rw [if_neg (by omega), if_neg (by omega), Int.toNat_natCast]

/-- No bound lets the thread `2^31 - 1` store. -/
theorem thread_last (kernel : Kernel) (tanh : α → α) (input rhs : Nat → Option α) (n : Nat) :
    kernel.thread tanh input rhs (castInt n) (2 ^ 31 - 1) = none := by
  have hlt := castInt_lt n
  rw [Kernel.thread, castInt_of_lt (by omega : 2 ^ 31 - 1 < 2 ^ 31)]
  rw [if_pos (by omega)]

end threads

/-! ## The nodes of a group -/

variable {α : Type} {m : Module α} {group : FusionGroup} {r l u v w : Nat} {node : Node α}

/-- A node of the group that `r` leads. -/
def Member (m : Module α) (r v : Nat) : Prop :=
  v < m.nodes.length ∧ leader (Feeds m) v = r

/-- A member is a node. -/
theorem Member.exists_node (h : Member m r v) : ∃ node, m.nodes[v]? = some node :=
  ⟨_, List.getElem?_eq_getElem h.1⟩

/-- **A group and its ends.** -/
structure GroupEnds (m : Module α) (group : FusionGroup) (r l : Nat) : Prop where
  mem : ∀ id, id ∈ group.nodes ↔ ∃ v : Nat, id = v ∧ Member m r v
  tail : ∀ id, id ∈ group.nodes.tail ↔ ∃ v : Nat, id = v ∧ Member m r v ∧ v ≠ r
  head : group.nodes.head? = some (r : Int)
  last : group.nodes.getLast? = some (l : Int)
  root : Member m r r
  lastMem : Member m r l
  least : ∀ v, Member m r v → r ≤ v
  greatest : ∀ v, Member m r v → v ≤ l

/-- A group with a node has ends. -/
theorem LedBy.ends (h : LedBy m r group.nodes) (hne : group.nodes ≠ []) :
    ∃ l, GroupEnds m group r l := by
  obtain ⟨path, hpath, hsorted, hmem⟩ := h
  cases path with
  | nil => exact absurd hpath hne
  | cons first rest =>
      obtain ⟨hfirst, hlead⟩ := (hmem first).mp List.mem_cons_self
      have hself : leader (Feeds m) r = r := by
        rw [← hlead]
        exact leader_leader _ _
      have hle : r ≤ first := hlead ▸ leader_le .refl
      have hroot : Member m r r := ⟨Nat.lt_of_le_of_lt hle hfirst, hself⟩
      have hlater : ∀ v ∈ rest, first < v :=
        fun v hv => List.rel_of_pairwise_cons hsorted hv
      have heq : first = r := by
        rcases List.mem_cons.mp ((hmem r).mpr hroot) with hsame | hrest
        · exact hsame.symm
        · have hlt := hlater r hrest
          omega
      subst heq
      obtain ⟨front, l, hsplit⟩ : ∃ front l, first :: rest = front ++ [l] :=
        ⟨_, _, (List.dropLast_append_getLast (List.cons_ne_nil first rest)).symm⟩
      have hl : Member m first l := (hmem l).mp (by rw [hsplit]; simp)
      refine ⟨l, ?_, ?_, ?_, ?_, hroot, hl, ?_, ?_⟩
      · intro id
        rw [hpath, List.mem_map]
        constructor
        · intro hid
          obtain ⟨v, hv, rfl⟩ := hid
          exact ⟨v, rfl, (hmem v).mp hv⟩
        · intro hid
          obtain ⟨v, rfl, hv⟩ := hid
          exact ⟨v, (hmem v).mpr hv, rfl⟩
      · intro id
        rw [hpath, List.map_cons, List.tail_cons, List.mem_map]
        constructor
        · intro hid
          obtain ⟨v, hv, rfl⟩ := hid
          have hlt := hlater v hv
          exact ⟨v, rfl, (hmem v).mp (List.mem_cons_of_mem _ hv), by omega⟩
        · intro hid
          obtain ⟨v, rfl, hv, hvr⟩ := hid
          refine ⟨v, ?_, rfl⟩
          rcases List.mem_cons.mp ((hmem v).mpr hv) with hsame | hrest
          · exact absurd hsame hvr
          · exact hrest
      · rw [hpath]
        rfl
      · rw [hpath, hsplit, List.map_append]
        simp
      · intro v hv
        rcases List.mem_cons.mp ((hmem v).mpr hv) with hsame | hrest
        · omega
        · exact Nat.le_of_lt (hlater v hrest)
      · intro v hv
        have hin := (hmem v).mpr hv
        rw [hsplit] at hin hsorted
        rcases List.mem_append.mp hin with hfront | hlast
        · exact Nat.le_of_lt ((List.pairwise_append.mp hsorted).2.2 v hfront l (by simp))
        · exact Nat.le_of_eq (List.mem_singleton.mp hlast)

/-- A member other than the first follows a member, as its only user. -/
theorem Member.follows (h : Accepted m) (hv : Member m r v) (hne : v ≠ r)
    (hnode : m.nodes[v]? = some node) :
    ∃ u, Member m r u ∧ Feeds m u v ∧ u < v ∧ (u : Int) ∈ node.inputs ∧
      isElementwise node.op = true := by
  obtain ⟨hlt, hlead⟩ := hv
  obtain ⟨u, hfeeds, hsame⟩ := leader_step (hlead ▸ Ne.symm hne : leader (Feeds m) v ≠ v)
  have huv := h.feeds_forward.larger hfeeds
  obtain ⟨husers, node', hnode', helementwise⟩ := hfeeds
  rw [hnode, Option.some.injEq] at hnode'
  subst hnode'
  obtain ⟨v', node', hv', hnode', huses⟩ :=
    (mem_users h.indexed).mp (show (v : Int) ∈ m.users u by simp [husers])
  cases Int.ofNat.inj hv'
  rw [hnode, Option.some.injEq] at hnode'
  subst hnode'
  exact ⟨u, ⟨Nat.lt_trans huv hlt, hsame.trans hlead⟩, ⟨husers, node, hnode, helementwise⟩, huv,
    huses, helementwise⟩

/-- Between a member and the one it follows there is no member. -/
theorem Member.le_of_lt (h : Accepted m) (hu : Member m r u) (hfeeds : Feeds m u v)
    (hw : Member m r w) (hlt : w < v) : w ≤ u := by
  have hru := leader_reaches (Feeds m) u
  have hrw := leader_reaches (Feeds m) w
  rw [hu.2] at hru
  rw [hw.2] at hrw
  rcases h.feeds_forward.comparable hru hrw with huw | hwu
  · rcases ReflTransGen.cases_head huw with rfl | ⟨x, hx, hxw⟩
    · exact Nat.le_refl _
    · rw [h.feeds_forward.functional hx hfeeds] at hxw
      have hle := h.feeds_forward.le hxw
      omega
  · exact h.feeds_forward.le hwu

/-! ## Entries -/

section entries

variable [Field α] [LinearOrder α]

/-- The entry of a node in a module in which only the group is computed. -/
def Module.groupEntry (m : Module α) (math : MathFunctions α) (contents : Nat → Nat → α)
    (group : FusionGroup) (v j : Nat) : Option α :=
  (m.groupArrays math contents group)[v]?.bind fun array => array.entries j

variable {math : MathFunctions α} {contents : Nat → Nat → α}

/-- The array of a node has its dims. -/
theorem groupArrays_dims (math : MathFunctions α) (contents : Nat → Nat → α)
    (group : FusionGroup) (h : Accepted m) (hnode : m.nodes[v]? = some node) :
    ∃ array, (m.groupArrays math contents group)[v]? = some array ∧
      array.dims = node.output.shape.dims := by
  refine ⟨_, Dataflow.evaluate_eq (groupMeaning math contents group) h.forward hnode, ?_⟩
  unfold groupMeaning
  split <;> rfl

/-- The array of a node of the group. -/
theorem groupArrays_member (h : Accepted m) (hg : GroupEnds m group r l) (hv : Member m r v)
    (hnode : m.nodes[v]? = some node) :
    (m.groupArrays math contents group)[v]? = some
      (nodeArray math.scalar (fun _ _ => none) (fun _ _ _ _ _ => none) node
        (node.args.map fun a => (m.groupArrays math contents group)[a]?)) := by
  have heq := Dataflow.evaluate_eq (groupMeaning math contents group) h.forward hnode
  have hmem : node.id ∈ group.nodes := (hg.mem _).mpr ⟨v, h.indexed.ids v node hnode, hv⟩
  rw [groupMeaning, if_pos hmem] at heq
  exact heq

/-- The entries of a value from outside of the group. -/
theorem groupEntry_external (math : MathFunctions α) (contents : Nat → Nat → α)
    (h : Accepted m) (hg : GroupEnds m group r l)
    (hv : ¬ Member m r v) (hnode : m.nodes[v]? = some node) (j : Nat) :
    m.groupEntry math contents group v j =
      if j < volume node.output.shape.dims then some (contents v j) else none := by
  have heq := Dataflow.evaluate_eq (groupMeaning math contents group) h.forward hnode
  have hid := h.indexed.ids v node hnode
  have hnot : node.id ∉ group.nodes := by
    intro hmem
    obtain ⟨v', hv', hmember⟩ := (hg.mem _).mp hmem
    rw [hid] at hv'
    cases Int.ofNat.inj hv'
    exact hv hmember
  rw [groupMeaning, if_neg hnot] at heq
  rw [Module.groupEntry, Module.groupArrays, heq, Option.bind_some, externalArray, arrayOver,
    hid, Int.toNat_natCast]

/-- The entries of a unary operator in the group. -/
theorem groupEntry_unary (math : MathFunctions α) (contents : Nat → Nat → α)
    (h : Accepted m) (hg : GroupEnds m group r l) (hv : Member m r v)
    (hnode : m.nodes[v]? = some node) (hop : IsUnary node.op)
    (hinputs : node.inputs = [(u : Int)]) {operand : Node α}
    (hoperand : m.nodes[u]? = some operand) (j : Nat) :
    m.groupEntry math contents group v j = if j < volume node.output.shape.dims then
      (m.groupEntry math contents group u j).map (math.scalar.unary node.op) else none := by
  obtain ⟨array, harray, _⟩ := groupArrays_dims math contents group h hoperand
  have hargs : (node.args.map fun a => (m.groupArrays math contents group)[a]?)
      = [some array] := by
    simp [Node.args, hinputs, harray]
  rw [Module.groupEntry, groupArrays_member h hg hv hnode, hargs, nodeArray_unary hop,
    Module.groupEntry, harray]
  rfl

/-- The entries of a binary operator in the group. -/
theorem groupEntry_binary (math : MathFunctions α) (contents : Nat → Nat → α)
    (h : Accepted m) (hg : GroupEnds m group r l) (hv : Member m r v)
    (hnode : m.nodes[v]? = some node) (hop : IsBinary node.op) {a b : Nat} {lhs rhs : Node α}
    (hinputs : node.inputs = [(a : Int), (b : Int)]) (hlhs : m.nodes[a]? = some lhs)
    (hrhs : m.nodes[b]? = some rhs) (j : Nat) :
    m.groupEntry math contents group v j = if j < volume node.output.shape.dims then
      (match m.groupEntry math contents group a (operandOffset node lhs j),
        m.groupEntry math contents group b (operandOffset node rhs j) with
      | some x, some y => some (math.scalar.binary node.op x y)
      | _, _ => none) else none := by
  obtain ⟨first, hfirst, hfirstDims⟩ := groupArrays_dims math contents group h hlhs
  obtain ⟨second, hsecond, hsecondDims⟩ := groupArrays_dims math contents group h hrhs
  have hargs : (node.args.map fun a => (m.groupArrays math contents group)[a]?)
      = [some first, some second] := by
    simp [Node.args, hinputs, hfirst, hsecond]
  rw [Module.groupEntry, groupArrays_member h hg hv hnode, hargs, nodeArray_binary hop,
    Module.groupEntry, Module.groupEntry, hfirst, hsecond, operandOffset, operandOffset,
    ← hfirstDims, ← hsecondDims]
  rfl

/-- An operand of the first node has the given contents. -/
theorem groupEntry_operand (math : MathFunctions α) (contents : Nat → Nat → α)
    (h : Accepted m) (hg : GroupEnds m group r l) {root operand : Node α}
    (hroot : m.nodes[r]? = some root) (hinput : (u : Int) ∈ root.inputs)
    (hoperand : m.nodes[u]? = some operand) (j : Nat) :
    m.groupEntry math contents group u j =
      if j < volume operand.output.shape.dims then some (contents u j) else none := by
  obtain ⟨u', hu', hlt⟩ := h.earlier hroot hinput
  apply groupEntry_external math contents h hg _ hoperand
  intro hmember
  have hle := hg.least u hmember
  omega

omit [Field α] [LinearOrder α] in
/-- The kernel is passed the given contents of the operands of the first node. -/
theorem argument_operand (contents : Nat → Nat → α) (h : Accepted m) {root operand : Node α}
    {k : Nat} (hinput : root.inputs[k]? = some (u : Int)) (hoperand : m.nodes[u]? = some operand)
    (j : Nat) :
    m.argument contents root k j =
      if j < volume operand.output.shape.dims then some (contents u j) else none := by
  rw [Module.argument, hinput, Option.bind_some, Module.node_natCast, hoperand]
  simp only [externalArray, arrayOver, h.indexed.ids u operand hoperand, Int.toNat_natCast]

/-- An entry is inside of its array. -/
theorem groupEntry_lt (h : Accepted m) (hnode : m.nodes[v]? = some node) {j : Nat} {x : α}
    (hx : m.groupEntry math contents group v j = some x) :
    j < volume node.output.shape.dims := by
  have heq := Dataflow.evaluate_eq (groupMeaning math contents group) h.forward hnode
  rw [Module.groupEntry, Module.groupArrays, heq, Option.bind_some] at hx
  by_contra hnot
  have hnone : ∀ f : Nat → Option α, (arrayOver node.output.shape.dims f).entries j = none :=
    fun f => if_neg hnot
  unfold groupMeaning nodeArray externalArray at hx
  split at hx <;> rw [hnone] at hx <;> cases hx

/-- The functions of the unary operators. -/
theorem scalar_relu (math : MathFunctions α) (x : α) :
    math.scalar.unary .relu x = max 0 x := rfl

theorem scalar_cast (math : MathFunctions α) (x : α) : math.scalar.unary .cast x = x := rfl

theorem scalar_gelu (math : MathFunctions α) (x : α) :
    math.scalar.unary .gelu x = 1 / 2 * x * (1 + math.erf (x / math.sqrt 2)) := rfl

end entries

end Gpuforge.Compiler

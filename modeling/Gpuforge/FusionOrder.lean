import Gpuforge.FusionGroups

/-!
# When the launch order is executable

The groups that `fuse` returns are launched in order, each as one kernel that
reads its outside inputs.  The order is executable if every such input was
produced by an earlier launch.

A binary node joins the group of one operand without a look at the other one.
If the other operand is grouped later, the launch reads a value that is not
there yet; two parameters and their sum are the smallest case
(`fuse_breaks_launch_order`).  `fusion_executable_iff` says exactly when this
happens: for an operand with `v` as its only user, some chain into the other
operand has to start before every chain into it.
-/

namespace Gpuforge.Compiler

open ForwardChains Relation

variable {α : Type} {m : Module α}

/-- **Executable launches.**  Every input of a node of a group is in an earlier
group, or stands earlier in the same group. -/
def Executable (m : Module α) (groups : List FusionGroup) : Prop :=
  ∀ (i : Nat) (group : FusionGroup), groups[i]? = some group →
    ∀ v ∈ group.nodes, ∀ node, m.node v = some node → ∀ u ∈ node.inputs,
      (u ∉ group.nodes → ∃ j < i, ∃ earlier, groups[j]? = some earlier ∧ u ∈ earlier.nodes) ∧
      (u ∈ group.nodes → ∃ a b : Nat, a < b ∧ group.nodes[a]? = some u ∧
        group.nodes[b]? = some v)

/-- For every elementwise node, an operand `a` that has it as only user, and
another operand `b`: a chain of single elementwise users into `b` starts before
all such chains into `a`. -/
def OperandsReady (m : Module α) : Prop :=
  ∀ (v : Nat) (node : Node α), m.nodes[v]? = some node → isElementwise node.op = true →
    ∀ a b : Nat, (a : Int) ∈ node.inputs → (b : Int) ∈ node.inputs → a ≠ b →
      m.users a = [(v : Int)] →
      ∃ w, ReflTransGen (Feeds m) w b ∧ ∀ w', ReflTransGen (Feeds m) w' a → w < w'

/-- Leaders of operands are never larger than the leader of the node. -/
def LeadersOrdered (m : Module α) : Prop :=
  ∀ (v : Nat) (node : Node α), m.nodes[v]? = some node → ∀ u : Nat, (u : Int) ∈ node.inputs →
    leader (Feeds m) u ≤ leader (Feeds m) v

/-! ## Groups and leaders -/

/-- Positions and their ids. -/
theorem natCast_mem_map (path : List Nat) (v : Nat) :
    (v : Int) ∈ path.map Int.ofNat ↔ v ∈ path :=
  List.mem_map_of_injective (fun _ _ heq => Int.ofNat.inj heq)

/-- The members of a group. -/
theorem LedBy.mem_iff {r : Nat} {nodes : List Int} (h : LedBy m r nodes) (v : Nat) :
    (v : Int) ∈ nodes ↔ v < m.nodes.length ∧ leader (Feeds m) v = r := by
  obtain ⟨path, rfl, _, hall⟩ := h
  rw [natCast_mem_map, hall]

/-- A group lists its members in increasing order. -/
theorem LedBy.earlier {r u v : Nat} {nodes : List Int} (h : LedBy m r nodes)
    (hu : (u : Int) ∈ nodes) (hv : (v : Int) ∈ nodes) (hlt : u < v) :
    ∃ a b : Nat, a < b ∧ nodes[a]? = some (u : Int) ∧ nodes[b]? = some (v : Int) := by
  obtain ⟨path, rfl, hsorted, _⟩ := h
  obtain ⟨a, ha, hua⟩ := List.mem_iff_getElem.mp ((natCast_mem_map path u).mp hu)
  obtain ⟨b, hb, hvb⟩ := List.mem_iff_getElem.mp ((natCast_mem_map path v).mp hv)
  refine ⟨a, b, ?_, by simp [List.getElem?_eq_getElem ha, hua],
    by simp [List.getElem?_eq_getElem hb, hvb]⟩
  by_contra hge
  rcases Nat.lt_or_eq_of_le (Nat.le_of_not_lt hge) with hba | heq
  · have hvu := List.pairwise_iff_getElem.mp hsorted b a hb ha hba
    omega
  · subst heq
    omega

/-- Positions in an increasing list are ordered as the entries are. -/
theorem lt_iff_of_pairwise {roots : List Nat} (hsorted : roots.Pairwise (· < ·))
    {i j r r' : Nat} (hr : roots[i]? = some r) (hr' : roots[j]? = some r') :
    r < r' ↔ i < j := by
  obtain ⟨hi, rfl⟩ := List.getElem?_eq_some_iff.mp hr
  obtain ⟨hj, rfl⟩ := List.getElem?_eq_some_iff.mp hr'
  have hmono := List.pairwise_iff_getElem.mp hsorted
  constructor
  · intro hlt
    by_contra hge
    rcases Nat.lt_or_eq_of_le (Nat.le_of_not_lt hge) with hji | heq
    · have := hmono j i hj hi hji
      omega
    · subst heq
      omega
  · exact hmono i j hi hj

/-- Every group has a leader at its position among the roots, and every node is
in the group of its leader. -/
theorem Fused.by_position {groups : List FusionGroup}
    (hf : Fused m m.nodes.length groups) :
    ∃ roots : List Nat, roots.Pairwise (· < ·) ∧
      (∀ (i : Nat) (group : FusionGroup), groups[i]? = some group →
        ∃ r, roots[i]? = some r ∧ LedBy m r group.nodes) ∧
      ∀ v < m.nodes.length, ∃ (i : Nat) (group : FusionGroup), groups[i]? = some group ∧
        roots[i]? = some (leader (Feeds m) v) ∧ LedBy m (leader (Feeds m) v) group.nodes := by
  obtain ⟨roots, hsorted, hgroups, _, hall⟩ := hf
  refine ⟨roots, hsorted, ?_, ?_⟩
  · intro i group hgroup
    obtain ⟨hi, rfl⟩ := List.getElem?_eq_some_iff.mp hgroup
    have hi' : i < roots.length := by rw [hgroups.length_eq]; exact hi
    exact ⟨roots[i], List.getElem?_eq_getElem hi', hgroups.get hi' hi⟩
  · intro v hv
    have hlead : leader (Feeds m) v < m.nodes.length :=
      Nat.lt_of_le_of_lt (leader_le .refl) hv
    obtain ⟨i, hi, hri⟩ := List.mem_iff_getElem.mp (hall v hv hlead)
    have hi' : i < groups.length := by rw [← hgroups.length_eq]; exact hi
    have hled : LedBy m roots[i] groups[i].nodes := hgroups.get hi hi'
    rw [hri] at hled
    exact ⟨i, groups[i], List.getElem?_eq_getElem hi', by rw [List.getElem?_eq_getElem hi, hri],
      hled⟩

/-- The launch order is executable exactly when leaders are ordered. -/
theorem executable_iff_leaders (h : Accepted m) {groups : List FusionGroup}
    (hf : Fused m m.nodes.length groups) : Executable m groups ↔ LeadersOrdered m := by
  obtain ⟨roots, hsorted, hroot, hgroup⟩ := hf.by_position
  constructor
  · intro hexec v node hnode u hu
    have hv : v < m.nodes.length := (List.getElem?_eq_some_iff.mp hnode).1
    obtain ⟨i, group, hgi, hri, hled⟩ := hgroup v hv
    have hvmem : (v : Int) ∈ group.nodes := (hled.mem_iff v).mpr ⟨hv, rfl⟩
    obtain ⟨hout, _⟩ := hexec i group hgi v hvmem node
      (by rw [Module.node, intAt_natCast]; exact hnode) u hu
    by_cases humem : (u : Int) ∈ group.nodes
    · exact Nat.le_of_eq ((hled.mem_iff u).mp humem).2
    · obtain ⟨j, hji, earlier, hgj, huj⟩ := hout humem
      obtain ⟨r, hrj, hled'⟩ := hroot j earlier hgj
      rw [((hled'.mem_iff u).mp huj).2]
      exact Nat.le_of_lt ((lt_iff_of_pairwise hsorted hrj hri).mpr hji)
  · intro hleaders i group hgi v hvmem node hnode u hu
    obtain ⟨r, hri, hled⟩ := hroot i group hgi
    obtain ⟨v, rfl, hnode'⟩ := intAt_eq_some hnode
    obtain ⟨u, rfl, hlt⟩ := h.earlier hnode' hu
    obtain ⟨hv, hvr⟩ := (hled.mem_iff v).mp hvmem
    have hle := hleaders v node hnode' u hu
    refine ⟨fun hnot => ?_, fun humem => hled.earlier humem hvmem hlt⟩
    have hu' : u < m.nodes.length := Nat.lt_trans hlt hv
    have hne : leader (Feeds m) u ≠ r := fun heq => hnot ((hled.mem_iff u).mpr ⟨hu', heq⟩)
    have hless : leader (Feeds m) u < r := by omega
    obtain ⟨j, earlier, hgj, hrj, hled'⟩ := hgroup u hu'
    exact ⟨j, (lt_iff_of_pairwise hsorted hrj hri).mp hless, earlier, hgj,
      (hled'.mem_iff u).mpr ⟨hu', rfl⟩⟩

/-- Leaders are ordered exactly when the operands are ready. -/
theorem leaders_iff_ready (h : Accepted m) : LeadersOrdered m ↔ OperandsReady m := by
  constructor
  · intro hleaders v node hnode helem a b ha hb hne husers
    have hfeeds : Feeds m a v := ⟨husers, node, hnode, helem⟩
    have hsame : leader (Feeds m) a = leader (Feeds m) v :=
      Nat.le_antisymm (hleaders v node hnode a ha) (leader_le_leader (.single hfeeds))
    have hle := hleaders v node hnode b hb
    obtain ⟨b', hb', hbv⟩ := h.earlier hnode hb
    have hbv' : b < v := by omega
    -- `b` is used by `v`, so `v` is all it can feed
    have honly : ∀ x, Feeds m b x → x = v := by
      intro x hfeeds'
      obtain ⟨hx, _⟩ := hfeeds'
      have hmem : (v : Int) ∈ m.users b := (mem_users h.indexed).mpr ⟨v, node, rfl, hnode, hb⟩
      rw [hx, List.mem_singleton] at hmem
      omega
    have hdiff := h.feeds_forward.leader_ne hfeeds hne hbv' honly
    refine ⟨leader (Feeds m) b, leader_reaches (Feeds m) b, fun w' hw' => ?_⟩
    have hw := leader_le hw'
    omega
  · intro hready v node hnode u hu
    by_cases hself : leader (Feeds m) v = v
    · obtain ⟨u', hu', hlt⟩ := h.earlier hnode hu
      have hle := leader_le (ReflTransGen.refl (r := Feeds m) (a := u))
      omega
    · obtain ⟨a, hfeeds, hlead⟩ := leader_step hself
      by_cases hua : u = a
      · rw [hua, hlead]
      · obtain ⟨husers, node', hnode', helem⟩ := hfeeds
        rw [hnode, Option.some.injEq] at hnode'
        subst hnode'
        have ha : (a : Int) ∈ node.inputs := by
          obtain ⟨v', node', hv', hnode', huses⟩ :=
            (mem_users h.indexed).mp (show (v : Int) ∈ m.users a by simp [husers])
          have hvv : v = v' := by omega
          subst hvv
          rw [hnode, Option.some.injEq] at hnode'
          exact hnode' ▸ huses
        obtain ⟨w, hw, hbefore⟩ := hready v node hnode helem a u ha hu (Ne.symm hua) husers
        have hless := hbefore _ (leader_reaches (Feeds m) a)
        have hle := leader_le hw
        omega

/-- **When fusion gives an executable launch order.**  On every accepted
module the pass succeeds, and no launch reads a value of a later one exactly
when, for every elementwise node, a chain into its other operand starts before
all chains into an operand it is the only user of. -/
theorem fusion_executable_iff (h : Accepted m) :
    ∃ groups, m.fuse = some groups ∧ (Executable m groups ↔ OperandsReady m) := by
  obtain ⟨groups, hres, hf⟩ := fuse_groups h
  exact ⟨groups, hres, (executable_iff_leaders h hf).trans (leaders_iff_ready h)⟩

/-- A parameter, its `Relu`, and the product of the two: the chain into the parameter, which
has two users, starts before the chain into the `Relu`. -/
theorem fusion_executable_iff_example :
    let shape : Shape := { dims := [2] }
    let m : Module Int :=
      ⟨[⟨0, .parameter, [], ⟨0, shape, "x"⟩, [], []⟩,
        ⟨1, .relu, [0], ⟨1, shape, "v1"⟩, [], []⟩,
        ⟨2, .mul, [1, 0], ⟨2, shape, "v2"⟩, [], []⟩], []⟩
    ∃ groups, m.fuse = some groups ∧ Executable m groups := by
  intro shape m
  obtain ⟨groups, hfuse, hiff⟩ := fusion_executable_iff (m := m)
    ⟨Module.indexed_of_ids rfl (show 3 ≤ 2 ^ 31 by omega), rfl⟩
  have husers : m.users (0 : Nat) = [1, 2] := by decide
  refine ⟨groups, hfuse, hiff.mpr ?_⟩
  intro v node hnode _ a b ha hb hne honly
  match v, hnode with
  | 0, hnode =>
      cases hnode
      cases ha
  | 1, hnode =>
      cases hnode
      rw [List.mem_singleton] at ha hb
      omega
  | 2, hnode =>
      cases hnode
      simp only [List.mem_cons, List.not_mem_nil, or_false] at ha hb
      have hnonzero : a ≠ 0 := by
        intro hzero
        rw [hzero, husers] at honly
        cases honly
      obtain rfl : a = 1 := by omega
      obtain rfl : b = 0 := by omega
      refine ⟨0, .refl, fun w' hw' => Nat.pos_of_ne_zero fun hzero => ?_⟩
      subst hzero
      rcases ReflTransGen.cases_head hw' with heq | ⟨x, hfeeds, _⟩
      · cases heq
      · have hsingle := hfeeds.1
        rw [husers] at hsingle
        cases hsingle

/-- Two parameters and their sum: the sum is launched with the first parameter,
before the second one. -/
theorem fuse_breaks_launch_order :
    ¬ ∀ m : Module Int, Accepted m → ∀ groups, m.fuse = some groups →
      Executable m groups := by
  intro hclaim
  let shape : Shape := { dims := [2] }
  let m : Module Int :=
    ⟨[⟨0, .parameter, [], ⟨0, shape, "x"⟩, [], []⟩,
      ⟨1, .parameter, [], ⟨1, shape, "y"⟩, [], []⟩,
      ⟨2, .add, [0, 1], ⟨2, shape, "v2"⟩, [], []⟩], []⟩
  have haccepted : Accepted m :=
    ⟨Module.indexed_of_ids rfl (show 3 ≤ 2 ^ 31 by omega), rfl⟩
  have hfuse : m.fuse = some [⟨[0, 2], "fused_0", 2048⟩, ⟨[1], "fused_1", 1024⟩] := by
    decide +kernel
  obtain ⟨hout, _⟩ := hclaim m haccepted _ hfuse 0 ⟨[0, 2], "fused_0", 2048⟩ rfl 2 (by decide)
    ⟨2, .add, [0, 1], ⟨2, shape, "v2"⟩, [], []⟩ rfl 1 (by decide)
  obtain ⟨j, hj, _⟩ := hout (by decide)
  exact absurd hj (Nat.not_lt_zero j)

end Gpuforge.Compiler

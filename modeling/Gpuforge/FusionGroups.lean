import Gpuforge.BoundedLoop
import Gpuforge.ForwardChains
import Gpuforge.ShapeRules

/-!
# Fusion groups (`PassManager::fuse`)

The pass scans the nodes in order.  From each node not yet visited it grows a
group: as long as the last node of the group has a single user, and that user
is elementwise and not visited, the user joins.  The groups, in the order of
their first nodes, become the launches of the compiled program.

On an accepted module a group consists of the nodes with the same leader along
the relation "has as its only user, an elementwise node", and the groups come in the
order of their leaders (`fuse_groups`).
-/

namespace Gpuforge.Compiler

open BoundedLoop ForwardChains Relation

variable {α : Type}

/-! ## The pass -/

structure FusionGroup where
  nodes : List Int
  kernel : String
  flops : Nat := 0
  deriving DecidableEq, Repr

/-- A growing group: its nodes, the visited flags, and its last node. -/
structure Chain where
  nodes : List Int
  visited : List Bool
  current : Int

/-- One turn of the loop that grows a group; `none` is a subscript out of
range. -/
def chainTurn (m : Module α) (st : Chain) : Turn Chain (Option Chain) :=
  match m.users st.current with
  | [user] =>
      match m.node user, intAt st.visited user with
      | some node, some visited =>
          if isElementwise node.op = false ∨ visited = true then .leave (some st)
          else .again ⟨st.nodes ++ [user], st.visited.set user.toNat true, user⟩
      | _, _ => .leave none
  | _ => .leave (some st)

/-- The group that starts at a node.  Every turn visits another node. -/
def growGroup (m : Module α) (root : Int) (visited : List Bool) : Option Chain :=
  (run (chainTurn m) (m.nodes.length + 1)
    ⟨[root], visited.set root.toNat true, root⟩).join

/-- The scan over the nodes. -/
def fuseFrom (m : Module α) : List (Node α) → List Bool → List FusionGroup →
    Option (List FusionGroup)
  | [], _, groups => some groups
  | root :: rest, visited, groups =>
      match intAt visited root.id with
      | none => none
      | some true => fuseFrom m rest visited groups
      | some false =>
          match growGroup m root.id visited with
          | none => none
          | some chain =>
              fuseFrom m rest chain.visited
                (groups ++ [{ nodes := chain.nodes
                              kernel := "fused_" ++ toString root.id
                              flops := chain.nodes.length * 1024 % 2 ^ 64 }])

/-- The groups; `none` is a subscript out of range. -/
def Module.fuse (m : Module α) : Option (List FusionGroup) :=
  fuseFrom m m.nodes (List.replicate m.nodes.length false) []

/-! ## The relation that groups follow -/

/-- The value of `u` has one user, `v`, and `v` is elementwise. -/
def Feeds (m : Module α) (u v : Nat) : Prop :=
  m.users u = [(v : Int)] ∧ ∃ node, m.nodes[v]? = some node ∧ isElementwise node.op = true

variable {m : Module α}

/-- The users of a value are the positions of the nodes with it as input. -/
theorem mem_users (h : m.Indexed) {id : Int} {u : Int} :
    id ∈ m.users u ↔ ∃ (v : Nat) (node : Node α), id = v ∧ m.nodes[v]? = some node ∧
      u ∈ node.inputs := by
  unfold Module.users
  constructor
  · intro hmem
    obtain ⟨node, hfilter, rfl⟩ := List.mem_map.mp hmem
    obtain ⟨hnode, huses⟩ := List.mem_filter.mp hfilter
    obtain ⟨v, hv, rfl⟩ := List.mem_iff_getElem.mp hnode
    have hget := List.getElem?_eq_getElem hv
    exact ⟨v, m.nodes[v], h.ids v _ hget, hget, by simpa using huses⟩
  · intro huser
    obtain ⟨v, node, rfl, hnode, huses⟩ := huser
    rw [← h.ids v node hnode]
    exact List.mem_map_of_mem
      (List.mem_filter.mpr ⟨List.mem_of_getElem? hnode, by simpa using huses⟩)

/-- Feeding points forward, to one node. -/
theorem Accepted.feeds_forward (h : Accepted m) : Forward (Feeds m) where
  functional := by
    intro u v w hfirst hsecond
    obtain ⟨hv, _⟩ := hfirst
    obtain ⟨hw, _⟩ := hsecond
    rw [hv] at hw
    have heq := (List.cons.inj hw).1
    omega
  larger := by
    intro u v hfeeds
    obtain ⟨hv, _⟩ := hfeeds
    obtain ⟨v', node, hv', hnode, huses⟩ :=
      (mem_users h.indexed).mp (show (v : Int) ∈ m.users u by simp [hv])
    obtain ⟨u', hu', hlt⟩ := h.earlier hnode huses
    omega

/-! ## Growing one group -/

/-- The flags say which nodes have a leader below `k`. -/
structure VisitedBelow (m : Module α) (k : Nat) (visited : List Bool) : Prop where
  size : visited.length = m.nodes.length
  flags : ∀ v < m.nodes.length, visited[v]? = some true ↔ leader (Feeds m) v < k

/-- A group consists of the nodes with one leader, in increasing order. -/
def LedBy (m : Module α) (r : Nat) (nodes : List Int) : Prop :=
  ∃ path : List Nat, nodes = path.map Int.ofNat ∧ path.Pairwise (· < ·) ∧
    ∀ v, v ∈ path ↔ v < m.nodes.length ∧ leader (Feeds m) v = r

/-- What holds between turns, for the group that starts at `r`. -/
structure Growing (m : Module α) (r : Nat) (st : Chain) (path : List Nat) (last : Nat) :
    Prop where
  nodes : st.nodes = path.map Int.ofNat
  current : st.current = last
  lastMem : last ∈ path
  size : st.visited.length = m.nodes.length
  sorted : path.Pairwise (· < ·)
  below : ∀ v ∈ path, v ≤ last ∧ v < m.nodes.length ∧ leader (Feeds m) v = r
  flags : ∀ v < m.nodes.length, st.visited[v]? = some true ↔
    leader (Feeds m) v < r ∨ v ∈ path
  ahead : ∀ v < m.nodes.length, leader (Feeds m) v = r →
    v ∈ path ∨ ReflTransGen (Feeds m) last v

/-- The group as it starts. -/
theorem growing_start {r : Nat} {visited : List Bool} (hv : VisitedBelow m r visited)
    (hr : r < m.nodes.length) (hlead : leader (Feeds m) r = r) :
    Growing m r ⟨[(r : Int)], visited.set r true, r⟩ [r] r := by
  refine ⟨rfl, rfl, by simp, by simpa using hv.size, by simp, ?_, ?_, ?_⟩
  · intro v hmem
    rw [List.mem_singleton.mp hmem]
    exact ⟨Nat.le_refl r, hr, hlead⟩
  · intro v hlt
    by_cases hvr : v = r
    · simp [hvr, hv.size, hr]
    · rw [List.getElem?_set_ne (Ne.symm hvr), hv.flags v hlt]
      simp [hvr]
  · intro v _ hvr
    exact Or.inr (hvr ▸ leader_reaches (Feeds m) v)

/-- A turn that goes round again adds the node that the last one feeds. -/
theorem Growing.extend {r last u : Nat} {st : Chain} {path : List Nat} (h : Accepted m)
    (hg : Growing m r st path last) (hfeeds : Feeds m last u)
    (hfree : st.visited[u]? ≠ some true) :
    Growing m r ⟨st.nodes ++ [(u : Int)], st.visited.set u true, u⟩ (path ++ [u]) u := by
  have hlt := h.feeds_forward.larger hfeeds
  obtain ⟨node, hnode, _⟩ := hfeeds.2
  have hu : u < m.nodes.length := (List.getElem?_eq_some_iff.mp hnode).1
  have hlead : leader (Feeds m) u = r := by
    have hle := leader_le_leader (ReflTransGen.single hfeeds)
    have hr := (hg.below last hg.lastMem).2.2
    have hnot : ¬ leader (Feeds m) u < r := fun hless =>
      hfree ((hg.flags u hu).mpr (Or.inl hless))
    omega
  refine ⟨by simp [hg.nodes], rfl, by simp, by simpa using hg.size, ?_, ?_, ?_, ?_⟩
  · rw [List.pairwise_append]
    refine ⟨hg.sorted, by simp, ?_⟩
    intro v hv w hw
    rw [List.mem_singleton.mp hw]
    exact Nat.lt_of_le_of_lt (hg.below v hv).1 hlt
  · intro v hv
    rcases List.mem_append.mp hv with hold | hnew
    · obtain ⟨hle, hrest⟩ := hg.below v hold
      exact ⟨by omega, hrest⟩
    · rw [List.mem_singleton.mp hnew]
      exact ⟨Nat.le_refl u, hu, hlead⟩
  · intro v hv
    by_cases hvu : v = u
    · simp [hvu, hg.size, hu]
    · rw [List.getElem?_set_ne (Ne.symm hvu), hg.flags v hv]
      simp [hvu]
  · intro v hv hvr
    rcases hg.ahead v hv hvr with hmem | hreach
    · exact Or.inl (List.mem_append_left _ hmem)
    · rcases ReflTransGen.cases_head hreach with rfl | ⟨x, hx, hxv⟩
      · exact Or.inl (List.mem_append_left _ hg.lastMem)
      · rw [h.feeds_forward.functional hx hfeeds] at hxv
        exact Or.inr hxv

/-- When the last node feeds nothing, or only a visited node, the group is
complete. -/
theorem Growing.finish {r last : Nat} {st : Chain} {path : List Nat} (h : Accepted m)
    (hg : Growing m r st path last)
    (hstop : ∀ u, Feeds m last u → st.visited[u]? = some true) :
    LedBy m r st.nodes ∧ VisitedBelow m (r + 1) st.visited := by
  have hall : ∀ v, v ∈ path ↔ v < m.nodes.length ∧ leader (Feeds m) v = r := by
    intro v
    constructor
    · exact fun hv => (hg.below v hv).2
    · intro hled
      obtain ⟨hv, hvr⟩ := hled
      rcases hg.ahead v hv hvr with hmem | hreach
      · exact hmem
      · rcases ReflTransGen.cases_head hreach with rfl | ⟨x, hx, hxv⟩
        · exact hg.lastMem
        · -- the node that the last one feeds belongs to an earlier group
          exfalso
          have hlt := h.feeds_forward.larger hx
          have hx' : x < m.nodes.length :=
            Nat.lt_of_le_of_lt (h.feeds_forward.le hxv) hv
          rcases (hg.flags x hx').mp (hstop x hx) with hless | hmem
          · have hle := leader_le_leader hxv
            omega
          · have hle := (hg.below x hmem).1
            omega
  refine ⟨⟨path, hg.nodes, hg.sorted, hall⟩, hg.size, ?_⟩
  intro v hv
  rw [hg.flags v hv, hall]
  omega

/-- The last node of a group that grows on, or the reason why it does not. -/
theorem chainTurn_cases {last : Nat} {st : Chain} (h : m.Indexed) (hcurrent : st.current = last)
    (hsize : st.visited.length = m.nodes.length) :
    (∃ u, Feeds m last u ∧ st.visited[u]? ≠ some true ∧
      chainTurn m st = .again ⟨st.nodes ++ [(u : Int)], st.visited.set u true, u⟩) ∨
    ((∀ u, Feeds m last u → st.visited[u]? = some true) ∧
      chainTurn m st = .leave (some st)) := by
  unfold chainTurn
  rw [hcurrent]
  split
  · rename_i user husers
    obtain ⟨u, node, rfl, hnode, _⟩ :=
      (mem_users h).mp (show user ∈ m.users last by simp [husers])
    have hu : u < st.visited.length := by
      rw [hsize]
      exact (List.getElem?_eq_some_iff.mp hnode).1
    have hflag : st.visited[u]? = some st.visited[u] := List.getElem?_eq_getElem hu
    simp only [Module.node, intAt_natCast, hnode, hflag, Int.toNat_natCast]
    split
    · rename_i hskip
      refine Or.inr ⟨?_, rfl⟩
      intro w hfeeds
      obtain ⟨hw, node', hnode', helem⟩ := hfeeds
      rw [husers] at hw
      have huw : u = w := by
        have heq := (List.cons.inj hw).1
        omega
      subst huw
      rw [hnode, Option.some.injEq] at hnode'
      subst hnode'
      rcases hskip with hop | hvisited
      · rw [helem] at hop
        cases hop
      · rw [hflag, hvisited]
    · rename_i hgo
      simp only [not_or, Bool.not_eq_false, Bool.not_eq_true] at hgo
      refine Or.inl ⟨u, ⟨husers, node, hnode, hgo.1⟩, ?_, rfl⟩
      rw [hflag, hgo.2]
      simp
  · rename_i hnone
    refine Or.inr ⟨?_, rfl⟩
    intro w hfeeds
    obtain ⟨hw, _⟩ := hfeeds
    exact absurd hw (hnone _)

/-- Visiting a node leaves fewer unvisited ones. -/
theorem count_false_set_lt {visited : List Bool} {u : Nat} (hu : u < visited.length)
    (hfree : visited[u]? ≠ some true) :
    (visited.set u true).count false < visited.count false := by
  have hfalse : visited[u] = false := by
    rw [List.getElem?_eq_getElem hu] at hfree
    simpa using hfree
  have hpos : 0 < visited.count false :=
    List.count_pos_iff.mpr (hfalse ▸ List.getElem_mem hu)
  have hcount : (visited.set u true).count false = visited.count false - 1 := by
    rw [List.count_set hu, hfalse]
    rfl
  omega

/-- There are no more unvisited nodes than nodes. -/
theorem count_false_lt {visited : List Bool} {n : Nat} (hsize : visited.length = n) :
    visited.count false < n + 1 :=
  Nat.lt_succ_of_le (hsize ▸ List.count_le_length)

/-- **Rule for growing a group.**  What holds of a group with one node, and still holds
when the node that the last one feeds joins, holds of the group that the loop returns.
The loop returns one, and its last node feeds no unvisited node. -/
theorem growGroup_rule {I : Chain → List Nat → Nat → Prop} {r : Nat} {visited : List Bool}
    (h : m.Indexed)
    (hshape : ∀ st path last, I st path last →
      st.current = last ∧ st.visited.length = m.nodes.length)
    (hstart : I ⟨[(r : Int)], visited.set r true, r⟩ [r] r)
    (hextend : ∀ st path last u, I st path last → Feeds m last u → st.visited[u]? ≠ some true →
      I ⟨st.nodes ++ [(u : Int)], st.visited.set u true, u⟩ (path ++ [u]) u) :
    ∃ chain path last, growGroup m r visited = some chain ∧ I chain path last ∧
      ∀ u, Feeds m last u → chain.visited[u]? = some true := by
  have hagain : ∀ st st', (∃ path last, I st path last) → chainTurn m st = .again st' →
      (∃ path last, I st' path last) ∧ st'.visited.count false < st.visited.count false := by
    intro st st' hgrowing hturn
    obtain ⟨path, last, hg⟩ := hgrowing
    obtain ⟨hcurrent, hsize⟩ := hshape st path last hg
    rcases chainTurn_cases h hcurrent hsize with ⟨u, hfeeds, hfree, hres⟩ | ⟨_, hres⟩
    · rw [hres] at hturn
      cases hturn
      refine ⟨⟨_, _, hextend st path last u hg hfeeds hfree⟩, ?_⟩
      obtain ⟨node, hnode, _⟩ := hfeeds.2
      have hu : u < st.visited.length := by
        rw [hsize]
        exact (List.getElem?_eq_some_iff.mp hnode).1
      exact count_false_set_lt hu hfree
    · rw [hres] at hturn
      cases hturn
  have hleave : ∀ st r', (∃ path last, I st path last) → chainTurn m st = .leave r' →
      ∃ chain path last, r' = some chain ∧ I chain path last ∧
        ∀ u, Feeds m last u → chain.visited[u]? = some true := by
    intro st r' hgrowing hturn
    obtain ⟨path, last, hg⟩ := hgrowing
    obtain ⟨hcurrent, hsize⟩ := hshape st path last hg
    rcases chainTurn_cases h hcurrent hsize with ⟨u, _, _, hres⟩ | ⟨hstop, hres⟩
    · rw [hres] at hturn
      cases hturn
    · rw [hres] at hturn
      cases hturn
      exact ⟨st, path, last, rfl, hg, hstop⟩
  obtain ⟨result, hrun, chain, path, last, rfl, hg, hstop⟩ := run_total _ _
    (fun st => st.visited.count false) hagain hleave (m.nodes.length + 1)
    ⟨[(r : Int)], visited.set r true, r⟩ (count_false_lt (hshape _ _ _ hstart).2)
    ⟨_, _, hstart⟩
  refine ⟨chain, path, last, ?_, hg, hstop⟩
  rw [growGroup, Int.toNat_natCast, hrun]
  rfl

/-- **Growing a group.**  From a node that leads itself, with all groups of
smaller leaders visited, the loop returns the nodes it leads. -/
theorem growGroup_ledBy {r : Nat} {visited : List Bool} (h : Accepted m)
    (hv : VisitedBelow m r visited) (hr : r < m.nodes.length)
    (hlead : leader (Feeds m) r = r) :
    ∃ chain, growGroup m r visited = some chain ∧ LedBy m r chain.nodes ∧
      VisitedBelow m (r + 1) chain.visited := by
  obtain ⟨chain, path, last, hgrow, hg, hstop⟩ := growGroup_rule h.indexed
    (fun _ _ _ hg => ⟨hg.current, hg.size⟩) (growing_start hv hr hlead)
    (fun _ _ _ _ hg hfeeds hfree => hg.extend h hfeeds hfree)
  exact ⟨chain, hgrow, hg.finish h hstop⟩

/-! ## The scan -/

/-- The groups of the leaders below `k`, in the order of the leaders. -/
def Fused (m : Module α) (k : Nat) (groups : List FusionGroup) : Prop :=
  ∃ roots : List Nat, roots.Pairwise (· < ·) ∧
    List.Forall₂ (fun r group => LedBy m r group.nodes) roots groups ∧
    (∀ r ∈ roots, r < k) ∧
    ∀ v < m.nodes.length, leader (Feeds m) v < k → leader (Feeds m) v ∈ roots

/-- The scan passes a visited node. -/
theorem Fused.pass {k : Nat} {groups : List FusionGroup} {visited : List Bool}
    (hf : Fused m k groups) (hv : VisitedBelow m k visited)
    (hled : leader (Feeds m) k < k) :
    Fused m (k + 1) groups ∧ VisitedBelow m (k + 1) visited := by
  have hnone : ∀ v, leader (Feeds m) v < k + 1 ↔ leader (Feeds m) v < k := by
    intro v
    have hne : leader (Feeds m) v ≠ k := by
      intro heq
      have hself := leader_leader (Feeds m) v
      rw [heq] at hself
      omega
    omega
  obtain ⟨roots, hsorted, hgroups, hbelow, hall⟩ := hf
  refine ⟨⟨roots, hsorted, hgroups, fun r hr => Nat.lt_succ_of_lt (hbelow r hr), ?_⟩,
    hv.size, ?_⟩
  · exact fun v hlt hlead => hall v hlt ((hnone v).mp hlead)
  · intro v hlt
    rw [hv.flags v hlt, hnone]

/-- The scan adds the group of an unvisited node. -/
theorem Fused.add {k : Nat} {groups : List FusionGroup} {group : FusionGroup}
    (hf : Fused m k groups) (hled : LedBy m k group.nodes) :
    Fused m (k + 1) (groups ++ [group]) := by
  obtain ⟨roots, hsorted, hgroups, hbelow, hall⟩ := hf
  refine ⟨roots ++ [k], ?_, ?_, ?_, ?_⟩
  · rw [List.pairwise_append]
    refine ⟨hsorted, by simp, ?_⟩
    intro r hr r' hr'
    rw [List.mem_singleton.mp hr']
    exact hbelow r hr
  · exact List.rel_append hgroups (.cons hled .nil)
  · intro r hr
    rcases List.mem_append.mp hr with hold | hnew
    · exact Nat.lt_succ_of_lt (hbelow r hold)
    · rw [List.mem_singleton.mp hnew]
      exact Nat.lt_succ_self k
  · intro v hlt hlead
    by_cases hvk : leader (Feeds m) v = k
    · simp [hvk]
    · exact List.mem_append_left _ (hall v hlt (by omega))

/-- The scan from a node on. -/
theorem fuseFrom_fused (h : Accepted m) : ∀ (rest done : List (Node α)) (visited : List Bool)
    (groups : List FusionGroup), m.nodes = done ++ rest →
    VisitedBelow m done.length visited → Fused m done.length groups →
    ∃ groups', fuseFrom m rest visited groups = some groups' ∧
      Fused m m.nodes.length groups' := by
  intro rest
  induction rest with
  | nil =>
      intro done visited groups hsplit _ hf
      have hlen : m.nodes.length = done.length := by rw [hsplit, List.append_nil]
      exact ⟨groups, rfl, hlen ▸ hf⟩
  | cons root rest ih =>
      intro done visited groups hsplit hv hf
      have hnode : m.nodes[done.length]? = some root := by simp [hsplit]
      have hlt : done.length < m.nodes.length := (List.getElem?_eq_some_iff.mp hnode).1
      have hlt' : done.length < visited.length := by rw [hv.size]; exact hlt
      have hid : root.id = done.length := h.indexed.ids _ root hnode
      have hflag : visited[done.length]? = some visited[done.length] :=
        List.getElem?_eq_getElem hlt'
      have hiff := hv.flags done.length hlt
      have hsplit' : m.nodes = (done ++ [root]) ++ rest := by simp [hsplit]
      have hlen : (done ++ [root]).length = done.length + 1 := by simp
      rw [fuseFrom, hid, intAt_natCast, hflag]
      cases hb : visited[done.length] with
      | true =>
          rw [hflag, hb] at hiff
          obtain ⟨hf', hv'⟩ := hf.pass hv (hiff.mp rfl)
          rw [← hlen] at hf' hv'
          exact ih _ _ _ hsplit' hv' hf'
      | false =>
          rw [hflag, hb] at hiff
          have hlead : leader (Feeds m) done.length = done.length := by
            have hle := leader_le (ReflTransGen.refl (r := Feeds m) (a := done.length))
            have hnot : ¬ leader (Feeds m) done.length < done.length := by simpa using hiff
            omega
          obtain ⟨chain, hgrow, hled, hv'⟩ := growGroup_ledBy h hv hlt hlead
          simp only [hgrow]
          rw [← hlen] at hv'
          exact ih _ _ _ hsplit' hv' (hlen ▸ hf.add hled)

/-- **The groups of an accepted module.**  The pass succeeds; its groups are
the sets of nodes with a common leader, in the order of the leaders. -/
theorem fuse_groups (h : Accepted m) :
    ∃ groups, m.fuse = some groups ∧ Fused m m.nodes.length groups := by
  refine fuseFrom_fused h m.nodes [] _ [] rfl ⟨by simp, ?_⟩
    ⟨[], by simp, .nil, by simp, fun v _ hlt => absurd hlt (Nat.not_lt_zero _)⟩
  intro v hv
  simp [hv]

end Gpuforge.Compiler

import Gpuforge.CompilePipeline

/-!
# Fusion partitions the nodes

On every module with positions as ids, also one with cycles, the pass returns chains:
each node after the first of its group is elementwise and the only user of the one
before, and a group ends only where its last node has no such user, or one that a
group has taken already.  Every id is in exactly one group (`fuse_partitions`), and
the pipeline makes one launch for each group.
-/

namespace Gpuforge.Compiler

open BoundedLoop

variable {α : Type} {m : Module α}

/-! ## One group -/

/-- A group from `r` between turns; `before` are the flags when it was started. -/
structure Grouping (m : Module α) (before : List Bool) (r : Nat) (st : Chain)
    (path : List Nat) (last : Nat) : Prop where
  root : r ∈ path
  nodes : st.nodes = path.map Int.ofNat
  current : st.current = last
  ends : path.getLast? = some last
  size : st.visited.length = m.nodes.length
  nodup : path.Nodup
  fresh : ∀ v ∈ path, v < m.nodes.length ∧ before[v]? ≠ some true
  flags : ∀ v < m.nodes.length, st.visited[v]? = some true ↔
    before[v]? = some true ∨ v ∈ path
  chained : path.IsChain (Feeds m)

/-- A new group. -/
theorem grouping_start {before : List Bool} {r : Nat} (hsize : before.length = m.nodes.length)
    (hr : r < m.nodes.length) (hfree : before[r]? ≠ some true) :
    Grouping m before r ⟨[(r : Int)], before.set r true, r⟩ [r] r := by
  refine ⟨by simp, rfl, rfl, rfl, by simpa using hsize, by simp, ?_, ?_, .singleton r⟩
  · intro v hv
    rw [List.mem_singleton.mp hv]
    exact ⟨hr, hfree⟩
  · intro v hv
    by_cases hvr : v = r
    · simp [hvr, hsize, hr]
    · rw [List.getElem?_set_ne (Ne.symm hvr)]
      simp [hvr]

/-- The node that the last one feeds joins. -/
theorem Grouping.extend {before : List Bool} {r last u : Nat} {st : Chain} {path : List Nat}
    (hg : Grouping m before r st path last) (hfeeds : Feeds m last u)
    (hfree : st.visited[u]? ≠ some true) :
    Grouping m before r ⟨st.nodes ++ [(u : Int)], st.visited.set u true, u⟩ (path ++ [u]) u := by
  obtain ⟨node, hnode, _⟩ := hfeeds.2
  have hu : u < m.nodes.length := (List.getElem?_eq_some_iff.mp hnode).1
  have hnew : before[u]? ≠ some true ∧ u ∉ path := by
    rw [← not_or, ← hg.flags u hu]
    exact hfree
  refine ⟨List.mem_append_left _ hg.root, by simp [hg.nodes], rfl, by simp,
    by simpa using hg.size, ?_, ?_, ?_, ?_⟩
  · rw [List.nodup_append]
    refine ⟨hg.nodup, by simp, ?_⟩
    intro v hv w hw
    rw [List.mem_singleton.mp hw]
    exact fun heq => hnew.2 (heq ▸ hv)
  · intro v hv
    rcases List.mem_append.mp hv with hold | hlast
    · exact hg.fresh v hold
    · rw [List.mem_singleton.mp hlast]
      exact ⟨hu, hnew.1⟩
  · intro v hv
    by_cases hvu : v = u
    · simp [hvu, hg.size, hu]
    · rw [List.getElem?_set_ne (Ne.symm hvu), hg.flags v hv]
      simp [hvu]
  · rw [List.isChain_append]
    refine ⟨hg.chained, .singleton u, ?_⟩
    intro v hv w hw
    rw [hg.ends, Option.mem_some_iff] at hv
    rw [List.head?_cons, Option.mem_some_iff] at hw
    rw [← hv, ← hw]
    exact hfeeds

/-- **Growing a group** ends, with a chain that cannot be made longer. -/
theorem growGroup_grouping {before : List Bool} {r : Nat} (h : m.Indexed)
    (hsize : before.length = m.nodes.length) (hr : r < m.nodes.length)
    (hfree : before[r]? ≠ some true) :
    ∃ chain path last, growGroup m r before = some chain ∧
      Grouping m before r chain path last ∧
      ∀ u, Feeds m last u → chain.visited[u]? = some true := by
  exact growGroup_rule h (fun _ _ _ hg => ⟨hg.current, hg.size⟩) (grouping_start hsize hr hfree)
    (fun _ _ _ _ hg hfeeds hfree => hg.extend hfeeds hfree)

/-! ## The scan -/

/-- The groups after the scan over the first `k` nodes, as lists of positions. -/
structure Scanned (m : Module α) (k : Nat) (visited : List Bool) (paths : List (List Nat)) :
    Prop where
  size : visited.length = m.nodes.length
  flags : ∀ v < m.nodes.length, visited[v]? = some true ↔ v ∈ paths.flatten
  below : ∀ v < k, v ∈ paths.flatten
  inRange : ∀ v ∈ paths.flatten, v < m.nodes.length
  nodup : paths.flatten.Nodup
  nonempty : ∀ path ∈ paths, path ≠ []
  chained : ∀ path ∈ paths, path.IsChain (Feeds m)
  stops : ∀ (i : Nat) path last, paths[i]? = some path → path.getLast? = some last →
    ∀ u, Feeds m last u → u ∈ (paths.take (i + 1)).flatten

/-- The scan passes a visited node. -/
theorem Scanned.pass {k : Nat} {visited : List Bool} {paths : List (List Nat)}
    (hs : Scanned m k visited paths) (hk : k < m.nodes.length)
    (hvisited : visited[k]? = some true) : Scanned m (k + 1) visited paths := by
  refine ⟨hs.size, hs.flags, ?_, hs.inRange, hs.nodup, hs.nonempty, hs.chained, hs.stops⟩
  intro v hv
  rcases Nat.lt_succ_iff_lt_or_eq.mp hv with hlt | rfl
  · exact hs.below v hlt
  · exact (hs.flags v hk).mp hvisited

/-- The scan adds the group of an unvisited node. -/
theorem Scanned.add {k last : Nat} {visited : List Bool} {paths : List (List Nat)}
    {chain : Chain} {path : List Nat} (hs : Scanned m k visited paths)
    (hg : Grouping m visited k chain path last)
    (hstop : ∀ u, Feeds m last u → chain.visited[u]? = some true) :
    Scanned m (k + 1) chain.visited (paths ++ [path]) := by
  have hflat : (paths ++ [path]).flatten = paths.flatten ++ path := by simp
  have hflags : ∀ v < m.nodes.length, chain.visited[v]? = some true ↔
      v ∈ (paths ++ [path]).flatten := by
    intro v hv
    rw [hg.flags v hv, hs.flags v hv, hflat, List.mem_append]
  refine ⟨hg.size, hflags, ?_, ?_, ?_, ?_, ?_, ?_⟩
  · intro v hv
    rw [hflat, List.mem_append]
    rcases Nat.lt_succ_iff_lt_or_eq.mp hv with hlt | rfl
    · exact Or.inl (hs.below v hlt)
    · exact Or.inr hg.root
  · intro v hv
    rw [hflat] at hv
    rcases List.mem_append.mp hv with hold | hnew
    · exact hs.inRange v hold
    · exact (hg.fresh v hnew).1
  · rw [hflat, List.nodup_append]
    refine ⟨hs.nodup, hg.nodup, ?_⟩
    intro v hold w hnew heq
    subst heq
    exact (hg.fresh v hnew).2 ((hs.flags v (hs.inRange v hold)).mpr hold)
  · intro path' hpath'
    rcases List.mem_append.mp hpath' with hold | hnew
    · exact hs.nonempty path' hold
    · rw [List.mem_singleton.mp hnew]
      exact List.ne_nil_of_mem hg.root
  · intro path' hpath'
    rcases List.mem_append.mp hpath' with hold | hnew
    · exact hs.chained path' hold
    · rw [List.mem_singleton.mp hnew]
      exact hg.chained
  · intro i path' last' hpath' hlast' u hfeeds
    by_cases hi : i < paths.length
    · rw [List.getElem?_append_left hi] at hpath'
      rw [List.take_append_of_le_length (by omega)]
      exact hs.stops i path' last' hpath' hlast' u hfeeds
    · have hlen := (List.getElem?_eq_some_iff.mp hpath').1
      rw [List.length_append, List.length_singleton] at hlen
      have hieq : i = paths.length := by omega
      subst hieq
      rw [List.getElem?_concat_length, Option.some.injEq] at hpath'
      subst hpath'
      rw [hg.ends, Option.some.injEq] at hlast'
      subst hlast'
      rw [List.take_of_length_le (by simp)]
      obtain ⟨node, hnode, _⟩ := hfeeds.2
      exact (hflags u (List.getElem?_eq_some_iff.mp hnode).1).mp (hstop u hfeeds)

/-- The scan from a node on. -/
theorem fuseFrom_scanned (h : m.Indexed) : ∀ (rest done : List (Node α)) (visited : List Bool)
    (groups : List FusionGroup) (paths : List (List Nat)), m.nodes = done ++ rest →
    groups.map FusionGroup.nodes = paths.map (List.map Int.ofNat) →
    Scanned m done.length visited paths →
    ∃ groups' visited' paths', fuseFrom m rest visited groups = some groups' ∧
      groups'.map FusionGroup.nodes = paths'.map (List.map Int.ofNat) ∧
      Scanned m m.nodes.length visited' paths' := by
  intro rest
  induction rest with
  | nil =>
      intro done visited groups paths hsplit hpaths hs
      have hlen : m.nodes.length = done.length := by rw [hsplit, List.append_nil]
      exact ⟨groups, visited, paths, rfl, hpaths, hlen ▸ hs⟩
  | cons root rest ih =>
      intro done visited groups paths hsplit hpaths hs
      have hnode : m.nodes[done.length]? = some root := by simp [hsplit]
      have hlt : done.length < m.nodes.length := (List.getElem?_eq_some_iff.mp hnode).1
      have hlt' : done.length < visited.length := by rw [hs.size]; exact hlt
      have hid : root.id = done.length := h.ids _ root hnode
      have hflag : visited[done.length]? = some visited[done.length] :=
        List.getElem?_eq_getElem hlt'
      have hsplit' : m.nodes = (done ++ [root]) ++ rest := by simp [hsplit]
      have hlen : (done ++ [root]).length = done.length + 1 := by simp
      rw [fuseFrom, hid, intAt_natCast, hflag]
      cases hb : visited[done.length] with
      | true =>
          rw [hb] at hflag
          have hs' := hs.pass hlt hflag
          rw [← hlen] at hs'
          exact ih _ _ _ _ hsplit' hpaths hs'
      | false =>
          rw [hb] at hflag
          obtain ⟨chain, path, last, hgrow, hg, hstop⟩ :=
            growGroup_grouping h hs.size hlt (by rw [hflag]; simp)
          simp only [hgrow]
          have hs' := hs.add hg hstop
          rw [← hlen] at hs'
          refine ih _ _ _ _ hsplit' ?_ hs'
          rw [List.map_append, List.map_append, hpaths]
          simp [hg.nodes]

/-! ## The groups -/

/-- **A partition into chains.**  Every id is in one group, once; a node follows
another as its only user, and is elementwise; and a group ends where there is no
such user, or it is in this group or an earlier one. -/
structure Partitioned (m : Module α) (groups : List FusionGroup) : Prop where
  once : (groups.flatMap FusionGroup.nodes).Perm (m.nodes.map Node.id)
  nonempty : ∀ group ∈ groups, group.nodes ≠ []
  chained : ∀ group ∈ groups, ∀ (k : Nat) (u v : Int), group.nodes[k]? = some u →
    group.nodes[k + 1]? = some v →
    m.users u = [v] ∧ ∃ node, m.node v = some node ∧ isElementwise node.op = true
  maximal : ∀ (i : Nat) (group : FusionGroup) (last : Int), groups[i]? = some group →
    group.nodes.getLast? = some last → ∀ v node, m.users last = [v] → m.node v = some node →
      isElementwise node.op = true →
      v ∈ group.nodes ∨ ∃ j < i, ∃ earlier, groups[j]? = some earlier ∧ v ∈ earlier.nodes

/-- The pass returns a partition. -/
theorem fuse_partitioned (h : m.Indexed) :
    ∃ groups, m.fuse = some groups ∧ Partitioned m groups := by
  obtain ⟨groups, visited, paths, hfuse, hpaths, hs⟩ := fuseFrom_scanned h m.nodes []
    (List.replicate m.nodes.length false) [] [] rfl rfl
    ⟨by simp, fun v hv => by simp [hv], by simp, by simp, by simp, by simp, by simp, by simp⟩
  -- groups and paths, position by position
  have hpath : ∀ (i : Nat) (group : FusionGroup), groups[i]? = some group →
      ∃ path, paths[i]? = some path ∧ group.nodes = path.map Int.ofNat := by
    intro i group hgroup
    have hread : (groups.map FusionGroup.nodes)[i]? = some group.nodes := by
      rw [List.getElem?_map, hgroup, Option.map_some]
    rw [hpaths, List.getElem?_map] at hread
    obtain ⟨path, hpath, heq⟩ := Option.map_eq_some_iff.mp hread
    exact ⟨path, hpath, heq.symm⟩
  have hgroup : ∀ (i : Nat) (path : List Nat), paths[i]? = some path →
      ∃ group, groups[i]? = some group ∧ group.nodes = path.map Int.ofNat := by
    intro i path hpath
    have hread : (paths.map (List.map Int.ofNat))[i]? = some (path.map Int.ofNat) := by
      rw [List.getElem?_map, hpath, Option.map_some]
    rw [← hpaths, List.getElem?_map] at hread
    exact Option.map_eq_some_iff.mp hread
  refine ⟨groups, hfuse, ?_, ?_, ?_, ?_⟩
  · have hids : m.nodes.map Node.id = (List.range m.nodes.length).map Int.ofNat := by
      apply List.ext_getElem?
      intro v
      rw [List.getElem?_map, List.getElem?_map]
      by_cases hv : v < m.nodes.length
      · have hid := h.ids v _ (List.getElem?_eq_getElem hv)
        simp [hv, hid]
      · rw [List.getElem?_eq_none (by omega), List.getElem?_eq_none (by simpa using hv)]
        rfl
    have hflat : groups.flatMap FusionGroup.nodes = paths.flatten.map Int.ofNat := by
      rw [List.flatMap_def, hpaths, List.map_flatten]
    rw [hids, hflat]
    refine List.Perm.map _ ((List.perm_ext_iff_of_nodup hs.nodup List.nodup_range).mpr ?_)
    intro v
    rw [List.mem_range]
    exact ⟨hs.inRange v, hs.below v⟩
  · intro group hmem
    obtain ⟨i, hi⟩ := List.mem_iff_getElem?.mp hmem
    obtain ⟨path, hpath, hnodes⟩ := hpath i group hi
    rw [hnodes]
    simpa using hs.nonempty path (List.mem_of_getElem? hpath)
  · intro group hmem k u v hu hv
    obtain ⟨i, hi⟩ := List.mem_iff_getElem?.mp hmem
    obtain ⟨path, hpath, hnodes⟩ := hpath i group hi
    rw [hnodes, List.getElem?_map] at hu hv
    obtain ⟨u, hread, rfl⟩ := Option.map_eq_some_iff.mp hu
    obtain ⟨v, hread', rfl⟩ := Option.map_eq_some_iff.mp hv
    obtain ⟨hk, rfl⟩ := List.getElem?_eq_some_iff.mp hread
    obtain ⟨hk', rfl⟩ := List.getElem?_eq_some_iff.mp hread'
    obtain ⟨husers, node, hnode, hop⟩ :=
      List.isChain_iff_getElem.mp (hs.chained path (List.mem_of_getElem? hpath)) k hk'
    exact ⟨husers, node, (intAt_natCast _ _).trans hnode, hop⟩
  · intro i group last hi hlast v node husers hnode hop
    obtain ⟨path, hpath, hnodes⟩ := hpath i group hi
    rw [hnodes, List.getLast?_map] at hlast
    obtain ⟨last, hends, rfl⟩ := Option.map_eq_some_iff.mp hlast
    obtain ⟨v, rfl, hread⟩ := intAt_eq_some hnode
    have hin := hs.stops i path last hpath hends v ⟨husers, node, hread, hop⟩
    obtain ⟨path', hmem, hv⟩ := List.mem_flatten.mp hin
    obtain ⟨j, hj⟩ := List.mem_iff_getElem?.mp hmem
    rw [List.getElem?_take] at hj
    split at hj
    · rename_i hlt
      obtain ⟨group', hgroup', hnodes'⟩ := hgroup j path' hj
      have hmem' : (v : Int) ∈ group'.nodes := by
        rw [hnodes']
        exact List.mem_map_of_mem hv
      rcases Nat.lt_succ_iff_lt_or_eq.mp hlt with hless | rfl
      · exact Or.inr ⟨j, hless, group', hgroup', hmem'⟩
      · rw [hi, Option.some.injEq] at hgroup'
        exact Or.inl (hgroup' ▸ hmem')
    · cases hj

/-! ## The launches -/

variable {δ : Type}

/-- The launches are those of the groups, one for each, in order. -/
def LaunchedOnce [Zero δ] (p : CompilePipeline δ) (d : Doubles δ) (m : Module α)
    (groups : List FusionGroup) (launches : List (LaunchPlan δ)) : Prop :=
  List.Forall₂ (fun group launch => ∃ root, CompilePipeline.Rooted m group root ∧
    launch = p.launch d group root) groups launches

/-- The loop over groups with nodes makes one launch for each. -/
theorem plan_launched_once [Zero δ] (p : CompilePipeline δ) (d : Doubles δ) (m : Module α)
    (groups : List FusionGroup) (hne : ∀ group ∈ groups, group.nodes ≠ [])
    (hrooted : CompilePipeline.AllRooted m groups) (report : CompileReport δ) :
    ∃ report' launches, p.plan d m groups report = some report' ∧
      report'.launches = report.launches ++ launches ∧ LaunchedOnce p d m groups launches := by
  induction groups generalizing report with
  | nil => exact ⟨report, [], rfl, by simp, .nil⟩
  | cons group rest ih =>
      have hrest : CompilePipeline.AllRooted m rest :=
        fun group' hgroup' => hrooted group' (List.mem_cons_of_mem _ hgroup')
      cases hnodes : group.nodes with
      | nil => exact absurd hnodes (hne group List.mem_cons_self)
      | cons front later =>
          obtain ⟨root, hroot⟩ := hrooted group List.mem_cons_self front later hnodes
          obtain ⟨report', launches, hplan, hlaunches, hall⟩ :=
            ih (fun group' hgroup' => hne group' (List.mem_cons_of_mem _ hgroup')) hrest _
          refine ⟨report', p.launch d group root :: launches, ?_, ?_, ?_⟩
          · rw [CompilePipeline.plan, hnodes]
            simp only [hroot]
            exact hplan
          · rw [hlaunches, List.append_assoc, List.singleton_append]
          · exact .cons ⟨root, ⟨front, later, hnodes, hroot⟩, rfl⟩ hall

/-- The groups of a partition have first nodes. -/
theorem Partitioned.allRooted {groups : List FusionGroup} (h : m.Indexed)
    (hp : Partitioned m groups) : CompilePipeline.AllRooted m groups := by
  intro group hgroup front rest hnodes
  have hin : front ∈ m.nodes.map Node.id := by
    refine hp.once.mem_iff.mp (List.mem_flatMap.mpr ⟨group, hgroup, ?_⟩)
    rw [hnodes]
    exact List.mem_cons_self
  obtain ⟨node, hmem, rfl⟩ := List.mem_map.mp hin
  obtain ⟨v, hnode⟩ := List.mem_iff_getElem?.mp hmem
  refine ⟨node, ?_⟩
  rw [h.ids v node hnode, Module.node_natCast, hnode]

/-- With or without fusion, the groups of the pipeline partition the nodes. -/
theorem groups_once (p : CompilePipeline δ) (h : m.Indexed) :
    ∃ groups, p.groups m = some groups ∧
      (groups.flatMap FusionGroup.nodes).Perm (m.nodes.map Node.id) ∧
      (∀ group ∈ groups, group.nodes ≠ []) ∧ CompilePipeline.AllRooted m groups := by
  unfold CompilePipeline.groups
  cases p.fusion with
  | true =>
      obtain ⟨groups, hfuse, hp⟩ := fuse_partitioned h
      exact ⟨groups, hfuse, hp.once, hp.nonempty, hp.allRooted h⟩
  | false =>
      refine ⟨_, rfl, ?_, ?_, ?_⟩
      · rw [List.flatMap_map, List.map_eq_flatMap]
      · intro group hgroup
        obtain ⟨node, _, rfl⟩ := List.mem_map.mp hgroup
        simp
      · intro group hgroup front rest hnodes
        obtain ⟨node, hmem, rfl⟩ := List.mem_map.mp hgroup
        obtain ⟨v, hnode⟩ := List.mem_iff_getElem?.mp hmem
        cases hnodes
        refine ⟨node, ?_⟩
        rw [h.ids v node hnode, Module.node_natCast, hnode]

/-- **Fusion partitions the nodes into maximal chains.**  On every module with
positions as ids the pass terminates with a partition, and the loop of the pipeline
makes one launch for each group.  So a run that gets past `validate` covers every
node of the module it leaves with one launch. -/
theorem fuse_partitions (h : m.Indexed) :
    (∃ groups, m.fuse = some groups ∧ Partitioned m groups ∧
      ∀ (δ : Type) [Zero δ] (p : CompilePipeline δ) (d : Doubles δ), ∃ report,
        p.plan d m groups {} = some report ∧ LaunchedOnce p d m groups report.launches) ∧
      ∀ (δ : Type) [Zero δ] (p : CompilePipeline δ) (s : Scalar α) (d : Doubles δ),
        validate m = .ok [] → ∃ m' groups report, p.run s d m = some (report, m') ∧
          m'.nodes.length = m.nodes.length ∧
          (groups.flatMap FusionGroup.nodes).Perm (m'.nodes.map Node.id) ∧
          LaunchedOnce p d m' groups report.launches := by
  constructor
  · obtain ⟨groups, hfuse, hp⟩ := fuse_partitioned h
    refine ⟨groups, hfuse, hp, ?_⟩
    intro δ _ p d
    obtain ⟨report, launches, hplan, hlaunches, honce⟩ :=
      plan_launched_once p d m groups hp.nonempty (hp.allRooted h) {}
    rw [List.nil_append] at hlaunches
    exact ⟨report, hplan, hlaunches ▸ honce⟩
  · intro δ _ p s d hvalid
    have haccepted : Accepted m := ⟨h, hvalid⟩
    obtain ⟨folded, groups, report, hfold, hf, hrewritten, hgroups, hplan, hrun, _⟩ :=
      p.run_accepted s d haccepted
    obtain ⟨groups', hgroups', honce, hne, hrooted⟩ := groups_once p hrewritten.indexed
    rw [hgroups, Option.some.injEq] at hgroups'
    subst hgroups'
    obtain ⟨report', launches, hplan', hlaunches, hall⟩ :=
      plan_launched_once p d (p.rewrite folded) groups hne hrooted {}
    rw [hplan, Option.some.injEq] at hplan'
    subst hplan'
    rw [List.nil_append] at hlaunches
    refine ⟨p.rewrite folded, groups, report, hrun, ?_, honce, hlaunches ▸ hall⟩
    rw [← hf.size, CompilePipeline.rewrite, Module.canonicalize]
    split
    · exact List.length_map _
    · rfl

/-- Two `Relu`s that use each other are one group. -/
theorem fuse_partitions_example :
    let shape : Shape := { dims := [2] }
    let m : Module Int :=
      ⟨[⟨0, .relu, [1], ⟨0, shape, "v0"⟩, [], []⟩,
        ⟨1, .relu, [0], ⟨1, shape, "v1"⟩, [], []⟩], []⟩
    Partitioned m [⟨[0, 1], "fused_0", 2048⟩] := by
  intro shape m
  obtain ⟨⟨groups, hfuse, hp, _⟩, _⟩ :=
    fuse_partitions (m := m) (Module.indexed_of_ids rfl (show 2 ≤ 2 ^ 31 by omega))
  have hgroups : m.fuse = some [⟨[0, 1], "fused_0", 2048⟩] := by decide +kernel
  rw [hfuse, Option.some.injEq] at hgroups
  exact hgroups ▸ hp

end Gpuforge.Compiler

import Gpuforge.FusionOrder

/-!
# Outputs inside of groups

A group becomes one kernel that writes the value of its last node.  The pass counts
the nodes that use a value, so no node outside of a group needs another value of it;
but it does not look at the outputs.  A group swallows an output that has a single
elementwise user, if the group of that user runs through it
(`fuse_hides_nothing_iff`).
-/

namespace Gpuforge.Compiler

open ForwardChains Relation

variable {α : Type} {m : Module α}

/-- Of a group, only the last node is an output or used by a node outside. -/
def HidesNothing (m : Module α) (groups : List FusionGroup) : Prop :=
  ∀ group ∈ groups, ∀ v ∈ group.nodes, group.nodes.getLast? ≠ some v →
    v ∉ m.outputs ∧ ∀ node ∈ m.nodes, v ∈ node.inputs → node.id ∈ group.nodes

/-- The value has one user, an elementwise node, and of all chains of single
elementwise users into that node, the one that starts first runs through it. -/
def Swallowed (m : Module α) (u : Nat) : Prop :=
  ∃ v, Feeds m u v ∧ ∃ w, ReflTransGen (Feeds m) w u ∧
    ∀ w', ReflTransGen (Feeds m) w' v → w ≤ w'

/-- A value is swallowed if it has the leader of its user. -/
theorem swallowed_iff (m : Module α) (u : Nat) :
    Swallowed m u ↔ ∃ v, Feeds m u v ∧ leader (Feeds m) v = leader (Feeds m) u := by
  constructor
  · intro hswallowed
    obtain ⟨v, hfeeds, w, hw, hleast⟩ := hswallowed
    refine ⟨v, hfeeds, Nat.le_antisymm (leader_le_leader (.single hfeeds)) ?_⟩
    exact Nat.le_trans (leader_le hw) (hleast _ (leader_reaches (Feeds m) v))
  · intro hled
    obtain ⟨v, hfeeds, hsame⟩ := hled
    refine ⟨v, hfeeds, leader (Feeds m) u, leader_reaches (Feeds m) u, ?_⟩
    intro w' hw'
    rw [← hsame]
    exact leader_le hw'

/-- A member before another one of its group feeds a member. -/
theorem feeds_of_before (h : Accepted m) {u v : Nat}
    (hsame : leader (Feeds m) u = leader (Feeds m) v) (hlt : u < v) :
    ∃ x, Feeds m u x ∧ leader (Feeds m) x = leader (Feeds m) u := by
  have hru := leader_reaches (Feeds m) u
  have hrv := leader_reaches (Feeds m) v
  rw [← hsame] at hrv
  rcases h.feeds_forward.comparable hru hrv with huv | hvu
  · rcases ReflTransGen.cases_head huv with heq | ⟨x, hx, hxv⟩
    · omega
    · refine ⟨x, hx, Nat.le_antisymm (leader_le_leader (.single hx)) ?_⟩
      rw [hsame]
      exact leader_le_leader hxv
  · have hle := h.feeds_forward.le hvu
    omega

/-- The last node of a group comes after the others. -/
theorem LedBy.le_last {r l v : Nat} {nodes : List Int} (hled : LedBy m r nodes)
    (hlast : nodes.getLast? = some (l : Int)) (hv : (v : Int) ∈ nodes) : v ≤ l := by
  by_contra hgt
  have hl : (l : Int) ∈ nodes := List.mem_of_getLast? hlast
  obtain ⟨a, b, hab, ha, hb⟩ := hled.earlier hl hv (by omega)
  obtain ⟨path, rfl, hsorted, _⟩ := hled
  rw [List.getLast?_eq_getElem?] at hlast
  have hb' := (List.getElem?_eq_some_iff.mp hb).1
  have hnodup : (path.map Int.ofNat).Nodup :=
    (hsorted.imp fun hlt => Nat.ne_of_lt hlt).map _ fun _ _ hne heq => hne (Int.ofNat.inj heq)
  obtain ⟨ha', haeq⟩ := List.getElem?_eq_some_iff.mp ha
  obtain ⟨hl', hleq⟩ := List.getElem?_eq_some_iff.mp hlast
  have hpos := (List.Nodup.getElem_inj_iff hnodup).mp (haeq.trans hleq.symm)
  omega

/-- A member is not the last of its group exactly if it is swallowed. -/
theorem LedBy.not_last_iff (h : Accepted m) {r u : Nat} {nodes : List Int}
    (hled : LedBy m r nodes) (hu : (u : Int) ∈ nodes) :
    nodes.getLast? ≠ some (u : Int) ↔ Swallowed m u := by
  obtain ⟨hulen, hur⟩ := (hled.mem_iff u).mp hu
  rw [swallowed_iff]
  constructor
  · intro hne
    cases hlast : nodes.getLast? with
    | none =>
        rw [List.getLast?_eq_none_iff.mp hlast] at hu
        cases hu
    | some last =>
        have hmem := List.mem_of_getLast? hlast
        obtain ⟨path, hpath, _, _⟩ := id hled
        rw [hpath] at hmem
        obtain ⟨l, _, rfl⟩ := List.mem_map.mp hmem
        have hle := hled.le_last hlast hu
        have hlr := ((hled.mem_iff l).mp (List.mem_of_getLast? hlast)).2
        have hneq : u ≠ l := by
          intro heq
          rw [hlast, heq] at hne
          exact hne rfl
        exact feeds_of_before h (hur.trans hlr.symm) (by omega)
  · intro hswallowed hlast
    obtain ⟨v, hfeeds, hsame⟩ := hswallowed
    have hlt := h.feeds_forward.larger hfeeds
    obtain ⟨node, hnode, _⟩ := hfeeds.2
    have hv : (v : Int) ∈ nodes :=
      (hled.mem_iff v).mpr ⟨(List.getElem?_eq_some_iff.mp hnode).1, hsame.trans hur⟩
    have hle := hled.le_last hlast hv
    omega

/-- **When groups hide no output.**  On every accepted module, the nodes of a group
other than the last are neither outputs nor used outside of the group if and only if
no output is swallowed. -/
theorem fuse_hides_nothing_iff (h : Accepted m) :
    ∃ groups, m.fuse = some groups ∧
      (HidesNothing m groups ↔ ∀ u : Nat, (u : Int) ∈ m.outputs → ¬ Swallowed m u) := by
  obtain ⟨groups, hfuse, hf⟩ := fuse_groups h
  obtain ⟨roots, _, hroot, hall⟩ := hf.by_position
  refine ⟨groups, hfuse, ?_⟩
  constructor
  · intro hhides u hu hswallowed
    obtain ⟨v, hfeeds, _⟩ := id hswallowed
    have hlt := h.feeds_forward.larger hfeeds
    obtain ⟨node, hnode, _⟩ := hfeeds.2
    have hulen : u < m.nodes.length :=
      Nat.lt_trans hlt (List.getElem?_eq_some_iff.mp hnode).1
    obtain ⟨i, group, hi, _, hled⟩ := hall u hulen
    have hmem : (u : Int) ∈ group.nodes := (hled.mem_iff u).mpr ⟨hulen, rfl⟩
    exact (hhides group (List.mem_of_getElem? hi) u hmem
      ((hled.not_last_iff h hmem).mpr hswallowed)).1 hu
  · intro hnone group hgroup member hmember hlast
    obtain ⟨i, hi⟩ := List.mem_iff_getElem?.mp hgroup
    obtain ⟨r, _, hled⟩ := hroot i group hi
    obtain ⟨path, hpath, _, _⟩ := id hled
    rw [hpath] at hmember
    obtain ⟨u, _, rfl⟩ := List.mem_map.mp hmember
    rw [← hpath] at hmember
    have hswallowed := (hled.not_last_iff h hmember).mp hlast
    refine ⟨fun hout => hnone u hout hswallowed, ?_⟩
    obtain ⟨x, hfeeds, hsame⟩ := (swallowed_iff m u).mp hswallowed
    intro node hnode hin
    obtain ⟨w, hw⟩ := List.mem_iff_getElem?.mp hnode
    have huser : node.id ∈ m.users u :=
      (mem_users h.indexed).mpr ⟨w, node, h.indexed.ids w node hw, hw, hin⟩
    rw [hfeeds.1, List.mem_singleton] at huser
    obtain ⟨user, hx, _⟩ := hfeeds.2
    rw [huser]
    refine (hled.mem_iff x).mpr ⟨(List.getElem?_eq_some_iff.mp hx).1, ?_⟩
    exact hsame.trans ((hled.mem_iff u).mp hmember).2

/-- Without an output in the middle of a chain nothing is hidden. -/
theorem fuse_hides_nothing_iff_example :
    let shape : Shape := { dims := [2] }
    let m : Module Int :=
      ⟨[⟨0, .parameter, [], ⟨0, shape, "v0"⟩, [], []⟩,
        ⟨1, .relu, [0], ⟨1, shape, "v1"⟩, [], []⟩], [1]⟩
    ∃ groups, m.fuse = some groups ∧ HidesNothing m groups := by
  intro shape m
  have h : Accepted m :=
    ⟨Module.indexed_of_ids rfl (show 2 ≤ 2 ^ 31 by omega), by decide +kernel⟩
  obtain ⟨groups, hfuse, hiff⟩ := fuse_hides_nothing_iff h
  have husers : m.users (1 : Nat) = [] := by decide
  refine ⟨groups, hfuse, hiff.mpr fun u hu hswallowed => ?_⟩
  obtain ⟨v, hfeeds, _⟩ := hswallowed
  obtain rfl : u = 1 := Int.ofNat.inj (List.mem_singleton.mp hu)
  have hsingle := hfeeds.1
  rw [husers] at hsingle
  cases hsingle

/-- **A group hides an output.**  `Relu` is an output and has a `Gelu` as its only
user; the one group of the three nodes writes the value of `Gelu` only. -/
theorem fuse_hides_output :
    let shape : Shape := { dims := [2] }
    let m : Module Int :=
      ⟨[⟨0, .parameter, [], ⟨0, shape, "v0"⟩, [], []⟩,
        ⟨1, .relu, [0], ⟨1, shape, "v1"⟩, [], []⟩,
        ⟨2, .gelu, [1], ⟨2, shape, "v2"⟩, [], []⟩], [1, 2]⟩
    validate m = .ok [] ∧ (∀ out ∈ m.outputs, 0 ≤ out ∧ out < m.nodes.length) ∧
      m.fuse = some [⟨[0, 1, 2], "fused_0", 3072⟩] ∧
      ∃ groups, m.fuse = some groups ∧ ¬ HidesNothing m groups := by
  intro shape m
  have hfuse : m.fuse = some [⟨[0, 1, 2], "fused_0", 3072⟩] := by decide +kernel
  refine ⟨by decide +kernel, by decide, hfuse, _, hfuse, ?_⟩
  intro hhides
  have hone := hhides ⟨[0, 1, 2], "fused_0", 3072⟩ (List.mem_singleton_self _) 1
    (by decide) (by decide)
  exact hone.1 (by decide)

end Gpuforge.Compiler

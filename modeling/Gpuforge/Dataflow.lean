import Mathlib.Data.List.Induction

/-!
# Values of an acyclic graph

A graph in topological order is a list of nodes, each of which reads the values
of earlier nodes.  One forward sweep computes all values; on a forward graph the
result is the solution of the node equations (`evaluate_eq`).

Two such graphs compute the same values along a renaming if the renaming
carries each node, with its arguments, to a node of the same meaning
(`simulation`).
-/

namespace Dataflow

universe u v w

variable {ν : Type u} {μ : Type w} {β : Type v}

/-! ## The sweep -/

/-- One value per node, in order; each is computed from the values before it. -/
def sweep (value : List β → ν → β) (nodes : List ν) : List β :=
  nodes.foldl (fun done node => done ++ [value done node]) []

/-- The last node is evaluated last. -/
theorem sweep_concat (value : List β → ν → β) (nodes : List ν) (node : ν) :
    sweep value (nodes ++ [node]) =
      sweep value nodes ++ [value (sweep value nodes) node] := by
  simp [sweep]

/-- Every node gets a value. -/
@[simp] theorem length_sweep (value : List β → ν → β) (nodes : List ν) :
    (sweep value nodes).length = nodes.length := by
  induction nodes using List.reverseRecOn with
  | nil => rfl
  | append_singleton nodes node ih => simp [sweep_concat, ih]

/-- Later nodes do not change earlier values. -/
theorem sweep_append (value : List β → ν → β) (nodes later : List ν) :
    ∃ rest, sweep value (nodes ++ later) = sweep value nodes ++ rest := by
  induction later using List.reverseRecOn with
  | nil => exact ⟨[], by simp⟩
  | append_singleton later node ih =>
      obtain ⟨rest, hrest⟩ := ih
      refine ⟨rest ++ [value (sweep value (nodes ++ later)) node], ?_⟩
      rw [← List.append_assoc, sweep_concat, hrest, List.append_assoc]

/-- The values of a prefix of the graph. -/
theorem take_sweep (value : List β → ν → β) (nodes : List ν) (k : Nat) :
    (sweep value nodes).take k = sweep value (nodes.take k) := by
  obtain ⟨rest, hrest⟩ := sweep_append value (nodes.take k) (nodes.drop k)
  rw [List.take_append_drop] at hrest
  by_cases hk : k ≤ nodes.length
  · rw [hrest]
    exact List.take_left' (by simp [hk])
  · rw [List.take_of_length_le (by rw [length_sweep]; omega),
      List.take_of_length_le (by omega)]

/-- The value of a node is computed from the values before it. -/
theorem getElem?_sweep (value : List β → ν → β) {nodes : List ν} {i : Nat} {node : ν}
    (hnode : nodes[i]? = some node) :
    (sweep value nodes)[i]? = some (value ((sweep value nodes).take i) node) := by
  obtain ⟨hi, rfl⟩ := List.getElem?_eq_some_iff.mp hnode
  have hlast : (sweep value nodes).take (i + 1) =
      (sweep value nodes).take i ++ [value ((sweep value nodes).take i) nodes[i]] := by
    rw [take_sweep, List.take_succ_eq_append_getElem hi, sweep_concat, take_sweep]
  have hlen : ((sweep value nodes).take i).length = i := by
    simp [Nat.le_of_lt hi]
  have hread : ((sweep value nodes).take (i + 1))[i]? =
      some (value ((sweep value nodes).take i) nodes[i]) := by
    rw [hlast, List.getElem?_append_right (Nat.le_of_eq hlen), hlen]
    simp
  rwa [List.getElem?_take_of_lt (Nat.lt_succ_self i)] at hread

/-! ## Graphs -/

/-- Every node reads earlier positions only. -/
def Forward (args : ν → List Nat) (nodes : List ν) : Prop :=
  ∀ i node, nodes[i]? = some node → ∀ a ∈ args node, a < i

/-- The values of a graph whose nodes read the positions `args`. -/
def evaluate (interp : ν → List (Option β) → β) (args : ν → List Nat)
    (nodes : List ν) : List β :=
  sweep (fun done node => interp node ((args node).map fun a => done[a]?)) nodes

@[simp] theorem length_evaluate (interp : ν → List (Option β) → β) (args : ν → List Nat)
    (nodes : List ν) : (evaluate interp args nodes).length = nodes.length :=
  length_sweep _ nodes

/-- **The node equation.**  On a forward graph each value is the meaning of its
node at the values of its arguments. -/
theorem evaluate_eq (interp : ν → List (Option β) → β) {args : ν → List Nat}
    {nodes : List ν} (hfwd : Forward args nodes) {i : Nat} {node : ν}
    (hnode : nodes[i]? = some node) :
    (evaluate interp args nodes)[i]? =
      some (interp node ((args node).map fun a => (evaluate interp args nodes)[a]?)) := by
  have hsweep := getElem?_sweep
    (fun done node => interp node ((args node).map fun a => done[a]?)) hnode
  have hargs : (args node).map (fun a => ((evaluate interp args nodes).take i)[a]?) =
      (args node).map (fun a => (evaluate interp args nodes)[a]?) :=
    List.map_congr_left fun a ha => List.getElem?_take_of_lt (hfwd i node hnode a ha)
  exact hsweep.trans (congrArg (fun vals => some (interp node vals)) hargs)

/-- **Simulation.**  If the positions in `kept` are closed under arguments, and
`rename` carries each kept node to a node with the renamed arguments and the
same meaning, then kept positions have the same values in both graphs. -/
theorem simulation {interp : ν → List (Option β) → β} {interp' : μ → List (Option β) → β}
    {args : ν → List Nat} {args' : μ → List Nat} {nodes : List ν} {nodes' : List μ}
    (hfwd : Forward args nodes) (hfwd' : Forward args' nodes')
    (kept : Nat → Prop) (rename : Nat → Nat)
    (hkept : ∀ i node, kept i → nodes[i]? = some node →
      (∀ a ∈ args node, kept a) ∧
      ∃ node', nodes'[rename i]? = some node' ∧ args' node' = (args node).map rename ∧
        ∀ vals, interp' node' vals = interp node vals)
    {i : Nat} (hi : kept i) (hlt : i < nodes.length) :
    (evaluate interp' args' nodes')[rename i]? = (evaluate interp args nodes)[i]? := by
  induction i using Nat.strongRecOn with
  | ind i ih =>
      have hnode : nodes[i]? = some nodes[i] := List.getElem?_eq_getElem hlt
      obtain ⟨hclosed, node', hnode', hargs, hinterp⟩ := hkept i nodes[i] hi hnode
      rw [evaluate_eq interp hfwd hnode, evaluate_eq interp' hfwd' hnode', hinterp, hargs,
        List.map_map]
      congr 2
      apply List.map_congr_left
      intro a ha
      have hearlier := hfwd i nodes[i] hnode a ha
      exact ih a hearlier (hclosed a ha) (Nat.lt_trans hearlier hlt)

end Dataflow

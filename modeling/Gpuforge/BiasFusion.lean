import Gpuforge.CallOutcome
import Gpuforge.ListTable
import Mathlib.Data.List.Infix

/-!
# Bias fusion on the operator graph (`graph.hpp`, `graph.cpp`)

A `Graph` lists its nodes in the order in which they were added; `validate` accepts it when
every input of a node has a smaller id.  `fuse_linear_bias` gives every Gemm node the first
input node whose name contains "bias" and that it does not use yet, wherever that node is in
the list.  A bias that was added after the Gemm then becomes an input with a larger id
(`bias_added_later`); `bias_fusion_iff` says that nothing else goes wrong.
-/

namespace Gpuforge

open ListTable

inductive OpKind where
  | input
  | gemm
  | layerNorm
  | softmax
  | attention
  | fusedGemmBias
  deriving DecidableEq, Repr

structure GraphNode where
  id : Int := -1
  op : OpKind := .input
  inputs : List Int := []
  name : String := ""
  deriving DecidableEq, Repr

/-- The tests that the scan of `fuse_linear_bias` makes on a candidate for a node. -/
def GraphNode.Fits (node candidate : GraphNode) : Prop :=
  candidate.op = .input ∧ "bias".toList <:+: candidate.name.toList ∧ candidate.id ∉ node.inputs

instance (node candidate : GraphNode) : Decidable (node.Fits candidate) :=
  inferInstanceAs (Decidable (_ ∧ _))

structure Graph where
  nodes : List GraphNode := []
  deriving DecidableEq, Repr

namespace Graph

/-- `Graph::add`. -/
def add (g : Graph) (operation : OpKind) (inputs : List Int) (name : String) : Int × Graph :=
  let id := castInt g.nodes.length
  (id, ⟨g.nodes ++ [⟨id, operation, inputs, name⟩]⟩)

/-- `Graph::input`. -/
def input (g : Graph) (name : String) : Int × Graph := g.add .input [] name

/-- `Graph::validate`: the text of the error; `none` where it returns true. -/
def validate (g : Graph) : Option String :=
  g.nodes.findSome? fun node =>
    (node.inputs.find? fun input => input < 0 ∨ node.id ≤ input).map fun input =>
      "node " ++ toString node.id ++ " has invalid input " ++ toString input

/-- The first candidate for a node. -/
def scan (nodes : List GraphNode) (node : GraphNode) : Option GraphNode :=
  nodes.find? fun candidate => node.Fits candidate

/-- The turn of `fuse_linear_bias` for a node. -/
def fuseTurn (nodes : List GraphNode) (node : GraphNode) : GraphNode :=
  if node.op ≠ .gemm then node
  else
    match scan nodes node with
    | some candidate =>
        { node with
          op := .fusedGemmBias
          inputs := node.inputs ++ [candidate.id]
          name := node.name ++ "_fused_bias" }
    | none => node

/-- `Graph::fuse_linear_bias`; the nodes are changed in place while they are scanned. -/
def fuseLinearBias (g : Graph) : Graph :=
  if g.validate ≠ none then g
  else
    ⟨(List.range g.nodes.length).foldl (fun nodes i => nodes.modify i (fuseTurn nodes)) g.nodes⟩

/-- The calls that build a graph. -/
inductive Call where
  | input (name : String)
  | add (operation : OpKind) (inputs : List Int) (name : String)

def apply (g : Graph) : Call → Graph
  | .input name => (g.input name).2
  | .add operation inputs name => (g.add operation inputs name).2

/-- The graph after some calls. -/
def built (calls : List Call) : Graph := calls.foldl apply {}

/-! ## Acceptance -/

variable {g : Graph} {nodes : List GraphNode} {node candidate : GraphNode}

/-- All inputs of a node are ids below its own. -/
def InputsBefore (node : GraphNode) : Prop :=
  ∀ input ∈ node.inputs, 0 ≤ input ∧ input < node.id

/-- A graph is accepted exactly when every input comes before its node. -/
theorem validate_iff : g.validate = none ↔ ∀ node ∈ g.nodes, InputsBefore node := by
  simp only [validate, List.findSome?_eq_none_iff, Option.map_eq_none_iff, List.find?_eq_none,
    decide_eq_true_eq, InputsBefore]
  constructor
  · intro h node hnode input hinput
    have hout := h node hnode input hinput
    omega
  · intro h node hnode input hinput
    have hin := h node hnode input hinput
    omega

/-! ## The loop in place -/

/-- A turn leaves the nodes that fit anything as they are. -/
theorem fuseTurn_of_fits (h : node.Fits candidate) (nodes : List GraphNode) :
    fuseTurn nodes candidate = candidate := by
  have hop : candidate.op ≠ .gemm := by
    rw [h.1]
    decide
  rw [fuseTurn, if_pos hop]

/-- A turn makes no new candidate. -/
theorem fits_fuseTurn_iff : node.Fits (fuseTurn nodes candidate) ↔ node.Fits candidate := by
  constructor
  · intro h
    by_cases hop : candidate.op = .gemm
    · -- a Gemm stays one or becomes a fused one, and is no input either way
      have hkind := h.1
      rw [fuseTurn, if_neg (not_not_intro hop)] at hkind
      split at hkind
      · cases hkind
      · rw [hop] at hkind
        cases hkind
    · rwa [fuseTurn, if_pos hop] at h
  · intro h
    rwa [fuseTurn_of_fits h]

/-- The scan finds the same candidate among nodes that had their turn. -/
theorem scan_fuseTurn (all done rest : List GraphNode) (node : GraphNode) :
    scan (done.map (fuseTurn all) ++ rest) node = scan (done ++ rest) node := by
  unfold scan
  induction done with
  | nil => rfl
  | cons first done ih =>
      simp only [List.map_cons, List.cons_append, List.find?_cons, fits_fuseTurn_iff]
      by_cases hfits : node.Fits first
      · simp only [hfits, decide_true, fuseTurn_of_fits hfits]
      · simp only [hfits, decide_false]
        exact ih

/-- The turn of a node among nodes that had theirs. -/
theorem fuseTurn_partial (all done rest : List GraphNode) :
    fuseTurn (done.map (fuseTurn all) ++ rest) = fuseTurn (done ++ rest) := by
  funext node
  rw [fuseTurn, scan_fuseTurn, ← fuseTurn]

/-- After `k` turns the first `k` nodes have had theirs. -/
theorem foldl_fuseTurn (nodes : List GraphNode) : ∀ k, k ≤ nodes.length →
    (List.range k).foldl (fun nodes i => nodes.modify i (fuseTurn nodes)) nodes =
      (nodes.take k).map (fuseTurn nodes) ++ nodes.drop k := by
  intro k
  induction k with
  | zero => exact fun _ => rfl
  | succ k ih =>
      intro hk
      have hlen : ((nodes.take k).map (fuseTurn nodes)).length = k := by
        rw [List.length_map, List.length_take]
        omega
      have hmodify := modify_length_append (fuseTurn nodes) ((nodes.take k).map (fuseTurn nodes))
        nodes[k] (nodes.drop (k + 1))
      rw [hlen, ← List.drop_eq_getElem_cons] at hmodify
      rw [List.range_succ, List.foldl_append, ih (by omega), List.foldl_cons, List.foldl_nil,
        fuseTurn_partial, List.take_append_drop, hmodify, List.take_succ_eq_append_getElem hk,
        List.map_append, List.append_assoc]
      rfl

/-- **The loop is a map.**  Every node has its turn against the nodes of the graph as it
was. -/
theorem fuseLinearBias_nodes (hvalid : g.validate = none) :
    g.fuseLinearBias.nodes = g.nodes.map (fuseTurn g.nodes) := by
  rw [fuseLinearBias, if_neg (not_not_intro hvalid)]
  show (List.range g.nodes.length).foldl _ g.nodes = _
  rw [foldl_fuseTurn g.nodes g.nodes.length le_rfl, List.take_length, List.drop_length,
    List.append_nil]

/-! ## Validity of the fused graph -/

/-- The fused graph is accepted; nodes other than Gemms are as they were, and a Gemm is too or
has gained one input, an input node that it did not use. -/
structure BiasFused (g g' : Graph) : Prop where
  accepted : g'.validate = none
  count : g'.nodes.length = g.nodes.length
  others : ∀ (i : Nat) (node : GraphNode), g.nodes[i]? = some node → node.op ≠ .gemm →
    g'.nodes[i]? = some node
  gained : ∀ (i : Nat) (node : GraphNode), g.nodes[i]? = some node → node.op = .gemm →
    g'.nodes[i]? = some node ∨
      ∃ bias ∈ g.nodes, bias.op = .input ∧ bias.id ∉ node.inputs ∧
        g'.nodes[i]? = some
          { node with
            op := .fusedGemmBias
            inputs := node.inputs ++ [bias.id]
            name := node.name ++ "_fused_bias" }

/-- The first candidate that fits a Gemm, if there is one, comes before it. -/
def BiasBefore (g : Graph) : Prop :=
  ∀ node ∈ g.nodes, node.op = .gemm →
    ∀ bias ∈ scan g.nodes node, 0 ≤ bias.id ∧ bias.id < node.id

instance (g : Graph) : Decidable g.BiasBefore :=
  inferInstanceAs (Decidable (∀ node ∈ g.nodes, node.op = .gemm →
    ∀ bias ∈ scan g.nodes node, 0 ≤ bias.id ∧ bias.id < node.id))

/-- What a turn makes of a Gemm. -/
theorem fuseTurn_gemm (hop : node.op = .gemm) (nodes : List GraphNode) :
    (∃ bias, scan nodes node = some bias ∧
      fuseTurn nodes node =
        { node with
          op := .fusedGemmBias
          inputs := node.inputs ++ [bias.id]
          name := node.name ++ "_fused_bias" }) ∨
    (scan nodes node = none ∧ fuseTurn nodes node = node) := by
  cases hfind : scan nodes node with
  | none => exact Or.inr ⟨rfl, by rw [fuseTurn, if_neg (not_not_intro hop), hfind]⟩
  | some bias =>
      exact Or.inl ⟨bias, rfl, by rw [fuseTurn, if_neg (not_not_intro hop), hfind]⟩

/-- A turn on an accepted node leaves its inputs before it exactly when the candidate is. -/
theorem inputsBefore_fuseTurn_iff (hbefore : InputsBefore node) (hop : node.op = .gemm) :
    InputsBefore (fuseTurn nodes node) ↔
      ∀ bias ∈ scan nodes node,
        0 ≤ bias.id ∧ bias.id < node.id := by
  rcases fuseTurn_gemm hop nodes with ⟨bias, hfind, hturn⟩ | ⟨hfind, hturn⟩
  · rw [hfind, hturn]
    constructor
    · intro hinputs found hfound
      cases hfound
      exact hinputs bias.id (by simp)
    · intro hbias input hinput
      rcases List.mem_append.mp hinput with hold | hnew
      · exact hbefore input hold
      · rw [List.mem_singleton.mp hnew]
        exact hbias bias rfl
  · rw [hfind, hturn]
    exact iff_of_true hbefore (fun _ hnone => nomatch hnone)

/-- The fused graph is accepted exactly when every candidate that was taken comes first. -/
theorem validate_fuseLinearBias_iff (hvalid : g.validate = none) :
    g.fuseLinearBias.validate = none ↔ g.BiasBefore := by
  have hinputs := validate_iff.mp hvalid
  rw [validate_iff, fuseLinearBias_nodes hvalid]
  constructor
  · intro h node hnode hop
    exact (inputsBefore_fuseTurn_iff (hinputs node hnode) hop).mp
      (h _ (List.mem_map_of_mem hnode))
  · intro h fused hfused
    obtain ⟨node, hnode, rfl⟩ := List.mem_map.mp hfused
    by_cases hop : node.op = .gemm
    · exact (inputsBefore_fuseTurn_iff (hinputs node hnode) hop).mpr (h node hnode hop)
    · rw [fuseTurn, if_pos hop]
      exact hinputs node hnode

/-- **Bias fusion keeps the graph valid exactly when every bias it takes comes before its
Gemm.**  The other nodes are never changed, and a fused node always gains just one input, an
input node that it did not use. -/
theorem bias_fusion_iff {calls : List Call} (hvalid : (built calls).validate = none) :
    BiasFused (built calls) (built calls).fuseLinearBias ↔ (built calls).BiasBefore := by
  rw [← validate_fuseLinearBias_iff hvalid]
  constructor
  · exact fun h => h.accepted
  · intro haccepted
    have hnodes := fuseLinearBias_nodes hvalid
    refine ⟨haccepted, by rw [hnodes, List.length_map], ?_, ?_⟩
    · intro i node hnode hop
      rw [hnodes, List.getElem?_map, hnode, Option.map_some, fuseTurn, if_pos hop]
    · intro i node hnode hop
      rw [hnodes, List.getElem?_map, hnode, Option.map_some]
      rcases fuseTurn_gemm hop (built calls).nodes with ⟨bias, hfind, hturn⟩ | ⟨_, hturn⟩
      · have hfits : node.Fits bias := by simpa using List.find?_some hfind
        exact Or.inr ⟨bias, List.mem_of_find?_eq_some hfind, hfits.1, hfits.2.2, by rw [hturn]⟩
      · exact Or.inl (by rw [hturn])

/-- A bias in front of its Gemm. -/
theorem bias_fusion_iff_example :
    BiasFused (built [.input "x", .input "bias", .add .gemm [0] "gemm"])
      (built [.input "x", .input "bias", .add .gemm [0] "gemm"]).fuseLinearBias :=
  (bias_fusion_iff (by decide)).mpr (by decide)

/-- A bias behind the Gemm becomes an input of it all the same, and `validate` names it. -/
theorem bias_added_later :
    let g := built [.input "x", .add .gemm [0] "gemm", .input "bias"]
    g.validate = none ∧ g.fuseLinearBias.validate = some "node 1 has invalid input 2" ∧
      ¬ BiasFused g g.fuseLinearBias := by
  intro g
  have hrefused : g.fuseLinearBias.validate = some "node 1 has invalid input 2" := by
    decide +kernel
  refine ⟨by decide, hrefused, fun hfused => ?_⟩
  have haccepted := hrefused.symm.trans hfused.accepted
  cases haccepted

end Graph

end Gpuforge

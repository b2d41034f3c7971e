import Mathlib.Data.Bool.Count
import Gpuforge.GraphMarking
import Gpuforge.ShapeRules

/-!
# Dead code elimination (`PassManager::dead_code_eliminate`)

The pass marks what the outputs reach, copies the marked nodes into a new
vector, and rewrites ids, inputs and outputs through a table of new positions.
The table gives a kept node its rank: the number of kept nodes before it.

The pass preserves the program (`dce_preserves`): every kept node keeps all it
says apart from the renamed ids, and every output denotes what it denoted.  It needs
ids that are positions, which `validate` does not check (`dce_swapped_ids`).
-/

namespace Gpuforge.Compiler

variable {α : Type}

/-! ## The pass -/

/-- The worklist loop. -/
def Module.liveNodes (m : Module α) : Option (List Bool) :=
  GraphMarking.mark (m.nodes.map Node.inputs) m.outputs

/-- The kept nodes so far, the table of new positions, and the number of
removed nodes. -/
structure Keeping (α : Type) where
  kept : List (Node α)
  remap : List Int
  removed : Nat

/-- The loop that copies live nodes; `none` is a subscript out of range. -/
def keepLive (live : List Bool) : List (Node α) → Keeping α → Option (Keeping α)
  | [], st => some st
  | node :: rest, st =>
      match intAt live node.id with
      | none => none
      | some true =>
          keepLive live rest
            { st with
              kept := st.kept ++ [node]
              remap := st.remap.set node.id.toNat (castInt st.kept.length) }
      | some false => keepLive live rest { st with removed := st.removed + 1 }

/-- Read the table for each id of a list; `none` is a subscript out of range. -/
def remapAll (remap : List Int) : List Int → Option (List Int)
  | [] => some []
  | id :: rest =>
      match intAt remap id with
      | none => none
      | some id' => (remapAll remap rest).map fun rest' => id' :: rest'

/-- The loop that renames the kept nodes. -/
def renumber (remap : List Int) : List (Node α) → Option (List (Node α))
  | [] => some []
  | node :: rest =>
      match intAt remap node.id, remapAll remap node.inputs with
      | some id, some inputs =>
          (renumber remap rest).map fun rest' =>
            { node with
              id := id
              inputs := inputs
              output := { node.output with id := id } } :: rest'
      | _, _ => none

/-- The number of removed nodes and the module after the pass; `none` is a
subscript out of range. -/
def Module.deadCodeEliminate (m : Module α) : Option (Nat × Module α) :=
  if m.outputs = [] then some (0, m)
  else
    match m.liveNodes with
    | none => none
    | some live =>
        match keepLive live m.nodes ⟨[], List.replicate m.nodes.length (-1), 0⟩ with
        | none => none
        | some st =>
            match renumber st.remap st.kept, remapAll st.remap m.outputs with
            | some nodes, some outputs => some (st.removed, ⟨nodes, outputs⟩)
            | _, _ => none

/-! ## Ranks -/

/-- The number of live positions before `v`. -/
def rank (live : List Bool) (v : Nat) : Nat := (live.take v).count true

/-- The rank grows by one at a live position and nowhere else. -/
theorem rank_succ {live : List Bool} {v : Nat} {b : Bool} (h : live[v]? = some b) :
    rank live (v + 1) = rank live v + if b then 1 else 0 := by
  obtain ⟨hv, rfl⟩ := List.getElem?_eq_some_iff.mp h
  rw [rank, List.take_succ_eq_append_getElem hv, List.count_append, rank]
  cases live[v] <;> rfl

/-- Ranks grow. -/
theorem rank_mono (live : List Bool) {u v : Nat} (h : u ≤ v) : rank live u ≤ rank live v := by
  have hsub : (live.take u).Sublist (live.take v) := by
    rw [← Nat.min_eq_left h, ← List.take_take]
    exact List.take_sublist _ _
  exact hsub.count_le true

/-- Ranks tell live positions apart, in order. -/
theorem rank_lt {live : List Bool} {u v : Nat} (hu : live[u]? = some true) (h : u < v) :
    rank live u < rank live v := by
  have hsucc := rank_succ hu
  have hmono : rank live (u + 1) ≤ rank live v := rank_mono live h
  simp only [if_true] at hsucc
  omega

/-- No rank exceeds the position. -/
theorem rank_le (live : List Bool) (v : Nat) : rank live v ≤ v :=
  Nat.le_trans List.count_le_length (List.length_take_le v live)

/-! ## The copy loop -/

/-- What holds after the first `k` nodes. -/
structure Kept (live : List Bool) (nodes : List (Node α)) (k : Nat) (st : Keeping α) :
    Prop where
  count : st.kept.length = rank live k
  size : st.remap.length = nodes.length
  mapped : ∀ v < k, live[v]? = some true → st.remap[v]? = some (rank live v : Int)
  found : ∀ v < k, live[v]? = some true → st.kept[rank live v]? = nodes[v]?
  onto : ∀ j < st.kept.length, ∃ v < k, live[v]? = some true ∧ rank live v = j
  removed : st.removed + rank live k = k

/-- The step over a live node. -/
theorem Kept.keep {live : List Bool} {nodes : List (Node α)} {k : Nat} {st : Keeping α}
    {node : Node α} (h : Kept live nodes k st) (hlive : live[k]? = some true)
    (hnode : nodes[k]? = some node) :
    Kept live nodes (k + 1)
      { st with kept := st.kept ++ [node], remap := st.remap.set k (rank live k : Int) } := by
  have hsucc := rank_succ hlive
  simp only [if_true] at hsucc
  have hk : k < st.remap.length := by
    rw [h.size]
    exact (List.getElem?_eq_some_iff.mp hnode).1
  have hsplit : ∀ v, v < k + 1 → v ≠ k → v < k := fun v hv hne => by omega
  refine ⟨by simp [h.count, hsucc], by simpa using h.size, ?_, ?_, ?_, ?_⟩
  · intro v hv hv'
    by_cases hvk : v = k
    · simp [hvk, hk]
    · simp only [List.getElem?_set_ne (Ne.symm hvk)]
      exact h.mapped v (hsplit v hv hvk) hv'
  · intro v hv hv'
    by_cases hvk : v = k
    · subst hvk
      rw [← h.count, List.getElem?_concat_length, hnode]
    · have hlt := hsplit v hv hvk
      have hrank := rank_lt hv' hlt
      rw [List.getElem?_append_left (by rw [h.count]; exact hrank)]
      exact h.found v hlt hv'
  · intro j hj
    rw [List.length_append, List.length_singleton] at hj
    by_cases hold : j < st.kept.length
    · obtain ⟨v, hv, hv', hrank⟩ := h.onto j hold
      exact ⟨v, by omega, hv', hrank⟩
    · exact ⟨k, Nat.lt_succ_self k, hlive, by rw [← h.count]; omega⟩
  · have hremoved := h.removed
    show st.removed + rank live (k + 1) = k + 1
    omega

/-- The step over a dead node. -/
theorem Kept.drop {live : List Bool} {nodes : List (Node α)} {k : Nat} {st : Keeping α}
    (h : Kept live nodes k st) (hdead : live[k]? = some false) :
    Kept live nodes (k + 1) { st with removed := st.removed + 1 } := by
  have hsucc := rank_succ hdead
  have hsplit : ∀ v, v < k + 1 → live[v]? = some true → v < k := by
    intro v hv hv'
    have hne : v ≠ k := by
      rintro rfl
      rw [hdead] at hv'
      cases hv'
    omega
  refine ⟨by simpa [hsucc] using h.count, h.size,
    fun v hv hv' => h.mapped v (hsplit v hv hv') hv',
    fun v hv hv' => h.found v (hsplit v hv hv') hv', ?_, ?_⟩
  · intro j hj
    obtain ⟨v, hv, hv', hrank⟩ := h.onto j hj
    exact ⟨v, by omega, hv', hrank⟩
  · have hremoved := h.removed
    simp only [hsucc, Bool.false_eq_true, if_false] at hremoved ⊢
    omega

/-- The copy loop stays in range and keeps exactly the live nodes. -/
theorem keepLive_kept {live : List Bool} {nodes : List (Node α)}
    (hids : ∀ (i : Nat) (node : Node α), nodes[i]? = some node → node.id = i)
    (hnarrow : nodes.length ≤ 2 ^ 31) (hsize : live.length = nodes.length) :
    ∀ (rest done : List (Node α)) (st : Keeping α), nodes = done ++ rest →
      Kept live nodes done.length st →
      ∃ st', keepLive live rest st = some st' ∧ Kept live nodes nodes.length st' := by
  intro rest
  induction rest with
  | nil =>
      intro done st hsplit h
      rw [hsplit, List.append_nil]
      rw [hsplit, List.append_nil] at h
      exact ⟨st, rfl, h⟩
  | cons node rest ih =>
      intro done st hsplit h
      have hnode : nodes[done.length]? = some node := by simp [hsplit]
      have hid : node.id = done.length := hids _ node hnode
      have hlt : done.length < nodes.length := (List.getElem?_eq_some_iff.mp hnode).1
      have hread : intAt live node.id = some live[done.length] := by
        rw [hid, intAt_natCast]
        exact List.getElem?_eq_getElem (by omega)
      have hlive : live[done.length]? = some live[done.length] :=
        List.getElem?_eq_getElem (by omega)
      have hsplit' : nodes = (done ++ [node]) ++ rest := by simp [hsplit]
      have hlen : (done ++ [node]).length = done.length + 1 := by simp
      rw [keepLive, hread]
      cases hb : live[done.length] with
      | true =>
          rw [hb] at hlive
          have hcast : castInt st.kept.length = (rank live done.length : Int) := by
            rw [h.count]
            exact castInt_of_lt (by have := rank_le live done.length; omega)
          have hnext := h.keep hlive hnode
          rw [← hlen] at hnext
          simp only [hcast, hid, Int.toNat_natCast]
          exact ih (done ++ [node]) _ hsplit' hnext
      | false =>
          rw [hb] at hlive
          have hnext := h.drop hlive
          rw [← hlen] at hnext
          exact ih (done ++ [node]) _ hsplit' hnext

/-! ## The renaming loops -/

/-- Ids with entries are all renamed. -/
theorem remapAll_eq {remap : List Int} {f : Nat → Nat} : ∀ ids : List Int,
    (∀ id ∈ ids, ∃ v : Nat, id = v ∧ remap[v]? = some (f v : Int)) →
    remapAll remap ids = some (ids.map fun id => (f id.toNat : Int)) := by
  intro ids
  induction ids with
  | nil => exact fun _ => rfl
  | cons id rest ih =>
      intro h
      obtain ⟨v, rfl, hv⟩ := h id List.mem_cons_self
      have hrest := ih fun id' hid' => h id' (List.mem_cons_of_mem _ hid')
      simp [remapAll, hv, hrest]

/-- A kept node after the renaming. -/
def Node.renamed (f : Nat → Nat) (node : Node α) : Node α :=
  { node with
    id := (f node.id.toNat : Int)
    inputs := node.inputs.map fun input => (f input.toNat : Int)
    output := { node.output with id := (f node.id.toNat : Int) } }

/-- Nodes whose ids and inputs have entries are all renamed. -/
theorem renumber_eq {remap : List Int} {f : Nat → Nat} : ∀ nodes : List (Node α),
    (∀ node ∈ nodes, ∀ id, id = node.id ∨ id ∈ node.inputs →
      ∃ v : Nat, id = v ∧ remap[v]? = some (f v : Int)) →
    renumber remap nodes = some (nodes.map (Node.renamed f)) := by
  intro nodes
  induction nodes with
  | nil => exact fun _ => rfl
  | cons node rest ih =>
      intro h
      obtain ⟨v, hv, hread⟩ := h node List.mem_cons_self node.id (Or.inl rfl)
      have hinputs := remapAll_eq node.inputs
        fun id hid => h node List.mem_cons_self id (Or.inr hid)
      have hrest := ih fun node' hnode' => h node' (List.mem_cons_of_mem _ hnode')
      simp [renumber, hv, hread, hinputs, hrest, Node.renamed]

/-! ## What the pass returns -/

variable {m : Module α}

/-- The positions that the outputs reach. -/
def Live (m : Module α) : Nat → Prop :=
  GraphMarking.Reaches (m.nodes.map Node.inputs) m.outputs

/-- The outputs are ids of nodes. -/
def OutputsInRange (m : Module α) : Prop :=
  ∀ output ∈ m.outputs, 0 ≤ output ∧ output < m.nodes.length

/-- A live position has a node. -/
theorem Live.lt {v : Nat} (h : Live m v) : v < m.nodes.length := by
  simpa using GraphMarking.Reaches.lt h

/-- The outputs are live. -/
theorem OutputsInRange.live (h : OutputsInRange m) {output : Int}
    (hmem : output ∈ m.outputs) : ∃ v : Nat, output = v ∧ Live m v := by
  obtain ⟨hnonneg, hlt⟩ := h output hmem
  obtain ⟨v, rfl⟩ : ∃ v : Nat, output = v := ⟨output.toNat, by omega⟩
  refine ⟨v, rfl, .root hmem ?_⟩
  rw [List.length_map]
  omega

/-- The inputs of a live node are live. -/
theorem Accepted.input_live (h : Accepted m) {v : Nat} {node : Node α} (hv : Live m v)
    (hnode : m.nodes[v]? = some node) {input : Int} (hinput : input ∈ node.inputs) :
    ∃ u : Nat, input = u ∧ u < v ∧ Live m u := by
  obtain ⟨u, rfl, hlt⟩ := h.earlier hnode hinput
  have hout : (m.nodes.map Node.inputs)[v]? = some node.inputs := by
    rw [List.getElem?_map, hnode, Option.map_some]
  refine ⟨u, rfl, hlt, .edge hv hout hinput ?_⟩
  rw [List.length_map]
  exact Nat.lt_trans hlt hv.lt

/-- The inputs of live nodes are ids of nodes. -/
def LiveInputsInRange (m : Module α) : Prop :=
  ∀ (v : Nat) (node : Node α), Live m v → m.nodes[v]? = some node →
    ∀ input ∈ node.inputs, 0 ≤ input ∧ input < m.nodes.length

/-- In range, the inputs of a live node are live. -/
theorem LiveInputsInRange.live (h : LiveInputsInRange m) {v : Nat} {node : Node α}
    (hv : Live m v) (hnode : m.nodes[v]? = some node) {input : Int}
    (hinput : input ∈ node.inputs) : ∃ u : Nat, input = u ∧ Live m u := by
  obtain ⟨hnonneg, hlt⟩ := h v node hv hnode input hinput
  obtain ⟨u, rfl⟩ : ∃ u : Nat, input = u := ⟨input.toNat, by omega⟩
  have hout : (m.nodes.map Node.inputs)[v]? = some node.inputs := by
    rw [List.getElem?_map, hnode, Option.map_some]
  refine ⟨u, rfl, .edge hv hout hinput ?_⟩
  rw [List.length_map]
  omega

/-- Accepted modules have inputs in range. -/
theorem Accepted.liveInputsInRange (h : Accepted m) : LiveInputsInRange m := by
  intro v node hv hnode input hinput
  obtain ⟨u, rfl, hlt, _⟩ := h.input_live hv hnode hinput
  have hvlt := hv.lt
  omega

/-- **The pass on ids in range.**  It stays in range; it keeps the live nodes and
renames every id to a rank. -/
theorem Module.Indexed.eliminated (h : m.Indexed) (hne : m.outputs ≠ [])
    (hrange : OutputsInRange m) (hinputs : LiveInputsInRange m) :
    ∃ live st, m.liveNodes = some live ∧ live.length = m.nodes.length ∧
      (∀ v : Nat, live[v]? = some true ↔ Live m v) ∧
      Kept live m.nodes m.nodes.length st ∧
      m.deadCodeEliminate = some (st.removed,
        ⟨st.kept.map (Node.renamed (rank live)),
          m.outputs.map fun output => (rank live output.toNat : Int)⟩) := by
  obtain ⟨live, hmark, hsize, hlive⟩ :=
    GraphMarking.mark_exact (m.nodes.map Node.inputs) m.outputs
  have hstart : Kept live m.nodes ([] : List (Node α)).length
      ⟨[], List.replicate m.nodes.length (-1), 0⟩ :=
    ⟨by simp [rank], by simp, by simp, by simp, by simp, by simp [rank]⟩
  obtain ⟨st, hkeep, hst⟩ := keepLive_kept h.ids h.narrow (by simpa using hsize) m.nodes [] _ rfl
    hstart
  have hmapped : ∀ v, Live m v → st.remap[v]? = some (rank live v : Int) :=
    fun v hv => hst.mapped v hv.lt ((hlive v).mpr hv)
  have hnodes : renumber st.remap st.kept = some (st.kept.map (Node.renamed (rank live))) := by
    apply renumber_eq st.kept
    intro node hmem id hid
    obtain ⟨j, hj, rfl⟩ := List.mem_iff_getElem.mp hmem
    obtain ⟨v, hv, hv', rfl⟩ := hst.onto j hj
    have hlv := (hlive v).mp hv'
    have hnode : m.nodes[v]? = some st.kept[rank live v] :=
      (hst.found v hv hv').symm.trans (List.getElem?_eq_getElem hj)
    rcases hid with rfl | hinput
    · exact ⟨v, h.ids v _ hnode, hmapped v hlv⟩
    · obtain ⟨u, rfl, hlu⟩ := hinputs.live hlv hnode hinput
      exact ⟨u, rfl, hmapped u hlu⟩
  have houtputs : remapAll st.remap m.outputs =
      some (m.outputs.map fun output => (rank live output.toNat : Int)) := by
    apply remapAll_eq m.outputs
    intro output hmem
    obtain ⟨v, rfl, hv⟩ := hrange.live hmem
    exact ⟨v, rfl, hmapped v hv⟩
  refine ⟨live, st, hmark, by simpa using hsize, hlive, hst, ?_⟩
  rw [Module.deadCodeEliminate, if_neg hne, Module.liveNodes, hmark]
  simp only [hkeep, hnodes, houtputs]

/-! ## What the pass preserves -/

section denotation

variable {V : Type} (interp : Op → Attrs → Shape → List α → List (Option V) → V)
  (params : Nat → V)

/-- The value of a node: a parameter has its own, any other node a function of
its operator, attributes, shape, payload and input values. -/
def nodeValue (node : Node α) (inputs : List (Option V)) : V :=
  if node.op = .parameter then params node.id.toNat
  else interp node.op node.attrs node.output.shape node.constantData inputs

/-- The values of the nodes of a module. -/
def Module.values (m : Module α) : List V :=
  Dataflow.evaluate (nodeValue interp params) Node.args m.nodes

/-- The values of its outputs. -/
def Module.outputValues (m : Module α) : List (Option V) :=
  m.outputs.map fun output => intAt (m.values interp params) output

end denotation

/-- The module after the pass holds the live nodes of the module before, with
all they say, renamed in order; its ids are positions. -/
structure Renumbered (m m' : Module α) (rename : Nat → Nat) : Prop where
  kept : ∀ v node, Live m v → m.nodes[v]? = some node →
    ∃ node', m'.nodes[rename v]? = some node' ∧ node'.op = node.op ∧
      node'.attrs = node.attrs ∧ node'.output.shape = node.output.shape ∧
      node'.output.name = node.output.name ∧ node'.constantData = node.constantData ∧
      node'.inputs = node.inputs.map fun input => (rename input.toNat : Int)
  onto : ∀ j < m'.nodes.length, ∃ v, Live m v ∧ rename v = j
  ordered : ∀ u v, Live m u → Live m v → u < v → rename u < rename v
  injective : ∀ u v, Live m u → Live m v → rename u = rename v → u = v
  indexed : m'.Indexed
  outputIds : ∀ (j : Nat) node', m'.nodes[j]? = some node' → node'.output.id = j
  outputs : m'.outputs = m.outputs.map fun output => (rename output.toNat : Int)

/-- A renumbered module is a forward graph too. -/
theorem Renumbered.forward {m' : Module α} {rename : Nat → Nat} (h : Accepted m)
    (hr : Renumbered m m' rename) : Dataflow.Forward Node.args m'.nodes := by
  intro j node' hnode' a ha
  obtain ⟨v, hv, rfl⟩ := hr.onto j (List.getElem?_eq_some_iff.mp hnode').1
  have hvlt := hv.lt
  have hnode : m.nodes[v]? = some m.nodes[v] := List.getElem?_eq_getElem hvlt
  obtain ⟨node'', hnode'', _, _, _, _, _, hinputs⟩ := hr.kept v m.nodes[v] hv hnode
  rw [hnode', Option.some.injEq] at hnode''
  subst hnode''
  rw [Node.args, hinputs, List.map_map] at ha
  obtain ⟨input, hinput, rfl⟩ := List.mem_map.mp ha
  obtain ⟨u, rfl, hlt, hu⟩ := h.input_live hv hnode hinput
  simpa using hr.ordered u v hu hv hlt

/-- Along a renumbering every live node keeps its value. -/
theorem Renumbered.value {V : Type} {m' : Module α} {rename : Nat → Nat} (h : Accepted m)
    (hr : Renumbered m m' rename)
    (interp : Op → Attrs → Shape → List α → List (Option V) → V) {params params' : Nat → V}
    (hparams : ∀ v node, Live m v → m.nodes[v]? = some node → node.op = .parameter →
      params' (rename v) = params v) {v : Nat} (hv : Live m v) :
    (m'.values interp params')[rename v]? = (m.values interp params)[v]? := by
  refine Dataflow.simulation h.forward (hr.forward h) (Live m) rename ?_ hv hv.lt
  intro i node hi hnode
  obtain ⟨node', hnode', hop, hattrs, hshape, _, hdata, hinputs⟩ := hr.kept i node hi hnode
  refine ⟨?_, node', hnode', ?_, ?_⟩
  · intro a ha
    obtain ⟨input, hinput, rfl⟩ := List.mem_map.mp ha
    obtain ⟨u, rfl, _, hu⟩ := h.input_live hi hnode hinput
    exact hu
  · rw [Node.args, hinputs, Node.args, List.map_map, List.map_map]
    rfl
  · intro vals
    rw [nodeValue, nodeValue, hop, hattrs, hshape, hdata]
    split
    · rename_i hparam
      rw [hr.indexed.ids (rename i) node' hnode', h.indexed.ids i node hnode]
      exact hparams i node hi hnode hparam
    · rfl

/-- The pass on ids in range is a renumbering; it returns the number of unmarked
nodes. -/
theorem Module.Indexed.renumbered (h : m.Indexed) (hne : m.outputs ≠ [])
    (hrange : OutputsInRange m) (hinputs : LiveInputsInRange m) :
    ∃ removed m' rename, m.deadCodeEliminate = some (removed, m') ∧
      Renumbered m m' rename ∧
      ∃ live, m.liveNodes = some live ∧ live.length = m.nodes.length ∧
        removed = live.count false := by
  obtain ⟨live, st, hmark, hsize, hlive, hst, hres⟩ := h.eliminated hne hrange hinputs
  have hremoved : st.removed = live.count false := by
    have hsplit := List.count_false_add_count_true live
    have hrank : rank live m.nodes.length = live.count true := by
      rw [rank, List.take_of_length_le (by omega)]
    have htotal := hst.removed
    omega
  have hrankLt : ∀ u v, Live m u → u < v → rank live u < rank live v :=
    fun u v hu hlt => rank_lt ((hlive u).mpr hu) hlt
  -- the node at a position after the pass
  have hback : ∀ (j : Nat) node', (st.kept.map (Node.renamed (rank live)))[j]? = some node' →
      ∃ v, rank live v = j ∧ node'.id = j ∧ node'.output.id = j := by
    intro j node' hnode'
    have hj : j < st.kept.length := by
      simpa using (List.getElem?_eq_some_iff.mp hnode').1
    obtain ⟨v, hv, hv', rfl⟩ := hst.onto j hj
    rw [List.getElem?_map, hst.found v hv hv'] at hnode'
    obtain ⟨node, hnode, rfl⟩ := Option.map_eq_some_iff.mp hnode'
    have hid := h.ids v node hnode
    exact ⟨v, rfl, by simp [Node.renamed, hid], by simp [Node.renamed, hid]⟩
  refine ⟨st.removed, _, rank live, hres, ?_, live, hmark, hsize, hremoved⟩
  refine
    { kept := ?_
      onto := ?_
      ordered := fun u v hu _ hlt => hrankLt u v hu hlt
      injective := ?_
      indexed := ⟨?_, ?_⟩
      outputIds := ?_
      outputs := rfl }
  · intro v node hv hnode
    refine ⟨node.renamed (rank live), ?_, rfl, rfl, rfl, rfl, rfl, rfl⟩
    rw [List.getElem?_map, hst.found v hv.lt ((hlive v).mpr hv), hnode, Option.map_some]
  · intro j hj
    obtain ⟨v, _, hv', hrank⟩ := hst.onto j (by simpa using hj)
    exact ⟨v, (hlive v).mp hv', hrank⟩
  · intro u v hu hv heq
    rcases Nat.lt_trichotomy u v with hlt | hsame | hgt
    · have := hrankLt u v hu hlt
      omega
    · exact hsame
    · have := hrankLt v u hv hgt
      omega
  · intro j node' hnode'
    obtain ⟨_, _, hid, _⟩ := hback j node' hnode'
    exact hid
  · have hle := rank_le live m.nodes.length
    have hnarrow := h.narrow
    simp only [List.length_map, hst.count]
    omega
  · intro j node' hnode'
    obtain ⟨_, _, _, hout⟩ := hback j node' hnode'
    exact hout

/-- The pass on an accepted module is a renumbering. -/
theorem Accepted.renumbered (h : Accepted m) (hne : m.outputs ≠ [])
    (hrange : OutputsInRange m) :
    ∃ removed m' rename, m.deadCodeEliminate = some (removed, m') ∧
      Renumbered m m' rename := by
  obtain ⟨removed, m', rename, hres, hr, _⟩ :=
    h.indexed.renumbered hne hrange h.liveInputsInRange
  exact ⟨removed, m', rename, hres, hr⟩

/-- Entries that are all there form a list. -/
theorem exists_map_some {β γ : Type} {f : β → Option γ} : ∀ xs : List β,
    (∀ x ∈ xs, ∃ y, f x = some y) → ∃ ys : List γ, xs.map f = ys.map some := by
  intro xs
  induction xs with
  | nil => exact fun _ => ⟨[], rfl⟩
  | cons x rest ih =>
      intro h
      obtain ⟨y, hy⟩ := h x List.mem_cons_self
      obtain ⟨ys, hys⟩ := ih fun x' hx' => h x' (List.mem_cons_of_mem _ hx')
      exact ⟨y :: ys, by rw [List.map_cons, List.map_cons, hy, hys]⟩

/-- **Dead code elimination preserves the program.**  On an accepted module
with outputs in range the pass succeeds with a renumbering of the live nodes,
and under every interpretation of the operators, with the surviving parameters
keeping their values, every output denotes the value it denoted before. -/
theorem dce_preserves (h : Accepted m) (hne : m.outputs ≠ []) (hrange : OutputsInRange m) :
    ∃ removed m' rename, m.deadCodeEliminate = some (removed, m') ∧
      Renumbered m m' rename ∧
      ∀ (V : Type) (interp : Op → Attrs → Shape → List α → List (Option V) → V)
        (params params' : Nat → V),
        (∀ v node, Live m v → m.nodes[v]? = some node → node.op = .parameter →
          params' (rename v) = params v) →
        ∃ vals : List V, m.outputValues interp params = vals.map some ∧
          m'.outputValues interp params' = vals.map some := by
  obtain ⟨removed, m', rename, hres, hr⟩ := h.renumbered hne hrange
  refine ⟨removed, m', rename, hres, hr, fun V interp params params' hparams => ?_⟩
  have hsome : ∀ output ∈ m.outputs, ∃ val : V,
      intAt (m.values interp params) output = some val := by
    intro output hmem
    obtain ⟨v, rfl, hv⟩ := hrange.live hmem
    have hlt : v < (m.values interp params).length := by
      rw [Module.values, Dataflow.length_evaluate]
      exact hv.lt
    exact ⟨_, by rw [intAt_natCast]; exact List.getElem?_eq_getElem hlt⟩
  have hsame : m'.outputValues interp params' = m.outputValues interp params := by
    rw [Module.outputValues, Module.outputValues, hr.outputs, List.map_map]
    apply List.map_congr_left
    intro output hmem
    obtain ⟨v, rfl, hv⟩ := hrange.live hmem
    show intAt _ ((rename v : Nat) : Int) = _
    rw [intAt_natCast, intAt_natCast]
    exact hr.value h interp hparams hv
  obtain ⟨vals, hvals⟩ := exists_map_some m.outputs hsome
  exact ⟨vals, hvals, hsame.trans hvals⟩

/-- Two parameters, each with a `Relu`; only one of the two is an output. -/
theorem dce_preserves_example :
    let shape : Shape := { dims := [2, 2] }
    let m : Module Int :=
      ⟨[⟨0, .parameter, [], ⟨0, shape, "live"⟩, [], []⟩,
        ⟨1, .parameter, [], ⟨1, shape, "dead"⟩, [], []⟩,
        ⟨2, .relu, [0], ⟨2, shape, "v2"⟩, [], []⟩,
        ⟨3, .relu, [1], ⟨3, shape, "v3"⟩, [], []⟩], [2]⟩
    ∃ m' rename, m.deadCodeEliminate = some (2, m') ∧ m'.outputs = [1] ∧
      Renumbered m m' rename := by
  intro shape m
  have haccepted : Accepted m :=
    ⟨Module.indexed_of_ids rfl (show 4 ≤ 2 ^ 31 by omega), rfl⟩
  have hrange : OutputsInRange m := by
    intro output hmem
    rw [List.mem_singleton.mp hmem]
    decide
  obtain ⟨removed, m', rename, hres, hr, _⟩ := dce_preserves haccepted (by decide) hrange
  have hcompute : m.deadCodeEliminate = some (2,
      ⟨[⟨0, .parameter, [], ⟨0, shape, "live"⟩, [], []⟩,
        ⟨1, .relu, [0], ⟨1, shape, "v2"⟩, [], []⟩], [1]⟩) := by decide +kernel
  rw [hcompute] at hres
  cases hres
  exact ⟨_, rename, hcompute, rfl, hr⟩

/-- A module whose second and third node stand in each other's place.  `validate`
compares ids only, and accepts it. -/
def swappedIds : Module Int :=
  ⟨[⟨0, .parameter, [], ⟨0, { dims := [2] }, "x"⟩, [], []⟩,
    ⟨2, .gelu, [1], ⟨2, { dims := [2] }, "v2"⟩, [], []⟩,
    ⟨1, .relu, [0], ⟨1, { dims := [2] }, "v1"⟩, [], []⟩], [2]⟩

theorem swappedIds_inRange : OutputsInRange swappedIds := by
  intro output hmem
  rw [List.mem_singleton.mp hmem]
  decide

/-- **Ids have to be positions.**  The pass on `swappedIds` follows the output to the
`Relu` at position 2, but copies the node with id 2, the `Gelu`. -/
theorem dce_swapped_ids :
    ¬ ∀ m : Module Int, validate m = .ok [] → m.outputs ≠ [] → OutputsInRange m →
      ∃ removed m', m.deadCodeEliminate = some (removed, m') ∧
        ∀ (V : Type) (interp : Op → Attrs → Shape → List Int → List (Option V) → V) (val : V),
          m'.outputValues interp (fun _ => val) = m.outputValues interp (fun _ => val) := by
  intro hclaim
  obtain ⟨removed, m', hres, hsame⟩ := hclaim swappedIds rfl (by decide) swappedIds_inRange
  have hcompute : swappedIds.deadCodeEliminate = some (1,
      ⟨[⟨0, .parameter, [], ⟨0, { dims := [2] }, "x"⟩, [], []⟩,
        ⟨1, .gelu, [-1], ⟨1, { dims := [2] }, "v2"⟩, [], []⟩], [1]⟩) := by decide +kernel
  rw [hcompute] at hres
  cases hres
  -- an interpretation that tells a `Relu` from the rest
  have hvalue := hsame Bool (fun op _ _ _ _ => decide (op = .relu)) true
  have hdiffers : ¬ ([some false] : List (Option Bool)) = [some true] := by decide
  exact hdiffers hvalue

end Gpuforge.Compiler

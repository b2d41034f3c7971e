import Gpuforge.DeadCodeElimination

/-!
# Dead code elimination on any graph

The worklist loop marks what is reachable on every graph, also one with cycles and
ids out of range.  With the ids of outputs and live nodes in range the pass removes
exactly the unmarked nodes, and another call finds nothing to do
(`dead_code_exact`).

The worklist skips ids out of range, but the loops after it use the ids of outputs
and nodes as subscripts, and `validate` checks neither.  The pass stays in bounds if
and only if all of them are in range (`dead_code_in_bounds_iff`).
-/

namespace Gpuforge.Compiler

variable {α : Type} {m m' : Module α} {rename : Nat → Nat}

/-! ## A second call -/

/-- The rank is the position when all before are live. -/
theorem rank_all {live : List Bool} {k : Nat} (h : ∀ v < k, live[v]? = some true) :
    rank live k = k := by
  induction k with
  | zero => simp [rank]
  | succ k ih =>
      have hk := rank_succ (h k (Nat.lt_succ_self k))
      rw [hk, ih fun v hv => h v (Nat.lt_succ_of_lt hv)]
      rfl

/-- A function that keeps every entry keeps the list. -/
theorem map_eq_self {β : Type} {f : β → β} {xs : List β} (h : ∀ x ∈ xs, f x = x) :
    xs.map f = xs :=
  (List.map_congr_left h).trans (List.map_id xs)

/-- With every node live the pass does nothing. -/
theorem Module.Indexed.eliminated_all (h : m.Indexed) (hne : m.outputs ≠ [])
    (hrange : OutputsInRange m) (hinputs : LiveInputsInRange m)
    (hall : ∀ v < m.nodes.length, Live m v)
    (hids : ∀ (v : Nat) (node : Node α), m.nodes[v]? = some node → node.output.id = v) :
    m.deadCodeEliminate = some (0, m) := by
  obtain ⟨live, st, _, _, hlive, hst, hres⟩ := h.eliminated hne hrange hinputs
  have hmarked : ∀ v < m.nodes.length, live[v]? = some true :=
    fun v hv => (hlive v).mpr (hall v hv)
  have hrank : ∀ v ≤ m.nodes.length, rank live v = v :=
    fun v hv => rank_all fun u hu => hmarked u (by omega)
  have hkept : st.kept = m.nodes := by
    apply List.ext_getElem?
    intro v
    by_cases hv : v < m.nodes.length
    · rw [← hst.found v hv (hmarked v hv), hrank v (by omega)]
    · have hcount := hst.count
      rw [hrank _ (Nat.le_refl _)] at hcount
      rw [List.getElem?_eq_none (by omega), List.getElem?_eq_none (by omega)]
  have hzero : st.removed = 0 := by
    have hremoved := hst.removed
    rw [hrank _ (Nat.le_refl _)] at hremoved
    omega
  have hnodes : m.nodes.map (Node.renamed (rank live)) = m.nodes := by
    apply map_eq_self
    intro node hmem
    obtain ⟨v, hnode⟩ := List.mem_iff_getElem?.mp hmem
    have hv := (List.getElem?_eq_some_iff.mp hnode).1
    have hid := h.ids v node hnode
    have hkeep : ∀ input ∈ node.inputs, (rank live input.toNat : Int) = input := by
      intro input hinput
      obtain ⟨hnonneg, hlt⟩ := hinputs v node (hall v hv) hnode input hinput
      rw [hrank _ (by omega)]
      omega
    have hself : (rank live node.id.toNat : Int) = node.id := by
      rw [hid, Int.toNat_natCast, hrank v (by omega)]
    have hout : node.output = { node.output with id := node.id } := by
      rw [hid, ← hids v node hnode]
    rw [Node.renamed, hself, map_eq_self hkeep, ← hout]
  have houtputs : (m.outputs.map fun output => (rank live output.toNat : Int)) = m.outputs := by
    apply map_eq_self
    intro output hmem
    obtain ⟨hnonneg, hlt⟩ := hrange output hmem
    rw [hrank _ (by omega)]
    omega
  rw [hres, hkept, hzero, hnodes, houtputs]

/-- Along a renumbering live nodes stay live. -/
theorem Renumbered.live (hr : Renumbered m m' rename) {v : Nat} (hv : Live m v) :
    Live m' (rename v) := by
  have hlt : ∀ {v : Nat}, Live m v → rename v < (m'.nodes.map Node.inputs).length := by
    intro v hv
    obtain ⟨node', hnode', _⟩ := hr.kept v _ hv (List.getElem?_eq_getElem hv.lt)
    rw [List.length_map]
    exact (List.getElem?_eq_some_iff.mp hnode').1
  induction hv with
  | @root v hroot hv =>
      refine .root ?_ (hlt (.root hroot hv))
      rw [hr.outputs]
      exact List.mem_map.mpr ⟨(v : Int), hroot, by rw [Int.toNat_natCast]⟩
  | @edge u v out hu hout hedge hv ih =>
      have hlive : Live m v := .edge hu hout hedge hv
      have hult := Live.lt hu
      have hnode : m.nodes[u]? = some m.nodes[u] := List.getElem?_eq_getElem hult
      obtain ⟨node', hnode', _, _, _, _, _, hrenamed⟩ := hr.kept u _ hu hnode
      rw [List.getElem?_map, hnode, Option.map_some, Option.some.injEq] at hout
      refine .edge ih (by rw [List.getElem?_map, hnode', Option.map_some]) ?_ (hlt hlive)
      rw [hrenamed, hout]
      exact List.mem_map.mpr ⟨(v : Int), hedge, by rw [Int.toNat_natCast]⟩

/-- After the pass a second one does nothing. -/
theorem Renumbered.eliminated_again (hr : Renumbered m m' rename) (hne : m.outputs ≠ [])
    (hrange : OutputsInRange m) (hinputs : LiveInputsInRange m) :
    m'.deadCodeEliminate = some (0, m') := by
  have hlt : ∀ {v : Nat}, Live m v → rename v < m'.nodes.length :=
    fun hv => (hr.live hv).lt
  refine hr.indexed.eliminated_all ?_ ?_ ?_ ?_ hr.outputIds
  · rw [hr.outputs]
    simpa using hne
  · intro output hmem
    rw [hr.outputs] at hmem
    obtain ⟨before, hbefore, rfl⟩ := List.mem_map.mp hmem
    obtain ⟨v, rfl, hv⟩ := hrange.live hbefore
    have hlt := hlt hv
    rw [Int.toNat_natCast]
    omega
  · intro j node' _ hnode' input hinput
    obtain ⟨v, hv, rfl⟩ := hr.onto j (List.getElem?_eq_some_iff.mp hnode').1
    have hvlt := hv.lt
    have hnode : m.nodes[v]? = some m.nodes[v] := List.getElem?_eq_getElem hvlt
    obtain ⟨node'', hnode'', _, _, _, _, _, hrenamed⟩ := hr.kept v _ hv hnode
    rw [hnode', Option.some.injEq] at hnode''
    subst hnode''
    rw [hrenamed] at hinput
    obtain ⟨before, hbefore, rfl⟩ := List.mem_map.mp hinput
    obtain ⟨u, rfl, hu⟩ := hinputs.live hv hnode hbefore
    have hlt := hlt hu
    rw [Int.toNat_natCast]
    omega
  · intro j hj
    obtain ⟨v, hv, rfl⟩ := hr.onto j hj
    exact hr.live hv

/-- **Dead code elimination is exact.**  On every module with positions as ids and
some output, the worklist loop ends with the reachable nodes marked.  With ids in
range the pass returns the number of the others and renumbers the reachable ones in
order, and a second call changes nothing. -/
theorem dead_code_exact (h : m.Indexed) (hne : m.outputs ≠ []) :
    ∃ live, m.liveNodes = some live ∧ live.length = m.nodes.length ∧
      (∀ v : Nat, live[v]? = some true ↔ Live m v) ∧
      (OutputsInRange m → LiveInputsInRange m →
        ∃ m' rename, m.deadCodeEliminate = some (live.count false, m') ∧
          Renumbered m m' rename ∧ m'.deadCodeEliminate = some (0, m')) := by
  obtain ⟨live, hmark, hsize, hlive⟩ :=
    GraphMarking.mark_exact (m.nodes.map Node.inputs) m.outputs
  refine ⟨live, hmark, by simpa using hsize, hlive, ?_⟩
  intro hrange hinputs
  obtain ⟨removed, m', rename, hres, hr, live', hmark', _, hremoved⟩ :=
    h.renumbered hne hrange hinputs
  have hsame : live' = live := Option.some.inj (hmark'.symm.trans hmark)
  subst hsame
  exact ⟨m', rename, hremoved ▸ hres, hr, hr.eliminated_again hne hrange hinputs⟩

/-- A node that uses itself, a live one with it as input, and a dead one. -/
theorem dead_code_exact_example :
    let shape : Shape := { dims := [2] }
    let m : Module Int :=
      ⟨[⟨0, .relu, [7], ⟨0, shape, "dead"⟩, [], []⟩,
        ⟨1, .relu, [1], ⟨1, shape, "loop"⟩, [], []⟩,
        ⟨2, .relu, [1], ⟨2, shape, "live"⟩, [], []⟩], [2]⟩
    ∃ live m' rename, m.liveNodes = some live ∧
      m.deadCodeEliminate = some (live.count false, m') ∧ Renumbered m m' rename ∧
        m'.deadCodeEliminate = some (0, m') := by
  intro shape m
  obtain ⟨live, hmark, _, hlive, hpass⟩ := dead_code_exact (m := m)
    (Module.indexed_of_ids rfl (show 3 ≤ 2 ^ 31 by omega)) (by decide)
  have hmarked : live = [false, true, true] :=
    Option.some.inj (hmark.symm.trans (by decide +kernel))
  have hinputs : LiveInputsInRange m := by
    intro v node hv hnode
    have hv' := (hlive v).mpr hv
    rw [hmarked] at hv'
    match v, hv', hnode with
    | 0, hv', _ => cases hv'
    | 1, _, hnode => cases hnode; decide
    | 2, _, hnode => cases hnode; decide
  have hrange : OutputsInRange m := by
    intro output hmem
    rw [List.mem_singleton.mp hmem]
    decide
  obtain ⟨m', rename, hres, hr, hagain⟩ := hpass hrange hinputs
  exact ⟨live, m', rename, hmark, hres, hr, hagain⟩

/-! ## Subscripts out of range -/

/-- The subscripts with an entry. -/
theorem intAt_isSome_iff {β : Type} {xs : List β} {id : Int} :
    (intAt xs id).isSome ↔ 0 ≤ id ∧ id < xs.length := by
  unfold intAt
  split
  · rw [Option.isSome_iff_ne_none, ne_eq, List.getElem?_eq_none_iff]
    omega
  · simp only [Option.isSome_none, Bool.false_eq_true, false_iff]
    omega

/-- A list is renamed when each of its ids has an entry in the table. -/
theorem remapAll_isSome_iff {remap ids : List Int} :
    (remapAll remap ids).isSome ↔ ∀ id ∈ ids, 0 ≤ id ∧ id < remap.length := by
  induction ids with
  | nil => simp [remapAll]
  | cons id rest ih =>
      rw [remapAll, List.forall_mem_cons, ← ih, ← intAt_isSome_iff]
      cases intAt remap id with
      | none => simp
      | some id' => simp

/-- The copy loop ends when each id has a mark. -/
theorem keepLive_isSome_iff {live : List Bool} {nodes : List (Node α)} {st : Keeping α} :
    (keepLive live nodes st).isSome ↔ ∀ node ∈ nodes, 0 ≤ node.id ∧ node.id < live.length := by
  induction nodes generalizing st with
  | nil => simp [keepLive]
  | cons node rest ih =>
      rw [keepLive, List.forall_mem_cons, ← intAt_isSome_iff]
      cases intAt live node.id with
      | none => simp
      | some marked => cases marked <;> simp [ih]

/-- The copy loop keeps the size of the table and copies nodes of the module. -/
theorem keepLive_copied {live : List Bool} {nodes : List (Node α)} {st st' : Keeping α}
    (h : keepLive live nodes st = some st') :
    st'.remap.length = st.remap.length ∧ ∀ node ∈ st'.kept, node ∈ st.kept ∨ node ∈ nodes := by
  induction nodes generalizing st with
  | nil =>
      cases h
      exact ⟨rfl, fun node hmem => Or.inl hmem⟩
  | cons node rest ih =>
      rw [keepLive] at h
      split at h
      · cases h
      · obtain ⟨hsize, hkept⟩ := ih h
        refine ⟨by rw [hsize, List.length_set], fun node' hmem => ?_⟩
        have hfrom := hkept node' hmem
        simp only [List.mem_append, List.mem_singleton] at hfrom
        grind
      · obtain ⟨hsize, hkept⟩ := ih h
        refine ⟨hsize, fun node' hmem => ?_⟩
        exact (hkept node' hmem).imp id (List.mem_cons_of_mem _)

/-- The nodes are renamed when their ids and inputs have entries. -/
theorem renumber_isSome {remap : List Int} {nodes : List (Node α)}
    (h : ∀ node ∈ nodes, ∀ id, id = node.id ∨ id ∈ node.inputs →
      0 ≤ id ∧ id < remap.length) : (renumber remap nodes).isSome := by
  induction nodes with
  | nil => rfl
  | cons node rest ih =>
      have hnode := h node List.mem_cons_self
      obtain ⟨id, hid⟩ :=
        Option.isSome_iff_exists.mp (intAt_isSome_iff.mpr (hnode node.id (Or.inl rfl)))
      obtain ⟨inputs, hinputs⟩ := Option.isSome_iff_exists.mp
        (remapAll_isSome_iff.mpr fun input hmem => hnode input (Or.inr hmem))
      have hrest := ih fun node' hmem => h node' (List.mem_cons_of_mem _ hmem)
      rw [renumber, hid, hinputs, Option.isSome_map]
      exact hrest

/-- The inputs of an accepted node are smaller than its id. -/
theorem input_lt_of_validate (h : validate m = .ok []) {node : Node α} (hmem : node ∈ m.nodes)
    {input : Int} (hinput : input ∈ node.inputs) : 0 ≤ input ∧ input < node.id := by
  have herrors := (checks_of_nodeErrors (nodeErrors_of_errorsOf h hmem)).2.1
  rw [inputErrors, List.map_eq_nil_iff, List.filter_eq_nil_iff] at herrors
  have hbounds := herrors input hinput
  rw [decide_eq_true_eq] at hbounds
  omega

/-- The pass on an accepted module with some output: every subscript is in range when
the ids of nodes and outputs are. -/
theorem eliminated_isSome_iff (h : validate m = .ok []) (hne : m.outputs ≠ []) :
    m.deadCodeEliminate.isSome ↔
      (∀ node ∈ m.nodes, 0 ≤ node.id ∧ node.id < m.nodes.length) ∧ OutputsInRange m := by
  obtain ⟨live, hmark, hsize, _⟩ := GraphMarking.mark_exact (m.nodes.map Node.inputs) m.outputs
  rw [List.length_map] at hsize
  have hids := @keepLive_isSome_iff α live m.nodes
    ⟨[], List.replicate m.nodes.length (-1), 0⟩
  rw [hsize] at hids
  rw [Module.deadCodeEliminate, if_neg hne, Module.liveNodes, hmark, ← hids]
  cases hkeep : keepLive live m.nodes ⟨[], List.replicate m.nodes.length (-1), 0⟩ with
  | none => simp [hkeep]
  | some st =>
      obtain ⟨htable, hkept⟩ := keepLive_copied hkeep
      rw [List.length_replicate] at htable
      rw [hkeep] at hids
      have hnodes : (renumber st.remap st.kept).isSome := by
        apply renumber_isSome
        intro node hmem id hid
        have hmem : node ∈ m.nodes := (hkept node hmem).resolve_left List.not_mem_nil
        have hnode := hids.mp rfl node hmem
        rw [htable]
        rcases hid with rfl | hinput
        · exact hnode
        · have hbefore := input_lt_of_validate h hmem hinput
          omega
      obtain ⟨nodes, hnodes⟩ := Option.isSome_iff_exists.mp hnodes
      have houtputs := @remapAll_isSome_iff st.remap m.outputs
      rw [htable] at houtputs
      rw [OutputsInRange, ← houtputs]
      simp only [hkeep, hnodes]
      cases remapAll st.remap m.outputs with
      | none => simp
      | some outputs => simp

/-- `validate` does not look at the outputs. -/
theorem validate_setOutputs (h : validate m = .ok []) (outputs : List Int) :
    validate (m.setOutputs outputs) = .ok [] := by
  have hsame : ∀ nodes : List (Node α),
      errorsOf (m.setOutputs outputs) nodes = errorsOf m nodes := by
    intro nodes
    induction nodes with
    | nil => rfl
    | cons node rest ih =>
        have hnode : nodeErrors (m.setOutputs outputs) node = nodeErrors m node := rfl
        simp only [errorsOf, hnode, ih]
  exact (hsame m.nodes).trans h

/-- **When dead code elimination stays in bounds.**  On a module that `validate`
accepts every subscript is in range if and only if no outputs are set, or all ids of
nodes and all outputs are below the number of nodes. -/
theorem dead_code_in_bounds_iff (h : validate m = .ok []) (outputs : List Int) :
    (m.setOutputs outputs).deadCodeEliminate ≠ none ↔
      outputs = [] ∨ (∀ node ∈ m.nodes, 0 ≤ node.id ∧ node.id < m.nodes.length) ∧
        ∀ output ∈ outputs, 0 ≤ output ∧ output < m.nodes.length := by
  rw [← Option.isSome_iff_ne_none]
  by_cases hempty : outputs = []
  · rw [Module.deadCodeEliminate, if_pos (show (m.setOutputs outputs).outputs = [] from hempty)]
    simp [hempty]
  · rw [eliminated_isSome_iff (validate_setOutputs h outputs) hempty]
    simp only [hempty, false_or]
    rfl

/-- A parameter, kept. -/
theorem dead_code_in_bounds_iff_example :
    let m : Module Int := ⟨[⟨0, .parameter, [], ⟨0, { dims := [2] }, "x"⟩, [], []⟩], []⟩
    (m.setOutputs [0]).deadCodeEliminate ≠ none := by
  intro m
  exact (dead_code_in_bounds_iff (show validate m = .ok [] from rfl) [0]).mpr
    (Or.inr (by decide))

/-- **A negative output is a subscript of the table.** -/
theorem dead_code_out_of_bounds :
    ¬ ∀ m : Module Int, validate m = .ok [] → ∀ outputs,
      (m.setOutputs outputs).deadCodeEliminate ≠ none := by
  intro hclaim
  let m : Module Int := ⟨[⟨0, .parameter, [], ⟨0, { dims := [2] }, "x"⟩, [], []⟩], []⟩
  exact hclaim m rfl [-1] (by decide +kernel)

end Gpuforge.Compiler

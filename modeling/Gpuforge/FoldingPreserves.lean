import Gpuforge.FoldingMeaning

/-!
# When constant folding preserves the arrays

Folding combines payloads of the same length entry by entry, which is what
broadcasting does only if neither operand is stretched.  A column and a row of
the same length are folded into their entrywise sum, not into the square that
the module declares (`fold_breaks_broadcast`).

This is the only defect: the arrays and the payload sizes are preserved exactly
when no binary node stretches two constant expressions with equally many
elements (`folding_preserves_iff`).
-/

namespace Gpuforge.Compiler

variable {α : Type} {s : Scalar α} {m m' : Module α} {v : Nat} {node : Node α}

/-! ## Sizes -/

/-- A binary node of operands with equally many elements declares that many
exactly when the operands have the same axes. -/
theorem Accepted.elements_iff (h : Accepted m) (hnode : m.nodes[v]? = some node)
    (hop : IsBinary node.op) {a b : Nat} (hinputs : node.inputs = [(a : Int), (b : Int)])
    {lhs rhs : Node α} (hlhs : m.nodes[a]? = some lhs) (hrhs : m.nodes[b]? = some rhs)
    (hpos : 0 < lhs.output.shape.elements)
    (hsame : lhs.output.shape.elements = rhs.output.shape.elements) :
    node.output.shape.elements = lhs.output.shape.elements ↔
      SameAxes lhs.output.shape rhs.output.shape := by
  obtain ⟨shape, hinfer, hdims⟩ := h.broadcast hnode hop hinputs hlhs hrhs
  rw [← broadcast_elements_iff hinfer hpos hsame, Shape.elements, hdims, ← Shape.elements]

/-- Without stretched constants every payload fills its shape. -/
theorem Folded.sized (h : Accepted m) (hw : WellShaped m) (hf : Folded s m m')
    (hun : Unstretched m) {node' : Node α} (hnode' : m'.nodes[v]? = some node') :
    node'.Sized := by
  induction v using Nat.strongRecOn generalizing node' with
  | ind v ih =>
      obtain ⟨node, folded, hnode, hfolded, rfl⟩ := hf.before hnode'
      cases folded with
      | none => exact hw.payloads v node hnode
      | some data =>
          intro _
          right
          rw [Node.after_output]
          cases Folded.foldsFrom h hf hnode (foldsTo_of_foldedData hfolded) with
          | @unary u _ _ hop hinputs hlt hinput hinput' hout hpayload =>
              rw [hw.unary hnode hop hinputs hinput, ← hout,
                ← ((ih u hlt hinput').volume hpayload).2.1]
              simp [Node.after]
          | @binary a b lhs _ rhs _ hop hinputs hav hbv hlhs hlhs' hlout hrhs hrhs' hrout hleft
              hright hlength =>
              obtain ⟨hpos, hllen, _⟩ := (ih a hav hlhs').volume hleft
              obtain ⟨_, hrlen, _⟩ := (ih b hbv hrhs').volume hright
              rw [hlout] at hpos hllen
              rw [hrout] at hrlen
              have hsame : lhs.output.shape.elements = rhs.output.shape.elements := by omega
              have hbelow : SizedBelow m' v := fun w hw' _ => ih w hw'
              have haxes := hun v a b node lhs rhs hnode hop hinputs hlhs hrhs
                (hf.constantExpr h (hbelow.mono (Nat.le_of_lt hav)) hlhs' hleft)
                (hf.constantExpr h (hbelow.mono (Nat.le_of_lt hbv)) hrhs' hright) hsame
              rw [(h.elements_iff hnode hop hinputs hlhs hrhs hpos hsame).mpr haxes]
              simp only [Node.after, List.length_zipWith]
              omega

/-- Sized payloads leave no stretched constants. -/
theorem Folded.unstretched (h : Accepted m) (hf : Folded s m m')
    (hsized : ∀ (u : Nat) (node' : Node α), m'.nodes[u]? = some node' → node'.Sized) :
    Unstretched m := by
  intro v a b node lhs rhs hnode hop hinputs hlhs hrhs ha hb hsame
  have hbelow : ∀ w, SizedBelow m' w := fun w u _ => hsized u
  obtain ⟨lhs', hlhs', hleft⟩ := hf.payload h ha (hbelow a)
  obtain ⟨rhs', hrhs', hright⟩ := hf.payload h hb (hbelow b)
  have hlength := hf.lengths_eq hlhs hrhs hlhs' hrhs' hleft hright
    (hsized a _ hlhs') (hsized b _ hrhs') hsame
  have hfold : FoldsTo s m' node _ :=
    .binary hop hinputs (by rw [Module.node, intAt_natCast]; exact hlhs')
      (by rw [Module.node, intAt_natCast]; exact hrhs') hleft hright hlength
  obtain ⟨hpos, hllen, _⟩ := (hsized a _ hlhs').volume hleft
  obtain ⟨_, hl, hlout⟩ := hf.output hlhs
  rw [hlhs', Option.some.injEq] at hl
  subst hl
  rw [hlout] at hpos hllen
  apply (h.elements_iff hnode hop hinputs hlhs hrhs hpos hsame).mp
  -- the folded payload has the length of the operands
  obtain ⟨hnode', hpayload⟩ := hf.of_foldsTo hnode hfold
  have hfilled := ((hsized v _ hnode').volume hpayload).2.1
  simp only [Node.after, List.length_zipWith] at hfilled
  omega

/-! ## Arrays -/

section arrays

variable {given : Nat → Nat → Option α} {other : OtherOps α}

/-- The folded module is a forward graph. -/
theorem Folded.forward (h : Accepted m) (hf : Folded s m m') :
    Dataflow.Forward Node.args m'.nodes := by
  intro v node' hnode' a ha
  obtain ⟨node, folded, hnode, _, rfl⟩ := hf.before hnode'
  obtain ⟨id, hid, rfl⟩ := List.mem_map.mp ha
  exact h.forward v node hnode _ (List.mem_map.mpr ⟨id, Node.mem_after_inputs hid, rfl⟩)

/-- The array of a node with a payload. -/
theorem array_of_payload (hfwd : Dataflow.Forward Node.args m.nodes)
    (hnode : m.nodes[v]? = some node) (hpayload : node.HasPayload) :
    (m.arrays s given other)[v]? =
      some (arrayOver node.output.shape.dims fun j => node.constantData[j]?) := by
  rw [Module.arrays, Dataflow.evaluate_eq _ hfwd hnode, nodeArray_payload hpayload]

/-- A folded unary node: its input is a payload of its volume. -/
theorem nodeArray_unary_payload (hop : IsUnary node.op) {dims : List Int} {data : List α}
    (hvolume : volume node.output.shape.dims = volume dims) :
    nodeArray s given other node [some (arrayOver dims fun j => data[j]?)] =
      arrayOver node.output.shape.dims fun j => (data.map (s.unary node.op))[j]? := by
  rw [nodeArray_unary hop]
  apply arrayOver_congr
  intro j hj
  rw [arrayOver_entries (hvolume ▸ hj), List.getElem?_map]

/-- A folded binary node: both operands are payloads that are read in place. -/
theorem nodeArray_binary_payload (hop : IsBinary node.op) {ldims rdims : List Int}
    {ldata rdata : List α} (hpos : ∀ d ∈ node.output.shape.dims, 0 < d)
    (hlaxes : axes ldims node.output.shape.dims.length =
      axes node.output.shape.dims node.output.shape.dims.length)
    (hraxes : axes rdims node.output.shape.dims.length =
      axes node.output.shape.dims node.output.shape.dims.length)
    (hlvolume : volume node.output.shape.dims = volume ldims)
    (hrvolume : volume node.output.shape.dims = volume rdims) :
    nodeArray s given other node
        [some (arrayOver ldims fun j => ldata[j]?), some (arrayOver rdims fun j => rdata[j]?)] =
      arrayOver node.output.shape.dims
        fun j => (List.zipWith (s.binary node.op) ldata rdata)[j]? := by
  rw [nodeArray_binary hop]
  apply arrayOver_congr
  intro j hj
  rw [broadcastEntries, broadcastAt_self (x := arrayOver ldims _) hlaxes hpos hj,
    broadcastAt_self (x := arrayOver rdims _) hraxes hpos hj,
    arrayOver_entries (hlvolume ▸ hj), arrayOver_entries (hrvolume ▸ hj),
    List.getElem?_zipWith]
  cases ldata[j]? <;> cases rdata[j]? <;> rfl

/-- A folded node denotes its payload before the pass, if its operands do. -/
theorem Folded.array_folded (h : Accepted m) (hw : WellShaped m) (hf : Folded s m m')
    (hun : Unstretched m) (hnode : m.nodes[v]? = some node) {data : List α}
    (hfold : FoldsTo s m' node data)
    (hoperand : ∀ (u : Nat) (input' : Node α), u < v → m'.nodes[u]? = some input' →
      input'.HasPayload → (m.arrays s given other)[u]? =
        some (arrayOver input'.output.shape.dims fun j => input'.constantData[j]?)) :
    (m.arrays s given other)[v]? =
      some (arrayOver node.output.shape.dims fun j => data[j]?) := by
  have hvalue := Dataflow.evaluate_eq (nodeArray s given other) h.forward hnode
  rw [← Module.arrays] at hvalue
  obtain ⟨hnode', hpayload⟩ := hf.of_foldsTo hnode hfold
  obtain ⟨hpos, _, hvolume⟩ := (hf.sized h hw hun hnode').volume hpayload
  rw [Node.after_output] at hpos hvolume
  cases Folded.foldsFrom h hf hnode hfold with
  | @unary u _ _ hop hinputs hlt _ hinput' _ hinputPayload =>
      obtain ⟨_, _, hinputVolume⟩ := (hf.sized h hw hun hinput').volume hinputPayload
      have hargs : node.args = [u] := by simp [Node.args, hinputs]
      rw [hvalue, hargs, List.map_singleton, hoperand u _ hlt hinput' hinputPayload,
        nodeArray_unary_payload hop]
      rw [← hvolume, ← hinputVolume]
      simp [Node.after]
  | @binary a b lhs _ rhs _ hop hinputs hav hbv hlhs hlhs' hlout hrhs hrhs' hrout hleft hright
      hlength =>
      obtain ⟨_, hllen, hlvolume⟩ := (hf.sized h hw hun hlhs').volume hleft
      obtain ⟨_, hrlen, hrvolume⟩ := (hf.sized h hw hun hrhs').volume hright
      have hbelow : ∀ w, SizedBelow m' w := fun w u _ _ => hf.sized h hw hun
      have haxes := hun v a b node lhs rhs hnode hop hinputs hlhs hrhs
        (hf.constantExpr h (hbelow a) hlhs' hleft) (hf.constantExpr h (hbelow b) hrhs' hright)
        (by rw [← hlout, ← hrout, ← hllen, ← hrlen, hlength])
      obtain ⟨shape, hinfer, hdims⟩ := h.broadcast hnode hop hinputs hlhs hrhs
      obtain ⟨hlaxes, hraxes⟩ := haxes.broadcast hinfer
      rw [← hlout] at hlaxes
      rw [← hrout] at hraxes
      have hargs : node.args = [a, b] := by simp [Node.args, hinputs]
      rw [hvalue, hargs, List.map_cons, List.map_singleton, hoperand a _ hav hlhs' hleft,
        hoperand b _ hbv hrhs' hright]
      congr 1
      apply nodeArray_binary_payload hop (elements_eq_volume hpos).2.1
      · rw [hlaxes.axes_eq, hdims]
      · rw [hraxes.axes_eq, hdims]
      · rw [← hvolume, ← hlvolume]
        simp [Node.after, hlength]
      · rw [← hvolume, ← hrvolume]
        simp [Node.after, hlength]

/-- **Arrays are preserved** when no constants are stretched. -/
theorem Folded.array (h : Accepted m) (hw : WellShaped m) (hf : Folded s m m')
    (hun : Unstretched m) (hv : v < m.nodes.length) :
    (m'.arrays s given other)[v]? = (m.arrays s given other)[v]? := by
  have hfwd := Folded.forward h hf
  induction v using Nat.strongRecOn with
  | ind v ih =>
      obtain ⟨node, hnode⟩ : ∃ node, m.nodes[v]? = some node :=
        ⟨m.nodes[v], List.getElem?_eq_getElem hv⟩
      obtain ⟨folded, hfolded, hnode'⟩ := hf.turns v node hnode
      cases folded with
      | none =>
          rw [Module.arrays, Module.arrays, Dataflow.evaluate_eq _ hfwd hnode',
            Dataflow.evaluate_eq _ h.forward hnode]
          congr 2
          apply List.map_congr_left
          intro u hu
          have hlt := h.forward v node hnode u hu
          exact ih u hlt (Nat.lt_trans hlt hv)
      | some data =>
          have hfold := foldsTo_of_foldedData hfolded
          rw [array_of_payload hfwd hnode' (hf.of_foldsTo hnode hfold).2, Node.after_output,
            hf.array_folded h hw hun hnode hfold]
          · rfl
          · intro u input' hu hinput' hpayload
            rw [← ih u hu (Nat.lt_trans hu hv)]
            exact array_of_payload hfwd hinput' hpayload

end arrays

/-! ## The condition -/

/-- **When folding preserves the module.**  On an accepted module whose shapes
fit, the pass throws nothing, and all arrays and payload sizes are preserved
exactly when no binary node stretches two constant expressions with equally
many elements. -/
theorem folding_preserves_iff (s : Scalar α) (h : Accepted m) (hw : WellShaped m) :
    ∃ m', m.constantFold s = (.ok (), m') ∧ (Preserves s m m' ↔ Unstretched m) := by
  obtain ⟨m', hres, hf⟩ := h.folded (s := s)
  refine ⟨m', hres, fun hpreserves => hf.unstretched h hpreserves.payloads, fun hun => ?_⟩
  refine ⟨fun given other => List.ext_getElem? fun v => ?_, fun v node => hf.sized h hw hun⟩
  by_cases hv : v < m.nodes.length
  · exact hf.array h hw hun hv
  · have hlen : (m'.arrays s given other).length = (m.arrays s given other).length := by
      rw [Module.arrays, Module.arrays, Dataflow.length_evaluate, Dataflow.length_evaluate,
        hf.size]
    have hout : (m.arrays s given other).length ≤ v := by
      rw [Module.arrays, Dataflow.length_evaluate]
      omega
    rw [List.getElem?_eq_none (hlen ▸ hout), List.getElem?_eq_none hout]

/-- Two constants of the same dims, their sum and its `Relu`: all is preserved. -/
theorem folding_preserves_iff_example :
    let s : Scalar Int := ⟨0, 0, 1, 2, (· + ·), (· * ·), (· / ·), max, id, id⟩
    let shape : Shape := { dims := [2] }
    let m : Module Int :=
      ⟨[⟨0, .constant, [], ⟨0, shape, "lhs"⟩, [], [1, -2]⟩,
        ⟨1, .constant, [], ⟨1, shape, "rhs"⟩, [], [3, 4]⟩,
        ⟨2, .add, [0, 1], ⟨2, shape, "v2"⟩, [], []⟩,
        ⟨3, .relu, [2], ⟨3, shape, "v3"⟩, [], []⟩], []⟩
    ∃ m', m.constantFold s = (.ok (), m') ∧ Preserves s m m' := by
  intro s shape m
  have haccepted : Accepted m :=
    ⟨Module.indexed_of_ids rfl (show 4 ≤ 2 ^ 31 by omega), rfl⟩
  have hshape : ∀ (v : Nat) (node : Node Int), m.nodes[v]? = some node →
      node.output.shape = shape := by
    intro v node hnode
    have hmem := List.mem_of_getElem? hnode
    simp only [m, List.mem_cons, List.not_mem_nil, or_false] at hmem
    rcases hmem with rfl | rfl | rfl | rfl <;> rfl
  have hwell : WellShaped m := by
    refine ⟨fun v node hnode => ?_, fun v u node input hnode _ _ hinput => ?_,
      fun v u node input hnode _ _ hinput => ?_⟩
    · have hmem := List.mem_of_getElem? hnode
      simp only [m, List.mem_cons, List.not_mem_nil, or_false] at hmem
      rcases hmem with rfl | rfl | rfl | rfl <;> simp [Node.Sized, shape] <;> decide
    · rw [hshape v node hnode, hshape u input hinput]
    · rw [hshape v node hnode, hshape u input hinput]
  have hun : Unstretched m := by
    intro v a b node lhs rhs _ _ _ hlhs hrhs _ _ _ k
    rw [hshape a lhs hlhs, hshape b rhs hrhs]
  obtain ⟨m', hres, hiff⟩ := folding_preserves_iff s haccepted hwell
  exact ⟨m', hres, hiff.mpr hun⟩

/-- A column and a row of length 2 and their sum: the pass leaves 2 entries for
the 4 of the declared square. -/
theorem fold_breaks_broadcast :
    ¬ ∀ (s : Scalar Int) (m : Module Int), Accepted m → WellShaped m →
      ∀ m', m.constantFold s = (.ok (), m') →
        ∀ (given : Nat → Nat → Option Int) (other : OtherOps Int),
          m'.arrays s given other = m.arrays s given other := by
  intro hclaim
  let s : Scalar Int := ⟨0, 0, 1, 2, (· + ·), (· * ·), (· / ·), max, id, id⟩
  let column : Node Int := ⟨0, .constant, [], ⟨0, { dims := [2, 1] }, "column"⟩, [], [1, 2]⟩
  let row : Node Int := ⟨1, .constant, [], ⟨1, { dims := [1, 2] }, "row"⟩, [], [10, 20]⟩
  let sum : Node Int := ⟨2, .add, [0, 1], ⟨2, { dims := [2, 2] }, "v2"⟩, [], []⟩
  let m : Module Int := ⟨[column, row, sum], []⟩
  have haccepted : Accepted m :=
    ⟨Module.indexed_of_ids rfl (show 3 ≤ 2 ^ 31 by omega), rfl⟩
  have hmem : ∀ (v : Nat) (node : Node Int), m.nodes[v]? = some node →
      node = column ∨ node = row ∨ node = sum := by
    intro v node hnode
    have hmem := List.mem_of_getElem? hnode
    simpa only [m, List.mem_cons, List.not_mem_nil, or_false] using hmem
  have hwell : WellShaped m := by
    refine ⟨fun v node hnode => ?_, fun v u node input hnode hop => ?_,
      fun v u node input hnode hop => ?_⟩
    · rcases hmem v node hnode with rfl | rfl | rfl <;>
        simp [Node.Sized, column, row, sum] <;> decide
    · rcases hmem v node hnode with rfl | rfl | rfl <;> simp [column, row, sum] at hop
    · rcases hmem v node hnode with rfl | rfl | rfl <;> simp [column, row, sum] at hop
  have hfold : m.constantFold s =
      (.ok (), ⟨[column, row, sum.after (some [11, 22])], []⟩) := rfl
  have harrays := hclaim s m haccepted hwell _ hfold (fun _ _ => none) (fun _ _ _ _ _ => none)
  -- the last entry of the square, 2 + 20, is missing afterwards
  have hentry := congrArg (fun arrays => arrays[2]?.bind fun x => x.entries 3) harrays
  have hbefore : ((m.arrays s (fun _ _ => none) (fun _ _ _ _ _ => none))[2]?.bind
      fun x => x.entries 3) = some 22 := by decide +kernel
  simp only [hbefore] at hentry
  revert hentry
  decide +kernel

end Gpuforge.Compiler

import Mathlib.Analysis.Complex.Exponential
import Mathlib.Analysis.Real.Sqrt
import Gpuforge.AttentionCells
import Gpuforge.FusedAttention

/-!
# The fused kernel computes attention

A thread goes over the keys three times.  The first loop leaves the scores of its
query, the second their exponentials and the sum of them, and the third adds up
the value rows (`scores_loop`, `exponentials_loop`, `valueSum_eq`).  The maximum it
subtracts is at least `-1e30`, which the maximum on the CPU need not be; weights do
not depend on what is subtracted, so the rows are the same.
-/

namespace Gpuforge

open ForLoop GridLaunch ExpWeights

/-- **Sizes within `int`.**  The sizes are positive, there are at most 256 keys,
and the products that index the threads and the matrices are below `2^31`. -/
structure AttentionSizes (queries keys depth values : Nat) : Prop where
  depthPos : 1 ≤ depth
  valuesPos : 1 ≤ values
  queriesPos : 1 ≤ queries
  keysPos : 1 ≤ keys
  keysMax : keys ≤ scoresSize
  threads : (queries + kAttentionBlock - 1) / kAttentionBlock * kAttentionBlock < 2 ^ 31
  query : queries * depth < 2 ^ 31
  key : keys * depth < 2 ^ 31
  value : keys * values < 2 ^ 31
  output : queries * values < 2 ^ 31

/-- Every dimension is an `int`, and there are not too many scores. -/
theorem AttentionSizes.fit {queries keys depth values : Nat}
    (h : AttentionSizes queries keys depth values) :
    queries < 2 ^ 31 ∧ keys < 2 ^ 31 ∧ depth < 2 ^ 31 ∧ values < 2 ^ 31 ∧
      queries * keys < 2 ^ 64 := by
  have hkeysMax := h.keysMax
  have hquery := h.query
  have houtput := h.output
  have hqueries := Nat.le_mul_of_pos_right queries h.depthPos
  have hdepth := Nat.le_mul_of_pos_left depth h.queriesPos
  have hvalues := Nat.le_mul_of_pos_left values h.queriesPos
  have hscores := Nat.mul_le_mul_left queries hkeysMax
  unfold scoresSize at hkeysMax hscores
  exact ⟨by omega, by omega, by omega, by omega, by omega⟩

variable {α : Type} [Field α]

/-- **The arguments hold the matrices.** -/
structure AttentionArgs.Holds (args : AttentionArgs α) (queries keys depth values : Nat)
    (q k v : Nat → Nat → α) : Prop where
  query : DeviceCells args.query queries depth q
  key : DeviceCells args.key keys depth k
  value : DeviceCells args.value keys values v
  outputSize : args.outputSize = queries * values
  queries : args.queries = queries
  keys : args.keys = keys
  depth : args.depth = depth
  valueDim : args.valueDim = values

variable {args : AttentionArgs α} {queries keys depth values : Nat} {q k v : Nat → Nat → α}

/-- A thread computes the product of its query with a key. -/
theorem keyScore_eq (h : args.Holds queries keys depth values q k v)
    (hsizes : AttentionSizes queries keys depth values) {i j : Nat} (hi : i < queries)
    (hj : j < keys) : keyScore args i j = .ok (dot q (fun d j => k j d) i j depth) := by
  obtain ⟨score, hrun, hscore⟩ := upTo_total
    (fun (d : Nat) score => do
      let x ← cellAt args.query i args.depth d
      let y ← cellAt args.key j args.depth d
      .ok (score + x * y))
    0 depth (fun n score => score = dot q (fun d j => k j d) i j n)
    (by
      intro n score _ hn hinv
      refine ⟨_, ?_, rfl⟩
      rw [h.query.cellAt hsizes.query rfl h.depth rfl hi hn, ok_bind,
        h.key.cellAt hsizes.key rfl h.depth rfl hj hn, ok_bind, hinv, dot])
    (Nat.zero_le _) (s := 0) rfl
  rw [keyScore, h.depth, Int.toNat_natCast]
  rw [h.depth] at hrun
  rw [hrun, hscore]

/-- **The second loop** leaves the exponentials and their sum. -/
theorem exponentials_loop (hkeys : keys ≤ scoresSize) (exp : α → α) (maximum : α)
    {scores : Nat → α} {x : Nat → α} (hscores : ∀ j < keys, scores j = x j) :
    ∃ scores', loop (exponentialTurn exp maximum) (upTo 0 keys) (scores, 0)
        = .ok (scores', total exp x maximum keys) ∧
      ∀ j < keys, scores' j = exp (x j - maximum) := by
  obtain ⟨⟨scores', denominator⟩, hrun, hdone, hsum⟩ := upTo_total
    (exponentialTurn exp maximum) 0 keys
    (fun n s => (∀ j < keys, s.1 j = if j < n then exp (x j - maximum) else x j) ∧
      s.2 = total exp x maximum n)
    (by
      intro n s _ hn hinv
      obtain ⟨hdone, hsum⟩ := hinv
      have hsize : n < scoresSize := by omega
      have hread := hdone n hn
      rw [if_neg (Nat.lt_irrefl n)] at hread
      refine ⟨(fun j => if j = n then exp (x n - maximum) else s.1 j,
        s.2 + exp (x n - maximum)), ?_, ?_, ?_⟩
      · rw [exponentialTurn, scoreAt, if_pos hsize, ok_bind, setScore, if_pos hsize, ok_bind,
          scoreAt, if_pos hsize, ok_bind, hread]
        simp
      · intro j hj
        by_cases heq : j = n
        · subst heq
          simp
        · simp only [if_neg heq]
          rw [hdone j hj]
          exact if_congr (by omega) rfl rfl
      · rw [hsum, total_succ])
    (Nat.zero_le _)
    (s := (scores, 0))
    ⟨fun j hj => by simpa using hscores j hj, by simp [total]⟩
  simp only at hsum
  subst hsum
  refine ⟨scores', hrun, ?_⟩
  intro j hj
  simpa [hj] using hdone j hj

/-- **The third loop** gives the entry of the value rows. -/
theorem valueSum_eq (h : args.Holds queries keys depth values q k v)
    (hsizes : AttentionSizes queries keys depth values) {scores : Nat → α} {denominator : α}
    {w : Nat → Nat → α} {i d : Nat} (hd : d < values)
    (hscores : ∀ j < keys, scores j / denominator = w i j) :
    valueSum args scores denominator d = .ok (dot w v i d keys) := by
  have hmax := hsizes.keysMax
  obtain ⟨result, hrun, hresult⟩ := upTo_total
    (fun (keyRow : Nat) result => do
      let score ← scoreAt scores keyRow
      let x ← cellAt args.value keyRow args.valueDim d
      .ok (result + score / denominator * x))
    0 keys (fun n result => result = dot w v i d n)
    (by
      intro n result _ hn hinv
      refine ⟨_, ?_, rfl⟩
      rw [scoreAt, if_pos (by omega), ok_bind,
        h.value.cellAt hsizes.value rfl h.valueDim rfl hn hd, ok_bind, hinv, hscores n hn, dot])
    (Nat.zero_le _) (s := 0) rfl
  rw [valueSum, h.keys, Int.toNat_natCast, hrun, hresult]

section ordered

variable [LinearOrder α]

/-- **The first loop** leaves the scores of the query, and some maximum. -/
theorem scores_loop (h : args.Holds queries keys depth values q k v)
    (hsizes : AttentionSizes queries keys depth values) {i : Nat} (hi : i < queries)
    (s : (Nat → α) × α) :
    ∃ s', loop (scoreTurn args i) (upTo 0 keys) s = .ok s' ∧ ∀ j < keys,
      s'.1 j = maskedScores args.causal (scaledScores q k depth args.scale) i j := by
  have hmax := hsizes.keysMax
  apply upTo_total (scoreTurn args i) 0 keys
    (fun n s => ∀ j < n,
      s.1 j = maskedScores args.causal (scaledScores q k depth args.scale) i j)
  · intro n s _ hn hinv
    have hsize : n < scoresSize := by omega
    refine ⟨(fun j => if j = n then maskedScores args.causal
      (scaledScores q k depth args.scale) i n else s.1 j, max s.2 (maskedScores args.causal
      (scaledScores q k depth args.scale) i n)), ?_, ?_⟩
    · rw [scoreTurn, keyScore_eq h hsizes hi hn, ok_bind, setScore, if_pos hsize, ok_bind,
        scoreAt, if_pos hsize, ok_bind]
      simp [maskedScores, scaledScores]
    · intro j hj
      by_cases heq : j = n
      · subst heq
        simp only [if_true]
      · simp only [if_neg heq]
        exact hinv j (by omega)
  · exact Nat.zero_le _
  · intro j hj
    omega

/-! ## One thread -/

/-- The row of a thread. -/
def attentionRow (blockIdx threadIdx : Idx) : Nat :=
  blockIdx.x * kAttentionBlock + threadIdx.x

/-- The stores of a thread: its row of the output, if it has one. -/
def rowStores (queries values : Nat) (c : Nat → Nat → α) (blockIdx threadIdx : Idx) :
    List (Store α) :=
  if attentionRow blockIdx threadIdx < queries then
    (upTo 0 values).flatMap fun d =>
      [⟨blockIdx, threadIdx, attentionRow blockIdx threadIdx * values + d,
        c (attentionRow blockIdx threadIdx) d⟩]
  else []

/-- The output of attention, with the weights of the CPU. -/
def attentionCell (exp : α → α) (causal : Bool) (scale : α) (q k v : Nat → Nat → α)
    (depth keys i d : Nat) : α :=
  dot (fun i j => softmaxCell exp (maskedScores causal (scaledScores q k depth scale) i) keys j)
    v i d keys

/-- The row of a thread is an `int`. -/
theorem queryRow_eq (hsizes : AttentionSizes queries keys depth values) {blockIdx threadIdx : Idx}
    (hblock : blockIdx.x < (queries + kAttentionBlock - 1) / kAttentionBlock)
    (hthread : threadIdx.x < kAttentionBlock) :
    queryRow blockIdx threadIdx = (attentionRow blockIdx threadIdx : Nat) := by
  have hthreads := hsizes.threads
  have hlt := RowMajor.cell_lt hblock hthread
  exact castInt_of_lt (Nat.lt_trans hlt hthreads)

/-- **A thread stores its row.** -/
theorem qkvAttention_eq {exp : α → α} (hexp : Laws exp) (stack : Idx → Idx → Nat → α)
    (h : args.Holds queries keys depth values q k v)
    (hsizes : AttentionSizes queries keys depth values) {blockIdx threadIdx : Idx}
    (hblock : blockIdx.x < (queries + kAttentionBlock - 1) / kAttentionBlock)
    (hthread : threadIdx.x < kAttentionBlock) :
    qkvAttention exp stack args blockIdx threadIdx = .ok (rowStores queries values
      (attentionCell exp args.causal args.scale q k v depth keys) blockIdx threadIdx) := by
  have houtput := hsizes.output
  simp only [qkvAttention, rowStores, queryRow_eq hsizes hblock hthread, h.queries, h.keys,
    h.valueDim, h.outputSize, Int.toNat_natCast]
  generalize attentionRow blockIdx threadIdx = i
  by_cases hi : i < queries
  · obtain ⟨s, hscores, hs⟩ := scores_loop h hsizes hi
      (stack blockIdx threadIdx, -1000000000000000000000000000000)
    obtain ⟨scores, hexponentials, hvalues⟩ := exponentials_loop hsizes.keysMax exp s.2 hs
    rw [if_neg (by omega), if_pos hi, hscores, ok_bind, hexponentials, ok_bind]
    apply gather_eq
    intro d hd
    have hd' : d < values := (mem_upTo.mp hd).2
    have hcell := RowMajor.cell_lt hi hd'
    have hweights : ∀ j < keys, scores j / total exp
        (maskedScores args.causal (scaledScores q k depth args.scale) i) s.2 keys =
        softmaxCell exp (maskedScores args.causal (scaledScores q k depth args.scale) i) keys j
        := by
      intro j hj
      rw [hvalues j hj]
      exact hexp.weight_shift _ s.2 _ keys j
    have hsum := valueSum_eq (w := fun i j =>
      softmaxCell exp (maskedScores args.causal (scaledScores q k depth args.scale) i) keys j)
      h hsizes hd' hweights
    simp only
    rw [hsum, ok_bind, cellIndex_eq rfl rfl rfl (by omega), ok_bind, writeAt_natCast hcell]
    rfl
  · rw [if_pos (by omega), if_neg hi]

/-! ## The grid -/

omit [Field α] [LinearOrder α] in
/-- **Each cell is written once.** -/
theorem attention_launch_writes (device : Device) (c : Nat → Nat → α) {i d : Nat}
    (hi : i < queries) (hd : d < values) :
    WrittenOnce
      ((device.blocks.turns ((queries + kAttentionBlock - 1) / kAttentionBlock) 1).flatMap
        fun blockIdx => (device.threads.turns kAttentionBlock 1).flatMap
          (rowStores queries values c blockIdx))
      (i * values + d) (c i d) := by
  have hrow : attentionRow ⟨i / kAttentionBlock, 0⟩ ⟨i % kAttentionBlock, 0⟩ = i := by
    simp only [attentionRow, kAttentionBlock]
    omega
  have hindex : ∀ {blockIdx threadIdx : Idx} {store : Store α},
      store ∈ rowStores queries values c blockIdx threadIdx → store.index = i * values + d →
        attentionRow blockIdx threadIdx = i := by
    intro blockIdx threadIdx store hstore hindex
    unfold rowStores at hstore
    split at hstore
    · obtain ⟨d', hd', hstore⟩ := List.mem_flatMap.mp hstore
      rw [upTo, List.mem_range'_1] at hd'
      rw [List.mem_singleton.mp hstore] at hindex
      exact ((RowMajor.cell_inj (by omega) hd).mp hindex).1
    · cases hstore
  apply writtenOnce_flatMap (device.blocks.nodup _ _) (i := ⟨i / kAttentionBlock, 0⟩)
  · apply (device.blocks.mem_iff _ _ _).mpr
    simp only [kAttentionBlock]
    omega
  · intro blockIdx hblock store hstore heq
    obtain ⟨t, ht, hrowStore⟩ := List.mem_flatMap.mp hstore
    have hsame := hindex hrowStore heq
    have hy := ((device.blocks.mem_iff _ _ _).mp hblock).2
    have hx := ((device.threads.mem_iff _ _ _).mp ht).1
    obtain ⟨x, y⟩ := blockIdx
    simp only [attentionRow, kAttentionBlock, Idx.mk.injEq] at *
    omega
  · apply writtenOnce_flatMap (device.threads.nodup _ _) (i := ⟨i % kAttentionBlock, 0⟩)
    · apply (device.threads.mem_iff _ _ _).mpr
      simp only [kAttentionBlock]
      omega
    · intro t ht store hstore heq
      have hsame := hindex hstore heq
      have hxy := (device.threads.mem_iff _ _ _).mp ht
      obtain ⟨x, y⟩ := t
      simp only [attentionRow, kAttentionBlock, Idx.mk.injEq] at *
      omega
    · rw [rowStores, hrow, if_pos hi]
      apply writtenOnce_flatMap List.nodup_range' (i := d)
      · rw [List.mem_range'_1]
        omega
      · intro d' hd' store hstore heq
        rw [List.mem_range'_1] at hd'
        rw [List.mem_singleton.mp hstore] at heq
        exact ((RowMajor.cell_inj (by omega) hd).mp heq).2
      · exact ⟨⟨⟨i / kAttentionBlock, 0⟩, ⟨i % kAttentionBlock, 0⟩, i * values + d, c i d⟩,
          by simp, rfl⟩

omit [Field α] [LinearOrder α] in
/-- No store leaves the output. -/
theorem rowStores_lt {c : Nat → Nat → α} {blockIdx threadIdx : Idx} {store : Store α}
    (hstore : store ∈ rowStores queries values c blockIdx threadIdx) :
    store.index < queries * values := by
  unfold rowStores at hstore
  split at hstore
  · rename_i hrow
    obtain ⟨d, hd, hstore⟩ := List.mem_flatMap.mp hstore
    rw [upTo, List.mem_range'_1] at hd
    rw [List.mem_singleton.mp hstore]
    exact RowMajor.cell_lt hrow (by omega)
  · cases hstore

/-- **What `attention_cuda` does.**  It writes the output of attention. -/
theorem attentionCuda_writes (math : FloatMath α) (hexp : Laws math.exp) (device : Device)
    (fresh : Nat → α) (stack : Idx → Idx → Nat → α) (config : AttentionConfig α)
    {query key value : Tensor α} (hsizes : AttentionSizes queries keys depth values)
    (hquery : query.Cells queries depth q) (hkey : key.Cells keys depth k)
    (hvalue : value.Cells keys values v) :
    ∃ launched, attentionCuda math device fresh stack query key value config = .ok launched ∧
      launched.Writes queries values (attentionCell math.exp config.causal
        (scaleOf math config depth) q k v depth keys) ∧
      launched.output.Cells queries values (attentionCell math.exp config.causal
        (scaleOf math config depth) q k v depth keys) := by
  have hthreads := hsizes.threads
  have houtput := hsizes.output
  have hkeysMax := hsizes.keysMax
  obtain ⟨hqueries, hkeys, hdepth, hvalues, _⟩ := hsizes.fit
  have hrounded : queries + kAttentionBlock - 1 < 2 ^ 31 := by
    unfold kAttentionBlock at *
    omega
  have hpos : 1 ≤ kAttentionBlock := by decide
  obtain ⟨output, hnew, hzero⟩ := Tensor.new_cells (α := α) (by omega : queries < 2 ^ 64)
    (by omega : queries * values < 2 ^ 64)
  have hnumel : output.numel = queries * values := (Tensor.length_of_matrix hzero.shape).1
  let args : AttentionArgs α := ⟨query.storage, key.storage, value.storage, queries * values,
    queries, keys, depth, values, scaleOf math config depth, config.causal⟩
  have hargs : args.Holds queries keys depth values q k v :=
    ⟨hquery.cells, hkey.cells, hvalue.cells, rfl, rfl, rfl, rfl, rfl⟩
  let blocks := device.blocks.turns ((queries + kAttentionBlock - 1) / kAttentionBlock) 1
  let stores := blocks.flatMap fun blockIdx =>
    (device.threads.turns kAttentionBlock 1).flatMap (rowStores queries values
      (attentionCell math.exp config.causal (scaleOf math config depth) q k v depth keys)
      blockIdx)
  have hgather : gather (fun blockIdx =>
      gather (qkvAttention math.exp stack args blockIdx)
        (device.threads.turns kAttentionBlock 1)) blocks = .ok stores := by
    apply gather_eq
    intro blockIdx hblock
    apply gather_eq
    intro t ht
    exact qkvAttention_eq hexp stack hargs hsizes ((device.blocks.mem_iff _ _ _).mp hblock).1
      ((device.threads.mem_iff _ _ _).mp ht).1
  have hwrites : (copyBack fresh stores output).Writes queries values
      (attentionCell math.exp config.causal (scaleOf math config depth) q k v depth keys) := by
    refine ⟨fun i hi d hd => attention_launch_writes device _ hi hd, ?_⟩
    intro store hstore
    obtain ⟨blockIdx, _, hstore⟩ := List.mem_flatMap.mp hstore
    obtain ⟨t, _, hrow⟩ := List.mem_flatMap.mp hstore
    exact rowStores_lt hrow
  refine ⟨copyBack fresh stores output, ?_, hwrites, hwrites.copied hzero.shape⟩
  rw [attentionCuda, hquery.shape, hkey.shape, hvalue.shape]
  simp only [ne_eq, not_true_eq_false, false_or]
  rw [if_neg (by omega), castInt_of_lt hqueries, castInt_of_lt hkeys,
    castInt_of_lt hdepth, castInt_of_lt hvalues,
    castSize_natCast (by omega), castSize_natCast (by omega), hnew, ok_bind,
    wrapInt_rounded hpos hrounded,
    ← Int.ofNat_tdiv, castUnsigned_natCast, hnumel, Int.cast_natCast]
  · exact congrArg (fun result => result >>= fun stores =>
      Except.ok (copyBack fresh stores output)) hgather
  · exact Nat.lt_of_le_of_lt (Nat.div_le_self _ _) hrounded

/-- **The fused kernel is attention.**  For positive sizes, at most 256 keys, and
index products within `int`, with any scale, causal or not, over a field with an
order and an `exp` that is positive and takes sums to products: `attention_cuda` and
`attention` both succeed, each cell of the output is written exactly once, with the
value `attention` has there, and both return the same tensor. -/
theorem attention_cuda_is_attention (math : FloatMath α)
    (hexp : Laws math.exp) (device : Device) (fresh : Nat → α) (stack : Idx → Idx → Nat → α)
    (config : AttentionConfig α) {query key value : Tensor α}
    (hquery : query.shape = [queries, depth]) (hkey : key.shape = [keys, depth])
    (hvalue : value.shape = [keys, values]) (hsizes : AttentionSizes queries keys depth values) :
    ∃ launched output,
      attentionCuda math device fresh stack query key value config = .ok launched ∧
      attention math query key value config = .ok output ∧ launched.output = output ∧
      launched.Writes queries values (output.entry values) := by
  have houtput := hsizes.output
  obtain ⟨hqueries, hkeys, hdepth, hvalues, hscores⟩ := hsizes.fit
  obtain ⟨launched, hlaunch, hwrites, hcells⟩ := attentionCuda_writes math hexp device fresh
    stack config hsizes (Tensor.cells_entry hquery) (Tensor.cells_entry hkey)
    (Tensor.cells_entry hvalue)
  obtain ⟨output, hattention, hcpu⟩ := attention_cells math config (Tensor.cells_entry hquery)
    (Tensor.cells_entry hkey) (Tensor.cells_entry hvalue) hsizes.keysPos (by omega) (by omega)
    (by omega) (by omega) (by omega) (by omega)
  exact ⟨launched, output, hlaunch, hattention, hcells.eq hcpu,
    hwrites.congr fun i hi d hd => hcpu.entry_eq hi hd⟩

end ordered

/-- Two blocks, with the exponential of the reals. -/
theorem attention_cuda_is_attention_example :
    ∃ launched output,
      attentionCuda ⟨Real.exp, Real.sqrt⟩ ⟨.sequential, .sequential⟩ (fun _ => 7)
        (fun _ _ _ => 7)
        ⟨[130, 2], List.replicate 260 1, by rw [List.length_replicate]; decide +kernel⟩
        ⟨[3, 2], List.replicate 6 2, by rw [List.length_replicate]; decide +kernel⟩
        ⟨[3, 1], List.replicate 3 5, by rw [List.length_replicate]; decide +kernel⟩
        ⟨0, true⟩ = .ok launched ∧
      attention ⟨Real.exp, Real.sqrt⟩
        ⟨[130, 2], List.replicate 260 1, by rw [List.length_replicate]; decide +kernel⟩
        ⟨[3, 2], List.replicate 6 2, by rw [List.length_replicate]; decide +kernel⟩
        ⟨[3, 1], List.replicate 3 5, by rw [List.length_replicate]; decide +kernel⟩
        ⟨0, true⟩ = .ok output ∧
      launched.output = output ∧ launched.Writes 130 1 (output.entry 1) :=
  attention_cuda_is_attention ⟨Real.exp, Real.sqrt⟩ ⟨Real.exp_pos, Real.exp_add⟩
    ⟨.sequential, .sequential⟩ (fun _ => 7) (fun _ _ _ => 7) ⟨0, true⟩ rfl rfl rfl
    ⟨by decide, by decide, by decide, by decide, by decide, by decide, by decide, by decide,
      by decide, by decide⟩

end Gpuforge

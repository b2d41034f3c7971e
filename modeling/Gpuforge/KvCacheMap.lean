import Gpuforge.KvCache
import Gpuforge.LabelledRun

/-!
# The key/value cache is a map

A run of `append`, `get` and `reset` calls carries, beside the cache, the map
from `(layer, token)` to the key and value of the last `append` that returned
since the last `reset`.  `Represents` relates the two: the bit of a slot says
whether the map has its layer and token, and the tensors of a valid slot are
those of the map.  Different layers and tokens have different slots, so a call
that changes one slot changes one entry (`Represents.append`).

`kv_cache_map` reads the relation off for the callers: `get` returns the rows
that the map has and zeros for the others, `used` is the number of entries, and
a call that throws changes nothing.
-/

namespace Gpuforge

open LabelledRun

/-- The last key and value of layers and tokens. -/
abbrev LastStored (α : Type) := AList fun _ : Nat × Nat => Tensor α × Tensor α

namespace KVCache

variable {α : Type}

/-- Sizes that fit a `size_t`, and a slot for each layer and token. -/
structure Roomy (cache : KVCache α) : Prop where
  slots : cache.layers * cache.capacity < 2 ^ 64
  width : cache.heads * cache.dim < 2 ^ 64
  total : cache.layers * cache.capacity * (cache.heads * cache.dim) < 2 ^ 64
  keys : cache.keys.length = cache.layers * cache.capacity
  values : cache.values.length = cache.layers * cache.capacity
  valid : cache.valid.length = cache.layers * cache.capacity

/-- **The cache represents a map.** -/
structure Represents (cache : KVCache α) (last : LastStored α) : Prop where
  roomy : cache.Roomy
  bits : ∀ layer < cache.layers, ∀ token < cache.capacity,
    cache.valid[layer * cache.capacity + token]? = some (decide ((layer, token) ∈ last))
  stored : ∀ layer < cache.layers, ∀ token < cache.capacity, ∀ key value,
    last.lookup (layer, token) = some (key, value) →
      cache.keys[layer * cache.capacity + token]? = some key ∧
      cache.values[layer * cache.capacity + token]? = some value ∧
      key.storage.length = cache.heads * cache.dim ∧
      value.storage.length = cache.heads * cache.dim
  count : cache.used = last.entries.length

/-- The slot of a layer and token. -/
theorem Roomy.slot {cache : KVCache α} (h : cache.Roomy) {layer token : Nat}
    (hlayer : layer < cache.layers) (htoken : token < cache.capacity) :
    flatIndex layer cache.capacity token = layer * cache.capacity + token ∧
      layer * cache.capacity + token < cache.layers * cache.capacity := by
  have hlt := RowMajor.cell_lt hlayer htoken
  have hslots := h.slots
  exact ⟨flatIndex_of_lt (by omega), hlt⟩

/-! ## `append` and `reset` -/

/-- What `append` asks for. -/
def Fits (cache : KVCache α) (layer token : Nat) (key value : Tensor α) : Prop :=
  layer < cache.layers ∧ token < cache.capacity ∧ key.numel = cache.heads * cache.dim ∧
    value.numel = key.numel

/-- A call that does not fit throws and changes nothing. -/
theorem Roomy.append_rejects {cache : KVCache α} (h : cache.Roomy) {layer token : Nat}
    {key value : Tensor α} (hfits : ¬ cache.Fits layer token key value) :
    cache.append layer token key value = (.error (.threw .outOfRange), cache) := by
  have hwidth : mulSize cache.heads cache.dim = cache.heads * cache.dim := mulSize_of_lt h.width
  rw [append, if_pos]
  rw [hwidth]
  unfold Fits at hfits
  omega

/-- A call that fits fills its slot. -/
theorem Roomy.append_accepts {cache : KVCache α} (h : cache.Roomy) {layer token : Nat}
    {key value : Tensor α} (hfits : cache.Fits layer token key value) :
    cache.append layer token key value = (.ok (), { cache with
      keys := cache.keys.set (layer * cache.capacity + token) key
      values := cache.values.set (layer * cache.capacity + token) value
      valid := cache.valid.set (layer * cache.capacity + token) true }) := by
  obtain ⟨hlayer, htoken, hkey, hvalue⟩ := hfits
  obtain ⟨hindex, hlt⟩ := h.slot hlayer htoken
  have hwidth : mulSize cache.heads cache.dim = cache.heads * cache.dim := mulSize_of_lt h.width
  have hkeys := h.keys
  have hvalues := h.values
  have hvalid := h.valid
  rw [append, if_neg (by rw [hwidth]; omega)]
  simp only [hindex, Tensor.clone_eq]
  rw [if_neg (by omega)]

/-- **`append` changes one entry of the map.** -/
theorem Represents.append {cache : KVCache α} {last : LastStored α} (h : Represents cache last)
    {layer token : Nat} {key value : Tensor α} (hfits : cache.Fits layer token key value) :
    Represents (cache.append layer token key value).2
      (last.insert (layer, token) (key, value)) := by
  obtain ⟨hlayer, htoken, hkey, hvalue⟩ := hfits
  obtain ⟨_, hlt⟩ := h.roomy.slot hlayer htoken
  have hkeys := h.roomy.keys
  have hvalues := h.roomy.values
  have hvalid := h.roomy.valid
  rw [h.roomy.append_accepts ⟨hlayer, htoken, hkey, hvalue⟩]
  refine ⟨⟨h.roomy.slots, h.roomy.width, h.roomy.total, ?_, ?_, ?_⟩, ?_, ?_, ?_⟩
  · simpa using hkeys
  · simpa using hvalues
  · simpa using hvalid
  · intro layer' hlayer' token' htoken'
    simp only
    rw [RowMajor.getElem?_set htoken htoken' (by omega), h.bits layer' hlayer' token' htoken']
    by_cases hsame : layer' = layer ∧ token' = token
    · simp [hsame]
    · rw [if_neg hsame]
      simp [AList.mem_insert, hsame]
  · intro layer' hlayer' token' htoken' key' value' hlookup
    simp only
    rw [RowMajor.getElem?_set htoken htoken' (by omega),
      RowMajor.getElem?_set htoken htoken' (by omega)]
    by_cases hsame : layer' = layer ∧ token' = token
    · obtain ⟨rfl, rfl⟩ := hsame
      rw [AList.lookup_insert, Option.some.injEq, Prod.mk.injEq] at hlookup
      obtain ⟨rfl, rfl⟩ := hlookup
      simp only [and_self, if_true, true_and]
      exact ⟨hkey, hvalue.trans hkey⟩
    · have hne : (layer', token') ≠ (layer, token) := by
        intro heq
        exact hsame (Prod.mk.inj heq)
      rw [AList.lookup_insert_ne hne] at hlookup
      rw [if_neg hsame, if_neg hsame]
      exact h.stored layer' hlayer' token' htoken' key' value' hlookup
  · -- one entry more, unless the slot was valid already
    have hcount := h.count
    have hbit := h.bits layer hlayer token htoken
    obtain ⟨hslot, hread⟩ := List.getElem?_eq_some_iff.mp hbit
    rw [used] at hcount ⊢
    simp only
    rw [List.count_set hslot, hread, AList.entries_insert, List.length_cons]
    by_cases hmem : (layer, token) ∈ last
    · obtain ⟨stored, before, after, _, hentries, herased⟩ :=
        List.exists_of_kerase (AList.mem_keys.mp hmem)
      rw [herased]
      rw [hentries] at hcount
      simp only [List.length_append, List.length_cons] at hcount ⊢
      simp only [hmem, decide_true, beq_self_eq_true, if_true]
      omega
    · rw [List.kerase_of_notMem_keys hmem]
      simp [hmem, hcount]

/-- `reset` empties the map. -/
theorem Represents.reset {cache : KVCache α} {last : LastStored α} (h : Represents cache last) :
    Represents cache.reset ∅ := by
  refine ⟨⟨h.roomy.slots, h.roomy.width, h.roomy.total, h.roomy.keys, h.roomy.values, ?_⟩,
    ?_, ?_, ?_⟩
  · simpa [KVCache.reset] using h.roomy.valid
  · intro layer hlayer token htoken
    have hlt := RowMajor.cell_lt hlayer htoken
    simp only [KVCache.reset] at hlayer htoken ⊢
    rw [List.getElem?_replicate, if_pos (by rw [h.roomy.valid]; exact hlt)]
    simp
  · intro layer _ token _ key value hlookup
    simp at hlookup
  · simp [used, KVCache.reset, List.count_replicate]

/-! ## `get` -/

variable [Zero α]

/-- The rows of a key and value; zeros where the map has none. -/
def storedRows (last : LastStored α) (width layer token : Nat) : List α × List α :=
  match last.lookup (layer, token) with
  | some (key, value) => (key.storage, value.storage)
  | none => (List.replicate width 0, List.replicate width 0)

/-- The copy of a slot fills one row of each tensor. -/
theorem copyEntry_loop {key value : Tensor α} {width rows row : Nat}
    (hkey : key.storage.length = width) (hvalue : value.storage.length = width)
    (hrow : row < rows) {out : Tensor α × Tensor α} {c d : Nat → Nat → α}
    (hc : out.1.Cells rows width c) (hd : out.2.Cells rows width d) :
    ∃ out', ForLoop.loop (copyEntry row key value) (ForLoop.upTo 0 key.numel) out = .ok out' ∧
      out'.1.Cells rows width (fun i j => if i = row then key.storage.getD j 0 else c i j) ∧
      out'.2.Cells rows width (fun i j => if i = row then value.storage.getD j 0 else d i j) := by
  have hnumel : key.numel = width := hkey
  rw [hnumel]
  have hloop := ForLoop.upTo_total (copyEntry row key value) 0 width
    (fun e (out : Tensor α × Tensor α) =>
      out.1.Cells rows width
        (fun i j => if i = row ∧ j < e then key.storage.getD j 0 else c i j) ∧
      out.2.Cells rows width
        (fun i j => if i = row ∧ j < e then value.storage.getD j 0 else d i j))
    ?_ (Nat.zero_le _) ⟨hc.congr (by simp), hd.congr (by simp)⟩
  · obtain ⟨out', hrun, hc', hd'⟩ := hloop
    refine ⟨out', hrun, hc'.congr ?_, hd'.congr ?_⟩
    · intro i _ j hj
      simp [hj]
    · intro i _ j hj
      simp [hj]
  · intro e out _ he hinv
    obtain ⟨hc', hd'⟩ := hinv
    have hx : key.storage[e]? = some (key.storage.getD e 0) := by
      rw [List.getD_eq_getElem?_getD, List.getElem?_eq_getElem (by omega), Option.getD_some]
    have hy : value.storage[e]? = some (value.storage.getD e 0) := by
      rw [List.getD_eq_getElem?_getD, List.getElem?_eq_getElem (by omega), Option.getD_some]
    obtain ⟨keys, hkeys, hc''⟩ := hc'.put hrow he (key.storage.getD e 0)
    obtain ⟨values, hvalues, hd''⟩ := hd'.put hrow he (value.storage.getD e 0)
    refine ⟨(keys, values), ?_, hc''.congr ?_, hd''.congr ?_⟩
    · simp only [copyEntry, hnumel, Tensor.get_eq hx, Tensor.get_eq hy, ok_bind, hkeys, hvalues]
      rfl
    · intro i _ j _
      grind
    · intro i _ j _
      grind

/-- A turn of the outer loop fills the row of its token. -/
theorem Represents.copyToken {cache : KVCache α} {last : LastStored α}
    (h : Represents cache last) {layer first past token : Nat} (hlayer : layer < cache.layers)
    (hpast : past ≤ cache.capacity) (hfirst : first ≤ token) (htoken : token < past)
    {out : Tensor α × Tensor α} {c d : Nat → Nat → α}
    (hc : out.1.Cells (past - first) (cache.heads * cache.dim) c)
    (hd : out.2.Cells (past - first) (cache.heads * cache.dim) d)
    (hzero : ∀ j < cache.heads * cache.dim, c (token - first) j = 0 ∧ d (token - first) j = 0) :
    ∃ out', cache.copyToken layer first token out = .ok out' ∧
      out'.1.Cells (past - first) (cache.heads * cache.dim) (fun i j =>
        if i = token - first then
          (storedRows last (cache.heads * cache.dim) layer token).1.getD j 0 else c i j) ∧
      out'.2.Cells (past - first) (cache.heads * cache.dim) (fun i j =>
        if i = token - first then
          (storedRows last (cache.heads * cache.dim) layer token).2.getD j 0 else d i j) := by
  have htoken' : token < cache.capacity := by omega
  obtain ⟨hindex, hlt⟩ := h.roomy.slot hlayer htoken'
  have hbit := h.bits layer hlayer token htoken'
  unfold KVCache.copyToken storedRows
  simp only [hindex, hbit]
  cases hlookup : last.lookup (layer, token) with
  | none =>
      have hmem : (layer, token) ∉ last := AList.lookup_eq_none.mp hlookup
      simp only [hmem, decide_false]
      refine ⟨out, rfl, hc.congr ?_, hd.congr ?_⟩
      · intro i _ j hj
        split
        · rename_i hi
          rw [hi, (hzero j hj).1, List.getD_eq_getElem?_getD, List.getElem?_replicate, if_pos hj,
            Option.getD_some]
        · rfl
      · intro i _ j hj
        split
        · rename_i hi
          rw [hi, (hzero j hj).2, List.getD_eq_getElem?_getD, List.getElem?_replicate, if_pos hj,
            Option.getD_some]
        · rfl
  | some pair =>
      obtain ⟨key, value⟩ := pair
      have hmem : (layer, token) ∈ last :=
        AList.lookup_isSome.mp (by rw [hlookup]; rfl)
      obtain ⟨hkey, hvalue, hkeyLength, hvalueLength⟩ :=
        h.stored layer hlayer token htoken' key value hlookup
      simp only [hmem, decide_true, hkey, hvalue]
      exact copyEntry_loop hkeyLength hvalueLength (by omega) hc hd

/-- The output of `get` after the tokens below `t`: their rows, and zeros. -/
structure Filled (last : LastStored α) (rows width layer first t : Nat)
    (out : Tensor α × Tensor α) : Prop where
  keys : out.1.Cells rows width fun i j =>
    if first + i < t then (storedRows last width layer (first + i)).1.getD j 0 else 0
  values : out.2.Cells rows width fun i j =>
    if first + i < t then (storedRows last width layer (first + i)).2.getD j 0 else 0

/-- **`get` reads the map.** -/
theorem Represents.get {cache : KVCache α} {last : LastStored α} (h : Represents cache last)
    {layer first past : Nat} (hlayer : layer < cache.layers) (hle : first ≤ past)
    (hpast : past ≤ cache.capacity) :
    ∃ keys values, cache.get layer first past = .ok (keys, values) ∧
      keys.shape = [past - first, cache.heads * cache.dim] ∧
      values.shape = [past - first, cache.heads * cache.dim] ∧
      ∀ token, first ≤ token → token < past →
        (RowMajor.row (cache.heads * cache.dim) keys.storage (token - first),
          RowMajor.row (cache.heads * cache.dim) values.storage (token - first)) =
          storedRows last (cache.heads * cache.dim) layer token := by
  have hwidth : mulSize cache.heads cache.dim = cache.heads * cache.dim :=
    mulSize_of_lt h.roomy.width
  have hcapacity : cache.capacity ≤ cache.layers * cache.capacity :=
    Nat.le_mul_of_pos_left _ (by omega)
  have hslots := h.roomy.slots
  have hrows : past - first < 2 ^ 64 := by omega
  have hsize : (past - first) * (cache.heads * cache.dim) < 2 ^ 64 :=
    Nat.lt_of_le_of_lt (Nat.mul_le_mul_right _ (by omega)) h.roomy.total
  obtain ⟨new, hnew, hcells⟩ := @Tensor.new_cells α _ _ _ hrows hsize
  have hstart : Filled last (past - first) (cache.heads * cache.dim) layer first first
      (new, new) := ⟨hcells.congr (by simp), hcells.congr (by simp)⟩
  have hloop := ForLoop.upTo_total (cache.copyToken layer first) first past
    (Filled last (past - first) (cache.heads * cache.dim) layer first) ?_ hle hstart
  · obtain ⟨out, hrun, hc, hd⟩ := hloop
    refine ⟨out.1, out.2, ?_, hc.shape, hd.shape, ?_⟩
    · rw [KVCache.get, if_neg (by omega), hwidth, hnew, ok_bind, hcells.shape, hnew, ok_bind, hrun]
    · intro token hfirst htoken
      have hrow : token - first < past - first := by omega
      have hlengths : (storedRows last (cache.heads * cache.dim) layer token).1.length =
            cache.heads * cache.dim ∧
          (storedRows last (cache.heads * cache.dim) layer token).2.length =
            cache.heads * cache.dim := by
        unfold storedRows
        cases hlookup : last.lookup (layer, token) with
        | none => simp
        | some pair =>
            exact (h.stored layer hlayer token (by omega) pair.1 pair.2 hlookup).2.2
      have hkeys : RowMajor.row (cache.heads * cache.dim) out.1.storage (token - first) =
          (storedRows last (cache.heads * cache.dim) layer token).1 := by
        apply RowMajor.row_eq (Tensor.length_of_matrix hc.shape).1 hrow hlengths.1
        intro j hj
        rw [hc.cells _ hrow j hj, if_pos (by omega), show first + (token - first) = token by omega,
          List.getD_eq_getElem?_getD, List.getElem?_eq_getElem (by omega), Option.getD_some]
      have hvalues : RowMajor.row (cache.heads * cache.dim) out.2.storage (token - first) =
          (storedRows last (cache.heads * cache.dim) layer token).2 := by
        apply RowMajor.row_eq (Tensor.length_of_matrix hd.shape).1 hrow hlengths.2
        intro j hj
        rw [hd.cells _ hrow j hj, if_pos (by omega), show first + (token - first) = token by omega,
          List.getD_eq_getElem?_getD, List.getElem?_eq_getElem (by omega), Option.getD_some]
      rw [hkeys, hvalues]
  · intro token out hfirst htoken hinv
    obtain ⟨hc, hd⟩ := hinv
    obtain ⟨out', hrun, hc', hd'⟩ := h.copyToken hlayer hpast hfirst htoken hc hd (by
      intro j _
      rw [if_neg (by omega), if_neg (by omega)]
      exact ⟨rfl, rfl⟩)
    refine ⟨out', hrun, hc'.congr ?_, hd'.congr ?_⟩
    · intro i _ j _
      by_cases hi : i = token - first
      · rw [if_pos hi, if_pos (by omega), show first + i = token by omega]
      · rw [if_neg hi]
        grind
    · intro i _ j _
      by_cases hi : i = token - first
      · rw [if_pos hi, if_pos (by omega), show first + i = token by omega]
      · rw [if_neg hi]
        grind

/-- A range that `get` rejects. -/
theorem get_rejects {cache : KVCache α} {layer first past : Nat}
    (h : ¬ (layer < cache.layers ∧ first ≤ past ∧ past ≤ cache.capacity)) :
    cache.get layer first past = .error (.threw .outOfRange) :=
  if_pos (by omega)

/-! ## A new cache -/

/-- The slots of a new cache. -/
theorem newSlots_ok {heads dim : Nat} (hheads : heads < 2 ^ 64) (hwidth : heads * dim < 2 ^ 64)
    (slots : Nat) : ∃ tensors : List (Tensor α),
      newSlots heads dim slots = .ok tensors ∧ tensors.length = slots := by
  obtain ⟨t, hnew, _⟩ := @Tensor.new_cells α _ heads dim hheads hwidth
  induction slots with
  | zero => exact ⟨[], rfl, rfl⟩
  | succ slots ih =>
      obtain ⟨rest, hrest, hlength⟩ := ih
      refine ⟨t :: rest, ?_, by rw [List.length_cons, hlength]⟩
      rw [newSlots, hnew, ok_bind, hrest]
      rfl

/-- A new cache represents the empty map. -/
theorem new_represents {layers heads dim capacity : Nat} (hheads : heads < 2 ^ 64)
    (hslots : layers * capacity < 2 ^ 64) (hwidth : heads * dim < 2 ^ 64)
    (htotal : layers * capacity * (heads * dim) < 2 ^ 64) :
    ∃ cache : KVCache α, KVCache.new layers heads dim capacity = .ok cache ∧
      Represents cache ∅ ∧ cache.layers = layers ∧ cache.capacity = capacity ∧
      cache.heads = heads ∧ cache.dim = dim := by
  have hmul : mulSize layers capacity = layers * capacity := mulSize_of_lt hslots
  obtain ⟨tensors, htensors, hlength⟩ :=
    @newSlots_ok α _ heads dim hheads hwidth (layers * capacity)
  refine ⟨⟨layers, heads, dim, capacity, tensors, tensors,
    List.replicate (layers * capacity) false⟩, ?_, ?_, rfl, rfl, rfl, rfl⟩
  · rw [KVCache.new, hmul, htensors, ok_bind, ok_bind]
    rfl
  · refine ⟨⟨hslots, hwidth, htotal, hlength, hlength, by simp⟩, ?_, ?_, ?_⟩
    · intro layer hlayer token htoken
      simp only
      rw [List.getElem?_replicate, if_pos (RowMajor.cell_lt hlayer htoken)]
      simp
    · intro layer _ token _ key value hlookup
      simp at hlookup
    · simp [used, List.count_replicate]

end KVCache

/-! ## Runs -/

/-- The calls that callers make. -/
inductive CacheCall (α : Type) where
  | append (layer token : Nat) (key value : Tensor α)
  | get (layer first past : Nat)
  | reset

/-- A cache and what its callers stored last. -/
structure CacheLog (α : Type) where
  cache : KVCache α
  last : LastStored α := ∅

namespace CacheLog

open KVCache

variable {α : Type} [Zero α]

/-- One call: how it ends, and the log afterwards. -/
def exec (log : CacheLog α) : CacheCall α → Except Fault Unit × CacheLog α
  | .append layer token key value =>
      match log.cache.append layer token key value with
      | (.ok _, cache) => (.ok (), ⟨cache, log.last.insert (layer, token) (key, value)⟩)
      | (.error e, cache) => (.error e, ⟨cache, log.last⟩)
  | .get layer first past => ((log.cache.get layer first past).map fun _ => (), log)
  | .reset => (.ok (), ⟨log.cache.reset, ∅⟩)

/-- Callers go on after calls that throw. -/
def Steps (log : CacheLog α) (call : CacheCall α) (log' : CacheLog α) : Prop :=
  (log.exec call).2 = log'

/-- **One call** keeps the map, and a call that throws keeps everything. -/
theorem exec_represents {log : CacheLog α} (h : Represents log.cache log.last)
    (call : CacheCall α) :
    Represents (log.exec call).2.cache (log.exec call).2.last ∧
      ∀ e, (log.exec call).1 = .error e → e = .threw .outOfRange ∧ (log.exec call).2 = log := by
  cases call with
  | append layer token key value =>
      by_cases hfits : log.cache.Fits layer token key value
      · have happend := h.append hfits
        rw [h.roomy.append_accepts hfits] at happend
        rw [exec, h.roomy.append_accepts hfits]
        exact ⟨happend, fun e he => by cases he⟩
      · rw [exec, h.roomy.append_rejects hfits]
        refine ⟨h, ?_⟩
        intro e he
        cases he
        exact ⟨rfl, rfl⟩
  | get layer first past =>
      refine ⟨h, ?_⟩
      intro e he
      by_cases hrange : layer < log.cache.layers ∧ first ≤ past ∧ past ≤ log.cache.capacity
      · obtain ⟨keys, values, hget, _⟩ := h.get hrange.1 hrange.2.1 hrange.2.2
        rw [exec, hget] at he
        cases he
      · rw [exec, get_rejects hrange] at he
        cases he
        exact ⟨rfl, rfl⟩
  | reset => exact ⟨h.reset, fun e he => by cases he⟩

/-- The cache that `append` leaves behind, whether it threw or not. -/
theorem exec_append_cache (log : CacheLog α) (layer token : Nat) (key value : Tensor α) :
    (log.exec (.append layer token key value)).2.cache =
      (log.cache.append layer token key value).2 := by
  rw [exec]
  generalize log.cache.append layer token key value = result
  obtain ⟨outcome, cache⟩ := result
  cases outcome <;> rfl

/-- No call changes the sizes. -/
theorem exec_sizes (log : CacheLog α) (call : CacheCall α) :
    (log.exec call).2.cache.layers = log.cache.layers ∧
      (log.exec call).2.cache.capacity = log.cache.capacity ∧
      (log.exec call).2.cache.heads = log.cache.heads ∧
      (log.exec call).2.cache.dim = log.cache.dim := by
  cases call with
  | append layer token key value =>
      rw [exec_append_cache]
      unfold KVCache.append
      split
      · exact ⟨rfl, rfl, rfl, rfl⟩
      · simp only
        split <;> exact ⟨rfl, rfl, rfl, rfl⟩
  | get layer first past => exact ⟨rfl, rfl, rfl, rfl⟩
  | reset => exact ⟨rfl, rfl, rfl, rfl⟩

/-- What callers see of a cache with given sizes.  That an `append` which passes its checks
returns is said where the slots are (`SlotsSafe.append_eq`). -/
structure IsMap (layers width capacity : Nat) (log : CacheLog α) : Prop where
  get : ∀ layer first past, layer < layers → first ≤ past → past ≤ capacity →
    ∃ keys values, log.cache.get layer first past = .ok (keys, values) ∧
      keys.shape = [past - first, width] ∧ values.shape = [past - first, width] ∧
      ∀ token, first ≤ token → token < past →
        (RowMajor.row width keys.storage (token - first),
          RowMajor.row width values.storage (token - first)) =
          storedRows log.last width layer token
  used : log.cache.used = log.last.entries.length
  throws : ∀ call e, (log.exec call).1 = .error e →
    e = .threw .outOfRange ∧ (log.exec call).2 = log

/-- **The cache is a map** from layers and tokens to their last key and value, in
every state of every run. -/
theorem kv_cache_map {layers heads dim capacity : Nat} (hheads : heads < 2 ^ 64)
    (hslots : layers * capacity < 2 ^ 64) (hwidth : heads * dim < 2 ^ 64)
    (htotal : layers * capacity * (heads * dim) < 2 ^ 64) :
    ∃ cache : KVCache α, KVCache.new layers heads dim capacity = .ok cache ∧
      ∀ calls log, Run Steps (⟨cache, ∅⟩ : CacheLog α) calls log →
        IsMap layers (heads * dim) capacity log := by
  obtain ⟨cache, hnew, hrepresents, rfl, rfl, rfl, rfl⟩ :=
    @new_represents α _ layers heads dim capacity hheads hslots hwidth htotal
  refine ⟨cache, hnew, ?_⟩
  intro calls log hrun
  have hinv : Represents log.cache log.last ∧ log.cache.layers = cache.layers ∧
      log.cache.capacity = cache.capacity ∧ log.cache.heads = cache.heads ∧
      log.cache.dim = cache.dim := by
    refine hrun.invariant (fun log => Represents log.cache log.last ∧
      log.cache.layers = cache.layers ∧ log.cache.capacity = cache.capacity ∧
      log.cache.heads = cache.heads ∧ log.cache.dim = cache.dim)
      ⟨hrepresents, rfl, rfl, rfl, rfl⟩ ?_
    intro log call log' h hstep
    obtain ⟨hrep, hlayers, hcapacity, hheads', hdim⟩ := h
    obtain ⟨hlayers', hcapacity', hheads'', hdim'⟩ := log.exec_sizes call
    rw [Steps] at hstep
    subst hstep
    exact ⟨(exec_represents hrep call).1, hlayers'.trans hlayers, hcapacity'.trans hcapacity,
      hheads''.trans hheads', hdim'.trans hdim⟩
  obtain ⟨hrep, hlayers, hcapacity, hheads', hdim⟩ := hinv
  rw [← hlayers, ← hcapacity, ← hheads', ← hdim]
  exact ⟨fun _ _ _ hlayer hle hpast => hrep.get hlayer hle hpast, hrep.count,
    fun call => (exec_represents hrep call).2⟩

/-- Two layers of two tokens: an `append`, one with a key of the wrong size, a
`reset`, and two more to one slot. -/
theorem kv_cache_map_example :
    let key : Tensor Int := ⟨[2], [1, 2], rfl⟩
    let value : Tensor Int := ⟨[2, 1], [3, 4], rfl⟩
    let wrong : Tensor Int := ⟨[1], [7], rfl⟩
    let calls : List (CacheCall Int) :=
      [.append 0 0 key value, .append 1 1 wrong value, .reset, .append 1 0 value value,
        .append 1 0 key value]
    ∃ cache log, KVCache.new 2 1 2 2 = .ok cache ∧ Run Steps ⟨cache, ∅⟩ calls log ∧
      IsMap 2 2 2 log ∧ log.cache.used = 1 ∧
      (log.cache.get 1 0 2).map (fun result => result.1.storage) = .ok [1, 2, 0, 0] := by
  intro key value wrong calls
  obtain ⟨cache, hnew, hall⟩ := @kv_cache_map Int _ 2 1 2 2 (by omega) (by omega) (by omega)
    (by omega)
  have hzero : KVCache.new 2 1 2 2 = .ok (⟨2, 1, 2, 2,
      List.replicate 4 ⟨[1, 2], [0, 0], rfl⟩, List.replicate 4 ⟨[1, 2], [0, 0], rfl⟩,
      List.replicate 4 false⟩ : KVCache Int) := by decide +kernel
  rw [hzero] at hnew
  cases hnew
  have hrun : Run Steps (⟨⟨2, 1, 2, 2, List.replicate 4 ⟨[1, 2], [0, 0], rfl⟩,
      List.replicate 4 ⟨[1, 2], [0, 0], rfl⟩, List.replicate 4 false⟩, ∅⟩ : CacheLog Int)
      calls _ := .extend (.extend (.extend (.extend (.extend .start rfl) rfl) rfl) rfl) rfl
  exact ⟨_, _, hzero, hrun, hall calls _ hrun, by decide +kernel, by decide +kernel⟩

end CacheLog

end Gpuforge

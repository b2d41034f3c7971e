import Mathlib.Data.Finset.Prod
import Gpuforge.KvCacheMap

/-!
# The slots of the key/value cache

`append` and `get` check a layer and a token each on its own, and compute the slot
`layer * capacity + token` from them.  The vectors have as many slots as the product of
layers and capacity, which the constructor computes in `size_t`.  The checks suffice
exactly when that product does not wrap: a wrapped product leaves more pairs of a layer
and a token than slots (`slots_safe_iff`, `slots_out_of_bounds`).
-/

namespace Gpuforge

open LabelledRun

namespace KVCache

variable {α : Type}

/-- What `append` checks. -/
def AppendChecked (cache : KVCache α) (layer token : Nat) (key value : Tensor α) : Prop :=
  layer < cache.layers ∧ token < cache.capacity ∧
    key.numel = mulSize cache.heads cache.dim ∧ value.numel = key.numel

/-- What `get` checks. -/
def GetChecked (cache : KVCache α) (layer first past : Nat) : Prop :=
  layer < cache.layers ∧ first ≤ past ∧ past ≤ cache.capacity

/-- An index inside of the three vectors. -/
def HasSlot (cache : KVCache α) (index : Nat) : Prop :=
  index < cache.keys.length ∧ index < cache.values.length ∧ index < cache.valid.length

/-- **The checks suffice.**  Every slot that a call computes after its checks is there, and
different layers and tokens have different slots. -/
structure SlotsSafe (cache : KVCache α) : Prop where
  append : ∀ layer token key value, cache.AppendChecked layer token key value →
    cache.HasSlot (flatIndex layer cache.capacity token)
  get : ∀ layer first past, cache.GetChecked layer first past →
    ∀ token, first ≤ token → token < past →
      cache.HasSlot (flatIndex layer cache.capacity token)
  distinct : ∀ layer token layer' token', layer < cache.layers → token < cache.capacity →
    layer' < cache.layers → token' < cache.capacity →
    flatIndex layer cache.capacity token = flatIndex layer' cache.capacity token' →
      layer = layer' ∧ token = token'

/-- Sizes of a cache with as many slots as the wrapped product. -/
structure Sized (cache : KVCache α) (layers capacity : Nat) : Prop where
  sameLayers : cache.layers = layers
  sameCapacity : cache.capacity = capacity
  keys : cache.keys.length = mulSize layers capacity
  values : cache.values.length = mulSize layers capacity
  valid : cache.valid.length = mulSize layers capacity

variable {cache : KVCache α} {layers heads dim capacity : Nat}

/-- `append` returns if and only if its checks pass, where they suffice. -/
theorem SlotsSafe.append_eq (h : cache.SlotsSafe) (layer token : Nat) (key value : Tensor α)
    [Decidable (cache.AppendChecked layer token key value)] :
    (cache.append layer token key value).1 =
      if cache.AppendChecked layer token key value then .ok ()
      else .error (.threw .outOfRange) := by
  unfold KVCache.append
  split
  · rename_i hreject
    rw [if_neg]
    unfold AppendChecked
    omega
  · rename_i hpass
    have hchecked : cache.AppendChecked layer token key value := by
      unfold AppendChecked
      omega
    obtain ⟨hkeys, hvalues, hvalid⟩ := h.append layer token key value hchecked
    simp only
    rw [if_pos hchecked, if_neg (by omega)]

/-- New slots are as many as asked for. -/
theorem newSlots_length [Zero α] {slots : Nat} {tensors : List (Tensor α)}
    (h : newSlots heads dim slots = .ok tensors) : tensors.length = slots := by
  induction slots generalizing tensors with
  | zero =>
      cases h
      rfl
  | succ slots ih =>
      obtain ⟨slot, _, h⟩ := bind_ok h
      obtain ⟨rest, hrest, h⟩ := bind_ok h
      cases h
      rw [List.length_cons, ih hrest]

/-- A new cache has its sizes. -/
theorem new_sized [Zero α] (h : KVCache.new (α := α) layers heads dim capacity = .ok cache) :
    cache.Sized layers capacity := by
  obtain ⟨keys, hkeys, h⟩ := bind_ok h
  obtain ⟨values, hvalues, h⟩ := bind_ok h
  cases h
  exact ⟨rfl, rfl, newSlots_length hkeys, newSlots_length hvalues, List.length_replicate⟩

/-- `append` keeps the sizes. -/
theorem Sized.append (h : cache.Sized layers capacity) (layer token : Nat)
    (key value : Tensor α) : (cache.append layer token key value).2.Sized layers capacity := by
  unfold KVCache.append
  split
  · exact h
  · simp only
    split
    · exact h
    · refine ⟨h.sameLayers, h.sameCapacity, ?_, ?_, ?_⟩
      · rw [List.length_set, h.keys]
      · rw [List.length_set, h.values]
      · rw [List.length_set, h.valid]

/-- `reset` keeps the sizes. -/
theorem Sized.reset (h : cache.Sized layers capacity) : cache.reset.Sized layers capacity :=
  ⟨h.sameLayers, h.sameCapacity, h.keys, h.values, List.length_replicate.trans h.valid⟩

/-- No call changes the sizes. -/
theorem Sized.exec [Zero α] {log : CacheLog α} (h : log.cache.Sized layers capacity)
    (call : CacheCall α) : (log.exec call).2.cache.Sized layers capacity := by
  cases call with
  | append layer token key value =>
      rw [CacheLog.exec_append_cache]
      exact h.append layer token key value
  | get layer first past => exact h
  | reset => exact h.reset

/-- A product that does not wrap gives every layer and token a slot of its own. -/
theorem Sized.slotsSafe (h : cache.Sized layers capacity) (hfits : layers * capacity < 2 ^ 64) :
    cache.SlotsSafe := by
  have hslots : mulSize layers capacity = layers * capacity := mulSize_of_lt hfits
  have hindex : ∀ layer token, layer < cache.layers → token < cache.capacity →
      flatIndex layer cache.capacity token = layer * capacity + token ∧
        layer * capacity + token < layers * capacity := by
    intro layer token hlayer htoken
    rw [h.sameLayers] at hlayer
    rw [h.sameCapacity] at htoken ⊢
    have hlt := RowMajor.cell_lt hlayer htoken
    exact ⟨flatIndex_of_lt (by omega), hlt⟩
  have hhas : ∀ layer token, layer < cache.layers → token < cache.capacity →
      cache.HasSlot (flatIndex layer cache.capacity token) := by
    intro layer token hlayer htoken
    obtain ⟨heq, hlt⟩ := hindex layer token hlayer htoken
    rw [heq, HasSlot, h.keys, h.values, h.valid, hslots]
    exact ⟨hlt, hlt, hlt⟩
  refine ⟨?_, ?_, ?_⟩
  · intro layer token key value hchecked
    exact hhas layer token hchecked.1 hchecked.2.1
  · intro layer first past hchecked token _ htoken
    exact hhas layer token hchecked.1 (Nat.lt_of_lt_of_le htoken hchecked.2.2)
  · intro layer token layer' token' hlayer htoken hlayer' htoken' heq
    rw [(hindex layer token hlayer htoken).1, (hindex layer' token' hlayer' htoken').1] at heq
    rw [h.sameCapacity] at htoken htoken'
    exact (RowMajor.cell_inj htoken htoken').mp heq

/-- Safe slots are at least as many as the layers and tokens. -/
theorem Sized.fits_of_slotsSafe (h : cache.Sized layers capacity) (hsafe : cache.SlotsSafe) :
    layers * capacity < 2 ^ 64 := by
  have hslots : mulSize layers capacity < 2 ^ 64 := by
    rw [mulSize]
    exact Nat.mod_lt _ (by decide)
  have hcard : ((Finset.range layers) ×ˢ (Finset.range capacity)).card
      ≤ (Finset.range (mulSize layers capacity)).card := by
    apply Finset.card_le_card_of_injOn fun p => flatIndex p.1 cache.capacity p.2
    · intro p hp
      obtain ⟨hlayer, htoken⟩ := Finset.mem_product.mp hp
      rw [Finset.mem_range] at hlayer htoken
      obtain ⟨hkeys, _⟩ := hsafe.get p.1 p.2 (p.2 + 1)
        ⟨by rw [h.sameLayers]; exact hlayer, Nat.le_succ _, by rw [h.sameCapacity]; exact htoken⟩
        p.2 (Nat.le_refl _) (Nat.lt_succ_self _)
      rw [h.keys] at hkeys
      exact Finset.mem_coe.mpr (Finset.mem_range.mpr hkeys)
    · intro p hp p' hp' heq
      obtain ⟨hlayer, htoken⟩ := Finset.mem_product.mp hp
      obtain ⟨hlayer', htoken'⟩ := Finset.mem_product.mp hp'
      rw [Finset.mem_range] at hlayer htoken hlayer' htoken'
      obtain ⟨hfirst, hsecond⟩ := hsafe.distinct p.1 p.2 p'.1 p'.2
        (by rw [h.sameLayers]; exact hlayer) (by rw [h.sameCapacity]; exact htoken)
        (by rw [h.sameLayers]; exact hlayer') (by rw [h.sameCapacity]; exact htoken') heq
      exact Prod.ext hfirst hsecond
  rw [Finset.card_product, Finset.card_range, Finset.card_range, Finset.card_range] at hcard
  omega

/-- **When the checks of the cache suffice.**  For all sizes with which the constructor
returns: in every state that calls reach, each slot computed after the checks is there
and belongs to one layer and token only, if and only if the product of layers and capacity
is below `2^64`. -/
theorem slots_safe_iff [Zero α]
    (h : KVCache.new (α := α) layers heads dim capacity = .ok cache) :
    (∀ calls log, Run CacheLog.Steps { cache := cache } calls log → log.cache.SlotsSafe) ↔
      layers * capacity < 2 ^ 64 := by
  have hnew := new_sized h
  constructor
  · intro hsafe
    exact hnew.fits_of_slotsSafe (hsafe [] { cache := cache } .start)
  · intro hfits calls log hrun
    have hsized := hrun.invariant (fun log => log.cache.Sized layers capacity) hnew (by
      intro log call log' hlog hstep
      rw [← (hstep : (log.exec call).2 = log')]
      exact hlog.exec call)
    exact hsized.slotsSafe hfits

/-- Two layers of three tokens. -/
theorem slots_safe_iff_example : ∃ cache : KVCache Nat, KVCache.new 2 1 1 3 = .ok cache ∧
    ∀ calls log, Run CacheLog.Steps { cache := cache } calls log → log.cache.SlotsSafe := by
  have hnew : ∃ cache : KVCache Nat, KVCache.new 2 1 1 3 = .ok cache := by
    have hslots : mulSize 2 3 = 6 := mulSize_of_lt (by decide)
    obtain ⟨tensors, hrun, _⟩ := @newSlots_ok Nat _ 1 1 (by decide) (by decide) 6
    rw [KVCache.new, hslots, hrun]
    exact ⟨_, rfl⟩
  obtain ⟨cache, hcache⟩ := hnew
  exact ⟨cache, hcache, (slots_safe_iff hcache).mpr (by decide)⟩

/-- **A cache without slots.**  With `2^32` layers of `2^32` tokens the product wraps to
zero: the constructor returns, `get` passes its checks for the first token of the first
layer, and its slot is not there. -/
theorem slots_out_of_bounds : ∃ cache : KVCache Nat,
    KVCache.new (2 ^ 32) 1 1 (2 ^ 32) = .ok cache ∧ cache.GetChecked 0 0 1 ∧
      cache.get 0 0 1 = .error .outOfBounds ∧ ¬ cache.SlotsSafe := by
  have hslots : mulSize (2 ^ 32) (2 ^ 32) = 0 := by decide +kernel
  refine ⟨⟨2 ^ 32, 1, 1, 2 ^ 32, [], [], []⟩, ?_, ⟨by decide, by decide, by decide⟩,
    by decide +kernel, ?_⟩
  · rw [KVCache.new, hslots]
    rfl
  · intro hsafe
    obtain ⟨hkeys, _⟩ := hsafe.get 0 0 1 ⟨by decide, by decide, by decide⟩ 0 (Nat.le_refl 0)
      Nat.one_pos
    exact absurd hkeys (Nat.not_lt_zero _)

end KVCache

end Gpuforge

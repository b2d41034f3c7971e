import Mathlib.Data.List.AList
import Gpuforge.ForLoop
import Gpuforge.RowMajor
import Gpuforge.Tensors

/-!
# The key/value cache (`kv_cache.cpp`)

`KVCache` keeps one key and one value tensor for each layer and token, in
vectors with `capacity` slots a layer, and a validity bit for each slot.
`append` stores clones, `reset` clears the bits and keeps the tensors, and
`get` copies the valid slots of a token range into new flat tensors.

Each call holds the mutex, so it is one step.  Vectors are subscripted without
a check.
-/

namespace Gpuforge

structure KVCache (α : Type) where
  layers : Nat
  heads : Nat
  dim : Nat
  capacity : Nat
  keys : List (Tensor α)
  values : List (Tensor α)
  valid : List Bool
  deriving DecidableEq

namespace KVCache

variable {α : Type}

/-- The loop of the constructor: a new tensor for each slot. -/
def newSlots [Zero α] (heads dim : Nat) : Nat → Except Fault (List (Tensor α))
  | 0 => .ok []
  | slots+1 => do
      let slot ← Tensor.new [heads, dim]
      let rest ← newSlots heads dim slots
      return slot :: rest

/-- The constructor. -/
def new [Zero α] (layers heads dim capacity : Nat) : Except Fault (KVCache α) := do
  let keys ← newSlots heads dim (mulSize layers capacity)
  let values ← newSlots heads dim (mulSize layers capacity)
  return ⟨layers, heads, dim, capacity, keys, values,
    List.replicate (mulSize layers capacity) false⟩

def append (cache : KVCache α) (layer token : Nat) (key value : Tensor α) :
    Except Fault Unit × KVCache α :=
  if cache.layers ≤ layer ∨ cache.capacity ≤ token ∨
      key.numel ≠ mulSize cache.heads cache.dim ∨ value.numel ≠ key.numel then
    (.error (.threw .outOfRange), cache)
  else
    let index := flatIndex layer cache.capacity token
    if cache.keys.length ≤ index ∨ cache.values.length ≤ index ∨ cache.valid.length ≤ index then
      (.error .outOfBounds, cache)
    else
      (.ok (), { cache with
        keys := cache.keys.set index key.clone
        values := cache.values.set index value.clone
        valid := cache.valid.set index true })

/-- One turn of the inner loop of `get`: an entry of a key and of a value. -/
def copyEntry (row : Nat) (key value : Tensor α) (element : Nat) (out : Tensor α × Tensor α) :
    Except Fault (Tensor α × Tensor α) := do
  let index := flatIndex row key.numel element
  let x ← key.get element
  let keys ← out.1.put index x
  let y ← value.get element
  let values ← out.2.put index y
  return (keys, values)

/-- One turn of the outer loop of `get`: the slot of a token. -/
def copyToken (cache : KVCache α) (layer first token : Nat) (out : Tensor α × Tensor α) :
    Except Fault (Tensor α × Tensor α) :=
  let index := flatIndex layer cache.capacity token
  match cache.valid[index]?, cache.keys[index]?, cache.values[index]? with
  | some false, _, _ => .ok out
  | some true, some key, some value =>
      ForLoop.loop (copyEntry (token - first) key value) (ForLoop.upTo 0 key.numel) out
  | _, _, _ => .error .outOfBounds

def get [Zero α] (cache : KVCache α) (layer first last : Nat) :
    Except Fault (Tensor α × Tensor α) :=
  if cache.layers ≤ layer ∨ last < first ∨ cache.capacity < last then
    .error (.threw .outOfRange)
  else do
    let keys ← Tensor.new [last - first, mulSize cache.heads cache.dim]
    let values ← Tensor.new keys.shape
    ForLoop.loop (cache.copyToken layer first) (ForLoop.upTo first last) (keys, values)

def used (cache : KVCache α) : Nat := cache.valid.count true

def reset (cache : KVCache α) : KVCache α :=
  { cache with valid := List.replicate cache.valid.length false }

end KVCache

end Gpuforge

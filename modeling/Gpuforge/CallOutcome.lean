import Mathlib.Algebra.Order.Ring.Nat

/-!
# What a call can do

The C++ calls modelled in this development return, throw, or evaluate an
expression the language leaves undefined.  A throwing call may already have
changed the object, so the state travels with the exception.  `size_t` values
are natural numbers; where the code's arithmetic can pass `2^64` the model
reduces explicitly.
-/

namespace Gpuforge

/-- The standard exceptions the modelled code throws. -/
inductive Exn where
  | badAlloc
  | invalidArgument
  | outOfRange
  | lengthError
  deriving DecidableEq, Repr

/-- What can stop a computation before its end. -/
inductive Fault where
  | threw (exn : Exn)
  /-- An access outside of an array, where the code does not check. -/
  | outOfBounds
  /-- An `int` expression whose value is no `int`. -/
  | overflow
  /-- A `size_t` counter that passes `2^64` before its bound, and starts over. -/
  | wraps
  deriving DecidableEq, Repr

/-- A step that succeeds hands its value on. -/
theorem ok_bind {ε α β : Type} (a : α) (f : α → Except ε β) : (Except.ok a >>= f) = f a :=
  rfl

/-- Two steps that succeed. -/
theorem bind_ok {ε α β : Type} {r : Except ε α} {f : α → Except ε β} {b : β}
    (h : (r >>= f) = .ok b) : ∃ a, r = .ok a ∧ f a = .ok b := by
  cases r with
  | error e => cases h
  | ok a => exact ⟨a, rfl, h⟩

/-- How a call ends, with the state (or result) it leaves behind. -/
inductive Outcome (σ : Type) where
  | returned (state : σ)
  | threw (exn : Exn) (state : σ)
  /-- The call evaluates an out-of-range subscript. -/
  | undefined
  /-- The turn budget given to a loop was used up. -/
  | diverged
  deriving DecidableEq, Repr

/-- The state in which the caller continues, if there is one. -/
def Outcome.state? {σ : Type} : Outcome σ → Option σ
  | .returned s => some s
  | .threw _ s => some s
  | .undefined => none
  | .diverged => none

/-- The conversion `(int)i` of a `size_t`: reduction modulo `2^32` into the
signed range. -/
def castInt (i : Nat) : Int := (i : Int).bmod (2 ^ 32)

/-- An index below `2^31` survives the conversion to `int`. -/
theorem castInt_of_lt {i : Nat} (h : i < 2 ^ 31) : castInt i = i := by
  unfold castInt
  rw [Int.bmod_eq_of_le] <;> omega

/-- No other index survives it. -/
theorem castInt_eq_iff {i : Nat} : castInt i = i ↔ i < 2 ^ 31 := by
  constructor
  · intro h
    have hlt := Int.bmod_lt (x := i) (m := 2 ^ 32) (by decide)
    unfold castInt at h
    omega
  · exact castInt_of_lt

/-- The conversion of a signed value to `size_t`. -/
def castSize (i : Int) : Nat := (i % ((2 ^ 64 : Nat) : Int)).toNat

/-- A non-negative value of a signed type survives the conversion to `size_t`. -/
theorem castSize_natCast {n : Nat} (h : n < 2 ^ 64) : castSize n = n := by
  rw [castSize, Int.emod_eq_of_lt (by omega) (by omega), Int.toNat_natCast]

/-- The value of an `int` expression: sums and products are taken modulo `2^32`
into the signed range, as two's complement machines compute them. -/
def wrapInt (i : Int) : Int := i.bmod (2 ^ 32)

/-- An `int` expression that fits is its value. -/
theorem wrapInt_of_lt {i : Int} (hlow : -2 ^ 31 ≤ i) (hhigh : i < 2 ^ 31) : wrapInt i = i := by
  rw [wrapInt, Int.bmod_eq_of_le] <;> omega

/-- A difference wraps once. -/
theorem wrapInt_sub (i j : Int) : wrapInt (wrapInt i - j) = wrapInt (i - j) := by
  simp [wrapInt]

/-- The value of an `int64_t` expression, likewise. -/
def wrapInt64 (i : Int) : Int := i.bmod (2 ^ 64)

/-- `a + b` in `size_t`. -/
@[irreducible] def addSize (a b : Nat) : Nat := (a + b) % 2 ^ 64

/-- `a - b` in `size_t`. -/
@[irreducible] def subSize (a b : Nat) : Nat := (a + 2 ^ 64 - b) % 2 ^ 64

/-- A sum that fits is the sum. -/
theorem addSize_of_lt {a b : Nat} (h : a + b < 2 ^ 64) : addSize a b = a + b := by
  rw [addSize, Nat.mod_eq_of_lt h]

/-- A difference that is not negative is the difference. -/
theorem subSize_of_le {a b : Nat} (h : b ≤ a) (ha : a < 2 ^ 64) : subSize a b = a - b := by
  rw [subSize, show a + 2 ^ 64 - b = (a - b) + 2 ^ 64 by omega, Nat.add_mod_right]
  exact Nat.mod_eq_of_lt (by omega)

/-- `a * b` in `size_t`. -/
@[irreducible] def mulSize (a b : Nat) : Nat := a * b % 2 ^ 64

/-- A product that fits is the product. -/
theorem mulSize_of_lt {a b : Nat} (h : a * b < 2 ^ 64) : mulSize a b = a * b := by
  rw [mulSize, Nat.mod_eq_of_lt h]

/-- The index of a cell in a row-major array, in `size_t`. -/
def flatIndex (row columns column : Nat) : Nat := addSize (mulSize row columns) column

/-- An index that fits is the index. -/
theorem flatIndex_of_lt {row columns column : Nat} (h : row * columns + column < 2 ^ 64) :
    flatIndex row columns column = row * columns + column := by
  have hmul : mulSize row columns = row * columns := mulSize_of_lt (by omega)
  rw [flatIndex, hmul, addSize_of_lt h]

/-- `std::memcpy(dst + at, src, |src|)`. -/
def memcpy (dst : List UInt8) (at_ : Nat) (src : List UInt8) : List UInt8 :=
  dst.take at_ ++ src ++ dst.drop (at_ + src.length)

/-- A copy that fits keeps the destination's length. -/
theorem memcpy_length {dst src : List UInt8} {at_ : Nat}
    (h : at_ + src.length ≤ dst.length) : (memcpy dst at_ src).length = dst.length := by
  simp only [memcpy, List.length_append, List.length_take, List.length_drop]
  omega

/-- What stands before the end of the copied range: the old prefix and then
the source. -/
theorem take_memcpy {dst src : List UInt8} {at_ : Nat} (h : at_ ≤ dst.length) :
    (memcpy dst at_ src).take (at_ + src.length) = dst.take at_ ++ src := by
  have hlen : (dst.take at_ ++ src).length = at_ + src.length := by
    simp [Nat.min_eq_left h]
  rw [memcpy, ← hlen, List.take_left]

/-- Copying nothing changes nothing. -/
theorem memcpy_nil (dst : List UInt8) (at_ : Nat) : memcpy dst at_ [] = dst := by
  simp [memcpy]

/-- Two adjacent copies are one copy of the concatenation. -/
theorem memcpy_memcpy (dst first second : List UInt8) :
    memcpy (memcpy dst 0 first) first.length second = memcpy dst 0 (first ++ second) := by
  simp [memcpy, List.drop_append, List.drop_drop]

end Gpuforge

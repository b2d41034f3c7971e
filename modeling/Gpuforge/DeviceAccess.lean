import Mathlib.Algebra.Order.Ring.Int
import Gpuforge.CallOutcome
import Gpuforge.GridLaunch
import Gpuforge.Tensors

/-!
# Values and arrays on the device (`kernels.cu`)

Device code computes indices in `int`, where a sum or a product that is no `int`
is undefined, and reads and writes device arrays without a check.  Both are
faults here.  The sums of the host wrap, one operation at a time.

A launch leaves its stores in a device array that started with any contents, and
the host copies the array back into a tensor (`copyBack`).
-/

namespace Gpuforge

open GridLaunch

/-- A sum or a product of type `int`. -/
def checkedInt (i : Int) : Except Fault Int :=
  if -2 ^ 31 ≤ i ∧ i < 2 ^ 31 then .ok i else .error .overflow

/-- The conversion of an `int` to `unsigned`. -/
def castUnsigned (i : Int) : Nat := (i % 2 ^ 32).toNat

/-- `buffer[i]`, read. -/
def readAt {α : Type} (buffer : List α) (i : Int) : Except Fault α :=
  if 0 ≤ i then
    match buffer[i.toNat]? with
    | some value => .ok value
    | none => .error .outOfBounds
  else .error .outOfBounds

/-- `buffer[i] = value` of a thread, on an array of a size. -/
def writeAt {α : Type} (size : Nat) (blockIdx threadIdx : Idx) (i : Int) (value : α) :
    Except Fault (List (Store α)) :=
  if 0 ≤ i ∧ i < size then .ok [⟨blockIdx, threadIdx, i.toNat, value⟩]
  else .error .outOfBounds

/-- `row * columns + column`, in `int`. -/
def cellIndex (row columns column : Int) : Except Fault Int := do
  let product ← checkedInt (row * columns)
  checkedInt (product + column)

/-- `buffer[row * columns + column]`, read. -/
def cellAt {α : Type} (buffer : List α) (row columns column : Int) : Except Fault α := do
  let index ← cellIndex row columns column
  readAt buffer index

/-- What a launch did: its stores, and the tensor copied back to the host. -/
structure Launched (α : Type) where
  stores : List (Store α)
  output : Tensor α

/-- The copy back, after stores into an array of any contents. -/
def copyBack {α : Type} (fresh : Nat → α) (stores : List (Store α)) (output : Tensor α) :
    Launched α :=
  ⟨stores, output.overwrite (commit stores ((List.range output.numel).map fresh))⟩

/-- A value that is an `int`. -/
theorem checkedInt_natCast {i : Int} {n : Nat} (hi : i = n) (h : n < 2 ^ 31) :
    checkedInt i = .ok (n : Int) := by
  rw [hi, checkedInt, if_pos (by omega)]

/-- The rounding sum for a grid, as the host computes it; the first sum may wrap. -/
theorem wrapInt_rounded {n unit : Nat} (hunit : 1 ≤ unit) (h : n + unit - 1 < 2 ^ 31) :
    wrapInt (wrapInt (n + unit) - 1) = (n + unit - 1 : Nat) := by
  rw [wrapInt_sub, wrapInt_of_lt (by omega) (by omega)]
  omega

theorem castUnsigned_natCast {n : Nat} (h : n < 2 ^ 31) : castUnsigned n = n := by
  rw [castUnsigned, Int.emod_eq_of_lt (by omega) (by omega), Int.toNat_natCast]

/-- A read inside. -/
theorem readAt_natCast {α : Type} {buffer : List α} {n : Nat} {value : α}
    (h : buffer[n]? = some value) : readAt buffer n = .ok value := by
  rw [readAt, if_pos (by omega), Int.toNat_natCast, h]

/-- A write inside. -/
theorem writeAt_natCast {α : Type} {size n : Nat} (h : n < size) (blockIdx threadIdx : Idx)
    (value : α) : writeAt size blockIdx threadIdx n value
      = .ok [⟨blockIdx, threadIdx, n, value⟩] := by
  rw [writeAt, if_pos (by omega), Int.toNat_natCast]

/-- The cells of a device array that holds a matrix. -/
def DeviceCells {α : Type} (buffer : List α) (rows columns : Nat) (c : Nat → Nat → α) : Prop :=
  ∀ i < rows, ∀ j < columns, buffer[i * columns + j]? = some (c i j)

/-- The index of a cell that is an `int`. -/
theorem cellIndex_eq {row columns column : Int} {i w j : Nat} (hrow : row = i)
    (hcolumns : columns = w) (hcolumn : column = j) (h : i * w + j < 2 ^ 31) :
    cellIndex row columns column = .ok ((i * w + j : Nat) : Int) := by
  subst hrow hcolumns hcolumn
  rw [cellIndex, checkedInt_natCast (n := i * w) (by push_cast; rfl) (by omega), ok_bind,
    checkedInt_natCast (n := i * w + j) (by push_cast; rfl) h]

/-- A read of a cell. -/
theorem DeviceCells.cellAt {α : Type} {buffer : List α} {rows w : Nat} {c : Nat → Nat → α}
    (h : DeviceCells buffer rows w c) (hsize : rows * w < 2 ^ 31) {row columns column : Int}
    {i j : Nat} (hrow : row = i) (hcolumns : columns = w) (hcolumn : column = j)
    (hi : i < rows) (hj : j < w) :
    Gpuforge.cellAt buffer row columns column = .ok (c i j) := by
  have hcell := RowMajor.cell_lt hi hj
  rw [Gpuforge.cellAt, cellIndex_eq hrow hcolumns hcolumn (by omega), ok_bind,
    readAt_natCast (h i hi j hj)]

/-! ## Accesses that can only overflow -/

/-- The only fault is an overflow, and that only without room. -/
def OverflowUnless (room : Prop) (fault : Fault) : Prop := fault = .overflow ∧ ¬ room

section overflow

open ForLoop

variable {room : Prop} {α : Type}

/-- An `int` operation that has its value if there is room. -/
theorem endsIn_checkedInt {i : Int} {n : Nat} (hi : i = n) (h : room → n < 2 ^ 31) :
    EndsIn (OverflowUnless room) (checkedInt i) := by
  unfold checkedInt
  split
  · exact endsIn_ok i
  · refine endsIn_error ⟨rfl, ?_⟩
    intro hroom
    have hlt := h hroom
    omega

/-- An `int` operation that has a value has the exact one. -/
theorem checkedInt_ok {i j : Int} (h : checkedInt i = .ok j) : j = i ∧ i < 2 ^ 31 := by
  unfold checkedInt at h
  split at h
  · rename_i hfits
    cases h
    exact ⟨rfl, hfits.2⟩
  · cases h

/-- The index of a cell that has a value is the exact one. -/
theorem cellIndex_ok {row columns column index : Int}
    (h : cellIndex row columns column = .ok index) :
    index = row * columns + column ∧ row * columns + column < 2 ^ 31 := by
  obtain ⟨product, hproduct, hsum⟩ := bind_ok h
  obtain ⟨rfl, _⟩ := checkedInt_ok hproduct
  exact checkedInt_ok hsum

/-- An `int` operation, and what follows with its exact value. -/
theorem endsIn_checkedInt_bind {β : Type} {f : Int → Except Fault β} {i : Int} {n : Nat}
    (hi : i = n) (h : room → n < 2 ^ 31) (hf : EndsIn (OverflowUnless room) (f n)) :
    EndsIn (OverflowUnless room) (checkedInt i >>= f) := by
  apply (endsIn_checkedInt hi h).bind
  intro j hj
  obtain ⟨rfl, _⟩ := checkedInt_ok hj
  rwa [hi]

/-- The index of a cell, and what follows with its exact value. -/
theorem endsIn_cellIndex_bind {β : Type} {f : Int → Except Fault β} {row columns column : Int}
    {i w j : Nat} (hrow : row = i) (hcolumns : columns = w) (hcolumn : column = j)
    (h : room → i * w + j < 2 ^ 31)
    (hf : EndsIn (OverflowUnless room) (f ((i * w + j : Nat) : Int))) :
    EndsIn (OverflowUnless room) (cellIndex row columns column >>= f) := by
  subst hrow hcolumns hcolumn
  have hindex : EndsIn (OverflowUnless room) (cellIndex i w j) := by
    apply endsIn_checkedInt_bind (n := i * w) (by push_cast; rfl)
    · intro hroom
      have hlt := h hroom
      omega
    · exact endsIn_checkedInt (n := i * w + j) (by push_cast; rfl) h
  apply hindex.bind
  intro index hvalue
  have hexact : index = ((i * w + j : Nat) : Int) := by
    rw [(cellIndex_ok hvalue).1]
    push_cast
    rfl
  rw [hexact]
  exact hf

/-- A read of a cell of a matrix can only overflow. -/
theorem DeviceCells.endsIn_cellAt {buffer : List α} {rows w : Nat} {c : Nat → Nat → α}
    (h : DeviceCells buffer rows w c) (hsize : room → rows * w ≤ 2 ^ 31)
    {row columns column : Int} {i j : Nat} (hrow : row = i) (hcolumns : columns = w)
    (hcolumn : column = j) (hi : i < rows) (hj : j < w) :
    EndsIn (OverflowUnless room) (Gpuforge.cellAt buffer row columns column) := by
  have hcell := RowMajor.cell_lt hi hj
  apply endsIn_cellIndex_bind hrow hcolumns hcolumn
  · intro hroom
    exact Nat.lt_of_lt_of_le hcell (hsize hroom)
  · rw [readAt_natCast (h i hi j hj)]
    exact endsIn_ok _

/-- A cell that was read has an index that is an `int`. -/
theorem cellAt_ok {buffer : List α} {row columns column : Int} {value : α}
    (h : cellAt buffer row columns column = .ok value) : row * columns + column < 2 ^ 31 := by
  obtain ⟨index, hindex, _⟩ := bind_ok h
  exact (cellIndex_ok hindex).2

/-- A write to a cell of a matrix is inside. -/
theorem endsIn_writeAt {errors : Fault → Prop} {rows w i j : Nat} (hi : i < rows) (hj : j < w)
    (blockIdx threadIdx : Idx) (value : α) :
    EndsIn errors (writeAt (rows * w) blockIdx threadIdx ((i * w + j : Nat) : Int) value) := by
  rw [writeAt_natCast (RowMajor.cell_lt hi hj)]
  exact endsIn_ok _

end overflow

/-- **Every cell is written once.**  Each cell of a matrix has exactly one store,
with its value, and no store goes elsewhere. -/
structure Launched.Writes {α : Type} (launched : Launched α) (rows columns : Nat)
    (c : Nat → Nat → α) : Prop where
  once : ∀ i < rows, ∀ j < columns, WrittenOnce launched.stores (i * columns + j) (c i j)
  inside : ∀ store ∈ launched.stores, store.index < rows * columns

/-- The same cells under another description. -/
theorem Launched.Writes.congr {α : Type} {launched : Launched α} {rows columns : Nat}
    {c d : Nat → Nat → α} (h : launched.Writes rows columns c)
    (heq : ∀ i < rows, ∀ j < columns, d i j = c i j) : launched.Writes rows columns d := by
  refine ⟨?_, h.inside⟩
  intro i hi j hj
  rw [heq i hi j hj]
  exact h.once i hi j hj

/-- **The tensor that comes back has the values of the stores.** -/
theorem Launched.Writes.copied {α : Type} {fresh : Nat → α} {stores : List (Store α)}
    {output : Tensor α} {rows columns : Nat} {c : Nat → Nat → α}
    (h : (copyBack fresh stores output).Writes rows columns c)
    (hshape : output.shape = [rows, columns]) :
    (copyBack fresh stores output).output.Cells rows columns c := by
  have hstorage := (Tensor.length_of_matrix hshape).1
  have hlength : (commit stores ((List.range output.numel).map fresh)).length
      = output.storage.length := by
    rw [length_commit, List.length_map, List.length_range]
    rfl
  refine ⟨hshape, ?_⟩
  intro i hi j hj
  have hcell := RowMajor.cell_lt hi hj
  rw [copyBack, Tensor.overwrite_storage hlength]
  apply (h.once i hi j hj).commit
  rw [List.length_map, List.length_range, Tensor.numel]
  omega

end Gpuforge

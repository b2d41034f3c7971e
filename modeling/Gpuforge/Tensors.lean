import Mathlib.Algebra.Order.Ring.Int
import Gpuforge.CallOutcome
import Gpuforge.RowMajor

/-!
# Tensors (`tensor.cpp`)

A tensor is a shape and the entries of its storage, as many as the product of
the shape.  `numel` computes the product in `size_t` and throws before it
overflows.  Access is checked.

`shared_ptr` makes copies of a tensor share their storage; the modelled code
works on fresh tensors and clones, so a tensor is a value here.
-/

namespace Gpuforge

/-- The loop of `numel`, from a partial product on. -/
def numelFrom (result : Nat) : List Nat → Except Exn Nat
  | [] => .ok result
  | dimension :: rest =>
      if dimension ≠ 0 ∧ (2 ^ 64 - 1) / dimension < result then .error .lengthError
      else numelFrom (result * dimension) rest

/-- The number of entries of a shape. -/
def numel (shape : List Nat) : Except Exn Nat :=
  if shape = [] then .ok 0 else numelFrom 1 shape

/-- The number of cells of a matrix. -/
theorem numel_pair {rows columns : Nat} (hrows : rows < 2 ^ 64)
    (h : rows * columns < 2 ^ 64) : numel [rows, columns] = .ok (rows * columns) := by
  have hfirst : ¬ (rows ≠ 0 ∧ (2 ^ 64 - 1) / rows < 1) := by
    intro hbad
    have hpos : 0 < rows := by omega
    have hle : 1 ≤ (2 ^ 64 - 1) / rows := (Nat.le_div_iff_mul_le hpos).mpr (by omega)
    omega
  have hsecond : ¬ (columns ≠ 0 ∧ (2 ^ 64 - 1) / columns < rows) := by
    intro hbad
    have hpos : 0 < columns := by omega
    have hle : rows ≤ (2 ^ 64 - 1) / columns := (Nat.le_div_iff_mul_le hpos).mpr (by omega)
    omega
  simp only [numel, numelFrom, reduceCtorEq, if_false, Nat.one_mul, if_neg hfirst,
    if_neg hsecond]

/-- A matrix whose cells were counted has no more than fit. -/
theorem numel_pair_eq {rows columns n : Nat} (h : numel [rows, columns] = .ok n) :
    n = rows * columns ∧ rows * columns < 2 ^ 64 := by
  simp only [numel, numelFrom, reduceCtorEq, if_false, Nat.one_mul] at h
  split at h
  · cases h
  · split at h
    · cases h
    · rename_i hsecond
      cases h
      refine ⟨rfl, ?_⟩
      rcases Nat.eq_zero_or_pos columns with hzero | hpos
      · simp [hzero]
      · have hle : rows ≤ (2 ^ 64 - 1) / columns := by omega
        have hmul := (Nat.le_div_iff_mul_le hpos).mp hle
        omega

/-- A matrix with too many cells is not counted. -/
theorem numel_pair_overflow {rows columns : Nat} (h : 2 ^ 64 ≤ rows * columns) :
    numel [rows, columns] = .error .lengthError := by
  cases hnumel : numel [rows, columns] with
  | ok n =>
      have hfits := (numel_pair_eq hnumel).2
      omega
  | error e =>
      simp only [numel, numelFrom, reduceCtorEq, if_false, Nat.one_mul] at hnumel
      split at hnumel
      · exact hnumel.symm
      · split at hnumel
        · exact hnumel.symm
        · cases hnumel

/-- A tensor, with storage for its shape. -/
structure Tensor (α : Type) where
  shape : List Nat
  storage : List α
  sized : Gpuforge.numel shape = .ok storage.length
  deriving DecidableEq

namespace Tensor

variable {α : Type}

/-- `numel()`, which returns the size of the storage (`sized`). -/
def numel (t : Tensor α) : Nat := t.storage.length

/-- The constructor: a tensor of zeros. -/
def new [Zero α] (shape : List Nat) : Except Fault (Tensor α) :=
  match h : Gpuforge.numel shape with
  | .error e => .error (.threw e)
  | .ok n => .ok ⟨shape, List.replicate n 0, by rw [h, List.length_replicate]⟩

/-- A tensor with one entry changed. -/
def set (t : Tensor α) (index : Nat) (value : α) : Tensor α :=
  ⟨t.shape, t.storage.set index value, by rw [t.sized, List.length_set]⟩

/-- `at(index)`, read. -/
def get (t : Tensor α) (index : Nat) : Except Fault α :=
  match t.storage[index]? with
  | none => .error (.threw .outOfRange)
  | some value => .ok value

/-- `at(index) = value`. -/
def put (t : Tensor α) (index : Nat) (value : α) : Except Fault (Tensor α) :=
  if index < t.numel then .ok (t.set index value) else .error (.threw .outOfRange)

def fill (t : Tensor α) (value : α) : Tensor α :=
  ⟨t.shape, List.replicate t.numel value, by rw [t.sized, List.length_replicate]; rfl⟩

def zeros [Zero α] (t : Tensor α) : Tensor α := t.fill 0

/-- A copy of other entries over the storage. -/
def overwrite (t : Tensor α) (data : List α) : Tensor α :=
  ⟨t.shape, (data ++ t.storage.drop data.length).take t.storage.length, by
    rw [t.sized]
    congr 1
    simp only [List.length_take, List.length_append, List.length_drop]
    omega⟩

def clone (t : Tensor α) : Tensor α := ⟨t.shape, t.storage, t.sized⟩

@[simp] theorem set_shape (t : Tensor α) (index : Nat) (value : α) :
    (t.set index value).shape = t.shape :=
  rfl

@[simp] theorem set_storage (t : Tensor α) (index : Nat) (value : α) :
    (t.set index value).storage = t.storage.set index value :=
  rfl

@[simp] theorem clone_eq (t : Tensor α) : t.clone = t := rfl

/-- A copy of as many entries as there are. -/
theorem overwrite_storage {t : Tensor α} {data : List α}
    (h : data.length = t.storage.length) : (t.overwrite data).storage = data := by
  simp only [overwrite]
  rw [h, List.drop_length, List.append_nil, ← h, List.take_length]

/-- A read inside. -/
theorem get_eq {t : Tensor α} {index : Nat} {value : α} (h : t.storage[index]? = some value) :
    t.get index = .ok value := by
  rw [get, h]

/-- A write inside. -/
theorem put_eq {t : Tensor α} {index : Nat} (h : index < t.storage.length) (value : α) :
    t.put index value = .ok (t.set index value) :=
  if_pos h

/-- The storage of a matrix. -/
theorem length_of_matrix {t : Tensor α} {rows columns : Nat}
    (hshape : t.shape = [rows, columns]) :
    t.storage.length = rows * columns ∧ rows * columns < 2 ^ 64 := by
  have hsized := t.sized
  rw [hshape] at hsized
  exact numel_pair_eq hsized

/-! ## Matrices -/

/-- **A matrix and its cells.** -/
structure Cells (t : Tensor α) (rows columns : Nat) (c : Nat → Nat → α) : Prop where
  shape : t.shape = [rows, columns]
  cells : ∀ i < rows, ∀ j < columns, t.storage[i * columns + j]? = some (c i j)

/-- The entry of a matrix with a number of columns. -/
def entry [Zero α] (t : Tensor α) (columns i j : Nat) : α := t.storage.getD (i * columns + j) 0

/-- The same row in two matrices with as many columns. -/
def SameRow [Zero α] (t t' : Tensor α) (columns i : Nat) : Prop :=
  ∀ j < columns, t'.entry columns i j = t.entry columns i j

/-- The same row with a constant added to each entry. -/
def RowPlus [Zero α] [Add α] (t t' : Tensor α) (columns i : Nat) (a : α) : Prop :=
  ∀ j < columns, t'.entry columns i j = t.entry columns i j + a

section cells

variable {t : Tensor α} {rows columns : Nat} {c d : Nat → Nat → α}

/-- The cells of a matrix are its entries. -/
theorem cells_entry [Zero α] (hshape : t.shape = [rows, columns]) :
    Cells t rows columns (t.entry columns) := by
  refine ⟨hshape, ?_⟩
  intro i hi j hj
  have hlt : i * columns + j < t.storage.length := by
    rw [(length_of_matrix hshape).1]
    exact RowMajor.cell_lt hi hj
  rw [entry, List.getD_eq_getElem?_getD, List.getElem?_eq_getElem hlt, Option.getD_some]

/-- The entry of a cell. -/
theorem Cells.entry_eq [Zero α] (h : Cells t rows columns c) {i j : Nat} (hi : i < rows)
    (hj : j < columns) : t.entry columns i j = c i j := by
  rw [entry, List.getD_eq_getElem?_getD, h.cells i hi j hj, Option.getD_some]

/-- The index of a cell fits. -/
theorem Cells.index (h : Cells t rows columns c) {i j : Nat} (hi : i < rows)
    (hj : j < columns) : flatIndex i columns j = i * columns + j := by
  obtain ⟨_, hfits⟩ := length_of_matrix h.shape
  have hlt := RowMajor.cell_lt hi hj
  exact flatIndex_of_lt (by omega)

/-- Reading a cell. -/
theorem Cells.get (h : Cells t rows columns c) {i j : Nat} (hi : i < rows) (hj : j < columns) :
    t.get (flatIndex i columns j) = .ok (c i j) := by
  rw [h.index hi hj]
  exact get_eq (h.cells i hi j hj)

/-- Writing a cell. -/
theorem Cells.put (h : Cells t rows columns c) {i j : Nat} (hi : i < rows) (hj : j < columns)
    (x : α) : ∃ t', t.put (flatIndex i columns j) x = .ok t' ∧
      Cells t' rows columns fun i' j' => if i' = i ∧ j' = j then x else c i' j' := by
  have hlt : i * columns + j < t.storage.length := by
    rw [(length_of_matrix h.shape).1]
    exact RowMajor.cell_lt hi hj
  rw [h.index hi hj]
  refine ⟨_, put_eq hlt x, h.shape, ?_⟩
  intro i' hi' j' hj'
  rw [set_storage, RowMajor.getElem?_set hj hj' hlt, h.cells i' hi' j' hj']
  split <;> rfl

/-- Zeros everywhere. -/
theorem Cells.zeros [Zero α] (h : Cells t rows columns c) :
    Cells t.zeros rows columns fun _ _ => 0 := by
  refine ⟨h.shape, ?_⟩
  intro i hi j hj
  have hlt : i * columns + j < t.numel := by
    rw [numel, (length_of_matrix h.shape).1]
    exact RowMajor.cell_lt hi hj
  rw [Tensor.zeros, fill, List.getElem?_replicate, if_pos hlt]

/-- The same cells under another description. -/
theorem Cells.congr (h : Cells t rows columns c)
    (heq : ∀ i < rows, ∀ j < columns, c i j = d i j) : Cells t rows columns d := by
  refine ⟨h.shape, ?_⟩
  intro i hi j hj
  rw [h.cells i hi j hj, heq i hi j hj]

/-- The cells are all there is. -/
theorem Cells.eq {t' : Tensor α} (h : Cells t rows columns c) (h' : Cells t' rows columns c) :
    t = t' := by
  have hlength := (length_of_matrix h.shape).1
  have hlength' := (length_of_matrix h'.shape).1
  have hshape : t.shape = t'.shape := by rw [h.shape, h'.shape]
  have hstorage : t.storage = t'.storage := by
    apply List.ext_getElem?
    intro n
    by_cases hn : n < rows * columns
    · obtain ⟨i, j, hi, hj, rfl⟩ := RowMajor.exists_cell hn
      rw [h.cells i hi j hj, h'.cells i hi j hj]
    · rw [List.getElem?_eq_none (by omega), List.getElem?_eq_none (by omega)]
  obtain ⟨shape, storage, sized⟩ := t
  obtain ⟨shape', storage', sized'⟩ := t'
  simp only at hshape hstorage
  subst hshape hstorage
  rfl

/-- Matrices with the same rows are the same. -/
theorem eq_of_sameRow [Zero α] {t' : Tensor α} (hshape : t.shape = [rows, columns])
    (hshape' : t'.shape = [rows, columns]) (h : ∀ i < rows, t.SameRow t' columns i) : t' = t :=
  (cells_entry hshape').eq ((cells_entry hshape).congr fun i hi j hj => (h i hi j hj).symm)

end cells

/-- A new matrix is full of zeros. -/
theorem new_cells [Zero α] {rows columns : Nat} (hrows : rows < 2 ^ 64)
    (h : rows * columns < 2 ^ 64) :
    ∃ t : Tensor α, Tensor.new [rows, columns] = .ok t ∧ Cells t rows columns fun _ _ => 0 := by
  unfold new
  split
  · rename_i e he
    rw [numel_pair hrows h] at he
    cases he
  · rename_i n hn
    rw [numel_pair hrows h] at hn
    cases hn
    refine ⟨_, rfl, rfl, ?_⟩
    intro i hi j hj
    rw [List.getElem?_replicate, if_pos (RowMajor.cell_lt hi hj)]

/-- There is a new matrix of the shape of one that has a column. -/
theorem Cells.new_alike [Zero α] {t : Tensor α} {rows columns : Nat} {x : Nat → Nat → α}
    (h : Cells t rows columns x) (hcolumns : 1 ≤ columns) :
    ∃ t : Tensor α, Tensor.new [rows, columns] = .ok t ∧ Cells t rows columns fun _ _ => 0 := by
  obtain ⟨_, hfits⟩ := length_of_matrix h.shape
  have hle := Nat.le_mul_of_pos_right rows hcolumns
  exact new_cells (by omega) hfits

/-- A new matrix with too many cells. -/
theorem new_overflow [Zero α] {rows columns : Nat} (h : 2 ^ 64 ≤ rows * columns) :
    Tensor.new (α := α) [rows, columns] = .error (.threw .lengthError) := by
  unfold new
  split
  · rename_i e he
    rw [numel_pair_overflow h] at he
    cases he
    rfl
  · rename_i n hn
    rw [numel_pair_overflow h] at hn
    cases hn

/-- A new matrix has as many cells as fit. -/
theorem new_fits [Zero α] {rows columns : Nat} {t : Tensor α}
    (h : Tensor.new [rows, columns] = .ok t) : rows * columns < 2 ^ 64 := by
  apply Nat.lt_of_not_le
  intro hover
  rw [new_overflow hover] at h
  cases h

end Tensor

end Gpuforge

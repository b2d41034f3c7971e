import Gpuforge.ForLoop
import Gpuforge.NanOrder
import Gpuforge.Tensors

/-!
# Comparing a result with the expected one (`precision.hpp`, `precision.cpp`)

`compare` keeps the largest absolute difference of two tensors, and `pass` asks whether it
is within the tolerance.  The maximum starts at 0 and takes each difference on the right of
`std::max`, where NaN is dropped: an entry that is NaN in either tensor leaves no trace in
`max_abs`.  So `pass` says that all entries agree when no difference is NaN, and it also
says the right thing when another entry is off by more than the tolerance; in all other
cases it lets NaN pass (`compare_passes_iff`, `nan_passes`).
-/

namespace Gpuforge

open ForLoop NanOrder WithNan

/-- `float` arithmetic, as far as `compare` uses it: NaN goes through. -/
structure FloatArithmetic (α : Type) where
  sub : WithNan α → WithNan α → WithNan α
  add : WithNan α → WithNan α → WithNan α
  div : WithNan α → WithNan α → WithNan α
  abs : WithNan α → WithNan α
  /-- `static_cast<float>` of a `size_t`. -/
  ofSize : Nat → WithNan α
  sub_nan_left : ∀ a, sub nan a = nan
  sub_nan_right : ∀ a, sub a nan = nan
  abs_nan : abs nan = nan

structure ErrorStats (α : Type) where
  maxAbs : WithNan α
  meanAbs : WithNan α
  maxRel : WithNan α
  count : Nat
  deriving DecidableEq

section code

variable {α : Type} [Zero α] [LinearOrder α]

/-- `ErrorStats::pass`. -/
def ErrorStats.pass (stats : ErrorStats α) (tol : WithNan α) : Bool := stats.maxAbs.le tol

/-- The loop body of `compare`. -/
def compareTurn (f : FloatArithmetic α) (expected actual : Tensor (WithNan α))
    (epsilon : WithNan α) (index : Nat) (stats : ErrorStats α) :
    Except Fault (ErrorStats α) := do
  let e ← expected.get index
  let a ← actual.get index
  let absolute := f.abs (f.sub e a)
  let relative := f.div absolute (f.add (f.abs a) epsilon)
  .ok { stats with
    maxAbs := stats.maxAbs.stdMax absolute
    meanAbs := f.add stats.meanAbs absolute
    maxRel := stats.maxRel.stdMax relative }

def compare (f : FloatArithmetic α) (expected actual : Tensor (WithNan α))
    (epsilon : WithNan α) : Except Fault (ErrorStats α) :=
  if expected.shape ≠ actual.shape then .error (.threw .invalidArgument)
  else do
    let stats ← loop (compareTurn f expected actual epsilon) (upTo 0 expected.numel)
      { maxAbs := num 0, meanAbs := num 0, maxRel := num 0, count := expected.numel }
    .ok (if stats.count ≠ 0 then
      { stats with meanAbs := f.div stats.meanAbs (f.ofSize stats.count) } else stats)

end code

variable {α : Type} {f : FloatArithmetic α} {expected actual : Tensor (WithNan α)}

/-- `|expected[i] - actual[i]|` for every index. -/
def differences (f : FloatArithmetic α) (expected actual : Tensor (WithNan α)) :
    List (WithNan α) :=
  List.zipWith (fun e a => f.abs (f.sub e a)) expected.storage actual.storage

/-- Tensors of one shape have as many entries. -/
theorem length_eq_of_shape (hshape : expected.shape = actual.shape) :
    expected.storage.length = actual.storage.length := by
  have hsized := expected.sized
  rw [hshape, actual.sized] at hsized
  exact (Except.ok.inj hsized).symm

/-- NaN in either tensor is NaN in a difference. -/
theorem nan_mem_differences (hshape : expected.shape = actual.shape)
    (hnan : nan ∈ expected.storage ∨ nan ∈ actual.storage) :
    nan ∈ differences f expected actual := by
  have hlength := length_eq_of_shape hshape
  rcases hnan with hleft | hright
  · obtain ⟨i, hi, hentry⟩ := List.mem_iff_getElem.mp hleft
    refine List.mem_iff_getElem.mpr ⟨i, by simp [differences]; omega, ?_⟩
    simp only [differences, List.getElem_zipWith, hentry, f.sub_nan_left, f.abs_nan]
  · obtain ⟨i, hi, hentry⟩ := List.mem_iff_getElem.mp hright
    refine List.mem_iff_getElem.mpr ⟨i, by simp [differences]; omega, ?_⟩
    simp only [differences, List.getElem_zipWith, hentry, f.sub_nan_right, f.abs_nan]

variable [Zero α] [LinearOrder α]

/-- One turn takes the difference at its index into the maximum. -/
theorem compareTurn_maxAbs (hshape : expected.shape = actual.shape) (epsilon : WithNan α)
    {index : Nat} (hindex : index < expected.numel) (stats : ErrorStats α)
    (hmax : stats.maxAbs = ((differences f expected actual).take index).foldl stdMax (num 0)) :
    ∃ stats', compareTurn f expected actual epsilon index stats = .ok stats' ∧
      stats'.maxAbs =
        ((differences f expected actual).take (index + 1)).foldl stdMax (num 0) := by
  have hleft : index < expected.storage.length := hindex
  have hright : index < actual.storage.length := by
    rw [← length_eq_of_shape hshape]
    exact hindex
  have hlt : index < (differences f expected actual).length := by
    rw [differences, List.length_zipWith]
    omega
  refine ⟨_, by
    rw [compareTurn, Tensor.get_eq (List.getElem?_eq_getElem hleft), ok_bind,
      Tensor.get_eq (List.getElem?_eq_getElem hright), ok_bind], ?_⟩
  rw [List.take_succ_eq_append_getElem hlt, List.foldl_append, ← hmax]
  simp only [differences, List.getElem_zipWith, List.foldl_cons, List.foldl_nil]

/-- The largest difference that `compare` reports. -/
theorem compare_maxAbs (f : FloatArithmetic α) (hshape : expected.shape = actual.shape)
    (epsilon : WithNan α) : ∃ stats, compare f expected actual epsilon = .ok stats ∧
      stats.maxAbs = (differences f expected actual).foldl stdMax (num 0) := by
  have hcount : (differences f expected actual).length = expected.numel := by
    rw [differences, List.length_zipWith, ← length_eq_of_shape hshape, Nat.min_self]
    rfl
  let inv : Nat → ErrorStats α → Prop := fun index stats =>
    stats.maxAbs = ((differences f expected actual).take index).foldl stdMax (num 0)
  obtain ⟨stats, hloop, hmax⟩ := upTo_total (compareTurn f expected actual epsilon) 0
    expected.numel inv (fun index stats _ hindex hinv =>
      compareTurn_maxAbs hshape epsilon hindex stats hinv) (Nat.zero_le _)
    (show inv 0 ⟨num 0, num 0, num 0, expected.numel⟩ from rfl)
  have hall : stats.maxAbs = (differences f expected actual).foldl stdMax (num 0) := by
    rw [hmax, ← hcount, List.take_length]
  rw [compare, if_neg (not_not_intro hshape), hloop, ok_bind]
  refine ⟨_, rfl, ?_⟩
  split <;> exact hall

/-- **A passing comparison means that every element agrees, exactly when no difference is NaN
or some element is off by more than the tolerance.** -/
theorem compare_passes_iff (f : FloatArithmetic α) (hshape : expected.shape = actual.shape)
    (epsilon : WithNan α) {tol : WithNan α} (htol : (num 0).le tol = true) :
    ∃ stats, compare f expected actual epsilon = .ok stats ∧
      ((stats.pass tol = true ↔ ∀ d ∈ differences f expected actual, d.le tol = true) ↔
        (∀ d ∈ differences f expected actual, d ≠ nan) ∨
          ∃ d ∈ differences f expected actual, tol.lt d = true) := by
  obtain ⟨stats, hcompare, hmax⟩ := compare_maxAbs f hshape epsilon
  obtain ⟨t, rfl⟩ := le_num_of_le htol
  refine ⟨stats, hcompare, ?_⟩
  rw [ErrorStats.pass, hmax]
  exact bound_exact_iff (num_le_num.mp htol)

/-- **NaN passes.**  With NaN in a tensor, and no other element off by more than the
tolerance, the comparison passes although an element does not agree. -/
theorem nan_passes (f : FloatArithmetic α) (hshape : expected.shape = actual.shape)
    (epsilon : WithNan α) {tol : WithNan α} (htol : (num 0).le tol = true)
    (hnan : nan ∈ expected.storage ∨ nan ∈ actual.storage)
    (hothers : ∀ d ∈ differences f expected actual, tol.lt d = false) :
    ∃ stats, compare f expected actual epsilon = .ok stats ∧ stats.pass tol = true ∧
      ∃ d ∈ differences f expected actual, d.le tol = false := by
  obtain ⟨stats, hcompare, hmax⟩ := compare_maxAbs f hshape epsilon
  obtain ⟨t, rfl⟩ := le_num_of_le htol
  refine ⟨stats, hcompare, ?_, nan, nan_mem_differences hshape hnan, rfl⟩
  rw [ErrorStats.pass, hmax, foldl_stdMax_le_iff (num_le_num.mp htol)]
  intro d hd
  cases d with
  | nan => exact Or.inl rfl
  | num y =>
      have hge := hothers (num y) hd
      refine Or.inr (num_le_num.mpr (not_lt.mp fun hlt => ?_))
      rw [num_lt_num.mpr hlt] at hge
      cases hge

/-- Arithmetic on integers. -/
def intArithmetic : FloatArithmetic Int where
  sub := lift₂ (· - ·)
  add := lift₂ (· + ·)
  div := lift₂ (· / ·)
  abs := lift fun x => max x (-x)
  ofSize n := num n
  sub_nan_left _ := rfl
  sub_nan_right a := by cases a <;> rfl
  abs_nan := rfl

/-- Two entries that differ by 1 and by 3 fail at tolerance 2. -/
theorem compare_passes_iff_example :
    ∃ stats, compare intArithmetic ⟨[2], [num 4, num 4], rfl⟩ ⟨[2], [num 5, num 1], rfl⟩
        (num 1) = .ok stats ∧
      (stats.pass (num 2) = true ↔
        ∀ d ∈ differences intArithmetic ⟨[2], [num 4, num 4], rfl⟩ ⟨[2], [num 5, num 1], rfl⟩,
          d.le (num 2) = true) := by
  let expected : Tensor (WithNan Int) := ⟨[2], [num 4, num 4], rfl⟩
  let actual : Tensor (WithNan Int) := ⟨[2], [num 5, num 1], rfl⟩
  have hshape : expected.shape = actual.shape := rfl
  have htol : (num (0 : Int)).le (num 2) = true := by decide
  obtain ⟨stats, hcompare, hiff⟩ := compare_passes_iff intArithmetic hshape (num 1) htol
  exact ⟨stats, hcompare, hiff.mpr (Or.inr ⟨num 3, by decide, by decide⟩)⟩

/-- An actual entry that is NaN passes at tolerance 0. -/
theorem nan_entry_passes :
    ∃ stats, compare intArithmetic ⟨[1], [num 4], rfl⟩ ⟨[1], [nan], rfl⟩ (num 1) = .ok stats ∧
      stats.pass (num 0) = true ∧
      ¬ ∀ d ∈ differences intArithmetic ⟨[1], [num 4], rfl⟩ ⟨[1], [nan], rfl⟩,
        d.le (num 0) = true := by
  refine ⟨⟨num 0, nan, num 0, 1⟩, rfl, by decide, ?_⟩
  intro hall
  exact absurd (hall nan (by decide)) (by decide)

end Gpuforge

import Mathlib.Algebra.BigOperators.Ring.List
import Gpuforge.ShapeSizes
import Gpuforge.Tensors

/-!
# Element counts and the order of dimensions

`numel` compares every partial product with the largest `size_t`.  Up to the
first zero the partial products only grow, so a comparison fails exactly when
the dimensions before it do not fit (`numel_before_zero`); a zero settles the
count.  A shape that holds a zero and too much besides is therefore refused in
one order and counted in another (`element_count_iff`).

`elements` gives 0 in both cases, which is the product of such dims anyway.
-/

namespace Gpuforge

/-! ## The loop of `numel` -/

/-- After a zero nothing overflows. -/
theorem numelFrom_zero (shape : List Nat) : numelFrom 0 shape = .ok 0 := by
  induction shape with
  | nil => rfl
  | cons d shape ih =>
      rw [numelFrom, if_neg (fun hover => Nat.not_lt_zero _ hover.2), Nat.zero_mul, ih]

/-- The loop goes on from the product it has reached. -/
theorem numelFrom_append (before after : List Nat) (result : Nat) :
    numelFrom result (before ++ after) =
      (numelFrom result before).bind fun reached => numelFrom reached after := by
  induction before generalizing result with
  | nil => rfl
  | cons d before ih =>
      simp only [List.cons_append, numelFrom]
      split
      · rfl
      · exact ih _

/-- **Without a zero the guard is exact.** -/
theorem numelFrom_eq {shape : List Nat} (hzero : 0 ∉ shape) {result : Nat}
    (hresult : result < 2 ^ 64) :
    numelFrom result shape =
      if result * shape.prod < 2 ^ 64 then .ok (result * shape.prod)
      else .error .lengthError := by
  induction shape generalizing result with
  | nil => rw [List.prod_nil, Nat.mul_one, if_pos hresult, numelFrom]
  | cons d shape ih =>
      have hd : 0 < d := Nat.pos_of_ne_zero fun heq => hzero (heq ▸ List.mem_cons_self)
      have hrest : 0 ∉ shape := fun hmem => hzero (List.mem_cons_of_mem _ hmem)
      have hgrows : result * d ≤ result * d * shape.prod :=
        Nat.le_mul_of_pos_right _ (Nat.pos_of_ne_zero (List.prod_ne_zero hrest))
      rw [List.prod_cons, ← Nat.mul_assoc, numelFrom]
      by_cases hover : (2 ^ 64 - 1) / d < result
      · have hfirst := (Nat.div_lt_iff_lt_mul hd).mp hover
        rw [if_pos ⟨by omega, hover⟩, if_neg (by omega)]
      · have hfirst := (Nat.le_div_iff_mul_le hd).mp (Nat.le_of_not_lt hover)
        rw [if_neg fun h => hover h.2, ih hrest (by omega)]

/-- Shapes without a zero are counted exactly. -/
theorem numel_of_no_zero {shape : List Nat} (hne : shape ≠ []) (hzero : 0 ∉ shape) :
    numel shape = if shape.prod < 2 ^ 64 then .ok shape.prod else .error .lengthError := by
  rw [numel, if_neg hne, numelFrom_eq hzero (by omega), Nat.one_mul]

/-- **The first zero settles the count.**  Whether `numel` throws is decided by
the dimensions before it alone. -/
theorem numel_before_zero {before : List Nat} (hzero : 0 ∉ before) (after : List Nat) :
    numel (before ++ 0 :: after) =
      if before.prod < 2 ^ 64 then .ok 0 else .error .lengthError := by
  rw [numel, if_neg (List.append_ne_nil_of_right_ne_nil _ (List.cons_ne_nil _ _)),
    numelFrom_append, numelFrom_eq hzero (by omega), Nat.one_mul]
  split
  · rw [Except.bind, numelFrom, if_neg (fun hover => hover.1 rfl), Nat.mul_zero, numelFrom_zero]
  · rfl

/-! ## Zeros and the order -/

/-- The dimensions other than zero. -/
def nonzero (shape : List Nat) : List Nat := shape.filter (· ≠ 0)

theorem zero_notMem_nonzero (shape : List Nat) : 0 ∉ nonzero shape := by
  simp [nonzero]

/-- A zero anywhere in a shape whose other dimensions fit gives no entries. -/
theorem numel_of_zero {shape : List Nat} (hzero : 0 ∈ shape)
    (hfits : (nonzero shape).prod < 2 ^ 64) : numel shape = .ok 0 := by
  obtain ⟨before, after, rfl, hbefore⟩ := List.eq_append_cons_of_mem hzero
  have hsame : nonzero before = before :=
    List.filter_eq_self.mpr fun d hd => decide_eq_true fun heq => hbefore (heq ▸ hd)
  have hsplit : nonzero (before ++ 0 :: after) = before ++ nonzero after := by
    rw [← hsame]
    simp [nonzero]
  rw [hsplit, List.prod_append] at hfits
  have hle : before.prod ≤ before.prod * (nonzero after).prod :=
    Nat.le_mul_of_pos_right _
      (Nat.pos_of_ne_zero (List.prod_ne_zero (zero_notMem_nonzero after)))
  rw [numel_before_zero hbefore, if_pos (by omega)]

/-- An order in which all zeros come last. -/
theorem zeros_last {shape : List Nat} (hzero : 0 ∈ shape) :
    ∃ after, (nonzero shape ++ 0 :: after).Perm shape := by
  have hperm := List.filter_append_perm (fun d => decide (d ≠ 0)) shape
  obtain ⟨front, after, hzeros⟩ := List.append_of_mem
    (List.mem_filter.mpr ⟨hzero, by simp⟩ :
      0 ∈ shape.filter fun d => !decide (d ≠ 0))
  refine ⟨front ++ after, List.Perm.trans ?_ hperm⟩
  rw [hzeros]
  exact (List.perm_middle.symm).append_left _

/-- The constructor throws what `numel` throws. -/
theorem Tensor.new_threw_iff {α : Type} [Zero α] {shape : List Nat} :
    Tensor.new (α := α) shape = .error (.threw .lengthError) ↔
      Gpuforge.numel shape = .error .lengthError := by
  unfold Tensor.new
  split
  · rename_i e he
    simp [he]
  · rename_i n hn
    simp [hn]

/-- **An exact count in every order.**  The count is the product, 0 for the
empty shape, and refused exactly when the product does not fit a `size_t`. -/
structure CountsExactly (shape : List Nat) : Prop where
  counted : shape.prod < 2 ^ 64 → numel shape = .ok (if shape = [] then 0 else shape.prod)
  refused : numel shape = .error .lengthError ↔ 2 ^ 64 ≤ shape.prod
  notBuilt : ∀ (α : Type) [Zero α],
    Tensor.new (α := α) shape = .error (.threw .lengthError) ↔ 2 ^ 64 ≤ shape.prod
  reordered : ∀ shape', shape'.Perm shape → numel shape' = numel shape

/-- Shapes without a zero are counted exactly in every order. -/
theorem CountsExactly.of_no_zero {shape : List Nat} (hzero : 0 ∉ shape) :
    CountsExactly shape := by
  have hcount : numel shape =
      if shape.prod < 2 ^ 64 then .ok (if shape = [] then 0 else shape.prod)
      else .error .lengthError := by
    by_cases hne : shape = []
    · subst hne
      rfl
    · rw [numel_of_no_zero hne hzero, if_neg hne]
  have hrefused : numel shape = .error .lengthError ↔ 2 ^ 64 ≤ shape.prod := by
    rw [hcount, ← Nat.not_lt]
    split <;> simp_all
  refine ⟨fun hfits => by rw [hcount, if_pos hfits], hrefused,
    fun α _ => Tensor.new_threw_iff.trans hrefused, ?_⟩
  intro shape' hperm
  by_cases hne : shape = []
  · subst hne
    rw [hperm.eq_nil]
  · have hne' : shape' ≠ [] := fun heq => hne (heq ▸ hperm).nil_eq.symm
    rw [numel_of_no_zero hne hzero, numel_of_no_zero hne' fun hmem => hzero (hperm.mem_iff.mp hmem),
      hperm.prod_eq]

/-- A zero beside dimensions that fit is counted exactly in every order. -/
theorem CountsExactly.of_zero {shape : List Nat} (hzero : 0 ∈ shape)
    (hfits : (nonzero shape).prod < 2 ^ 64) : CountsExactly shape := by
  have hcount := numel_of_zero hzero hfits
  have hprod : shape.prod = 0 := List.prod_eq_zero hzero
  have hrefused : numel shape = .error .lengthError ↔ 2 ^ 64 ≤ shape.prod := by
    simp [hcount, hprod]
  refine ⟨fun _ => ?_, hrefused, fun α _ => Tensor.new_threw_iff.trans hrefused, ?_⟩
  · rw [hcount, if_neg (List.ne_nil_of_mem hzero), hprod]
  · intro shape' hperm
    have hfits' : (nonzero shape').prod < 2 ^ 64 := by
      rw [nonzero, (hperm.filter _).prod_eq]
      exact hfits
    rw [hcount, numel_of_zero (hperm.mem_iff.mpr hzero) hfits']

/-- A zero behind dimensions that do not fit is refused, though nothing is to
be stored. -/
theorem CountsExactly.fits {shape : List Nat} (h : CountsExactly shape) (hzero : 0 ∈ shape) :
    (nonzero shape).prod < 2 ^ 64 := by
  by_contra hover
  obtain ⟨after, hperm⟩ := zeros_last hzero
  have hlast : numel (nonzero shape ++ 0 :: after) = .error .lengthError := by
    rw [numel_before_zero (zero_notMem_nonzero shape), if_neg hover]
  have hprod : shape.prod = 0 := List.prod_eq_zero hzero
  have hrefused := h.refused.mp ((h.reordered _ hperm).symm.trans hlast)
  omega

/-! ## `Shape::elements` -/

namespace Compiler

/-- The count of a shape is exact for dims that are not negative. -/
theorem elements_of_nonneg {s : Shape} (hnonneg : ∀ d ∈ s.dims, 0 ≤ d)
    (hfits : volume s.dims < 2 ^ 64) :
    s.elements = if s.dims = [] then 0 else volume s.dims := by
  by_cases hne : s.dims = []
  · rw [Shape.elements, if_pos hne, if_pos hne]
  rw [if_neg hne]
  by_cases hzero : (0 : Int) ∈ s.dims
  · -- the product is 0, and so is every count that is not positive
    have hvolume : volume s.dims = 0 :=
      List.prod_eq_zero (List.mem_map.mpr ⟨0, hzero, rfl⟩)
    rcases Nat.eq_zero_or_pos s.elements with hnone | hsome
    · rw [hnone, hvolume]
    · rw [(elements_eq_volume hsome).2.2]
  · refine elements_of_volume hne (fun d hd => ?_) hfits
    exact lt_of_le_of_ne (hnonneg d hd) fun heq => hzero (heq ▸ hd)

end Compiler

/-- **When the element count is exact.**  The dimensions hold no zero, or those
other than zero fit a `size_t`.  The count of a `Shape` is exact throughout. -/
theorem element_count_iff (shape : List Nat) :
    (CountsExactly shape ↔ 0 ∉ shape ∨ (nonzero shape).prod < 2 ^ 64) ∧
      ∀ s : Compiler.Shape, (∀ d ∈ s.dims, 0 ≤ d) → Compiler.volume s.dims < 2 ^ 64 →
        s.elements = if s.dims = [] then 0 else Compiler.volume s.dims := by
  refine ⟨⟨?_, ?_⟩, fun s => Compiler.elements_of_nonneg⟩
  · intro h
    by_cases hzero : 0 ∈ shape
    · exact .inr (h.fits hzero)
    · exact .inl hzero
  · intro h
    by_cases hzero : 0 ∈ shape
    · exact .of_zero hzero (h.resolve_left fun hnone => hnone hzero)
    · exact .of_no_zero hzero

/-- A shape of three axes in two orders, counted in one and refused in the other. -/
theorem element_count_iff_orders :
    (CountsExactly [0, 2 ^ 20, 2 ^ 40] ∧ ¬ CountsExactly [0, 2 ^ 32, 2 ^ 32]) ∧
      ({ dims := [2 ^ 20, 0, 2 ^ 40] } : Compiler.Shape).elements = 0 := by
  refine ⟨⟨(element_count_iff _).1.mpr (.inr (by decide +kernel)), fun h => ?_⟩, ?_⟩
  · exact absurd ((element_count_iff _).1.mp h) (by decide +kernel)
  · exact ((element_count_iff []).2 { dims := [2 ^ 20, 0, 2 ^ 40] } (by decide +kernel)
      (by decide +kernel)).trans (by decide +kernel)

/-- No entries at all are refused when the zero comes last. -/
theorem empty_tensor_refused :
    [2 ^ 32, 2 ^ 32, 0].prod < 2 ^ 64 ∧ [2 ^ 32, 2 ^ 32, 0].Perm [0, 2 ^ 32, 2 ^ 32] ∧
      numel [2 ^ 32, 2 ^ 32, 0] = .error .lengthError ∧
      numel [0, 2 ^ 32, 2 ^ 32] = .ok 0 ∧ ¬ CountsExactly [2 ^ 32, 2 ^ 32, 0] := by
  have hthrows : numel [2 ^ 32, 2 ^ 32, 0] = .error .lengthError := by decide +kernel
  refine ⟨by decide +kernel, by decide +kernel, hthrows, by decide +kernel, fun h => ?_⟩
  have hover : 2 ^ 64 ≤ [2 ^ 32, 2 ^ 32, 0].prod := h.refused.mp hthrows
  exact absurd hover (by decide +kernel)

end Gpuforge

import Mathlib.Algebra.BigOperators.Ring.List
import Mathlib.Algebra.Order.Ring.Int
import Gpuforge.ShapeSizes

/-!
# Reshaping (`shape.cpp`)

`infer_reshape` multiplies the requested dims in `size_t`, with one axis left out when it
is to be inferred, and compares with the element count of the input.  The product wraps,
the count is 0 for inputs whose elements do not fit, and the inferred dim is converted
back to `int64_t`.

`reshape_keeps_elements_iff` says when an accepted reshape keeps the number of elements,
and `reshape_undone_iff` when it can be undone.
-/

namespace Gpuforge.Compiler

/-- The loop of `infer_reshape` from an axis on: the product of the known dims, and the
axis to infer, which is -1 as long as there is none. -/
def reshapeFrom : List Int → Nat → Nat → Int → Except String (Nat × Int)
  | [], _, knownElements, inferredAxis => .ok (knownElements, inferredAxis)
  | dim :: rest, axis, knownElements, inferredAxis =>
      if dim = -1 then
        if 0 ≤ inferredAxis then .error "multiple inferred dimensions"
        else reshapeFrom rest (axis + 1) knownElements (castInt axis)
      else if dim < 0 then .error "reshape dimensions must be non-negative or -1"
      else reshapeFrom rest (axis + 1) (mulSize knownElements (castSize dim)) inferredAxis

def inferReshape (input : Shape) (dims : List Int) : ShapeResult :=
  if ¬ validDims input.dims then .error "input dimensions must be non-negative"
  else
    match reshapeFrom dims 0 1 (-1) with
    | .error e => .error e
    | .ok (knownElements, inferredAxis) =>
        if knownElements = 0 ∨ input.elements % knownElements ≠ 0 then
          .error "reshape element count mismatch"
        else
          let result :=
            if 0 ≤ inferredAxis then
              dims.set inferredAxis.toNat
                (wrapInt64 ((input.elements / knownElements : Nat) : Int))
            else dims
          if input.elements ≠ knownElements ∧ inferredAxis < 0 then
            .error "reshape element count mismatch"
          else .ok { dims := result, type := input.type, layout := input.layout }

/-- The product of the dims that are given. -/
def knownVolume (dims : List Int) : Nat := volume (dims.filter fun d => 0 ≤ d)

/-- **An inferred axis that an `int` can count to.** -/
def InferredInRange (dims : List Int) : Prop :=
  ∀ axis : Nat, dims[axis]? = some (-1) → axis < 2 ^ 31

/-- **A reshape.**  The result has the requested dims but for the one that is inferred, no
dim is negative, and the elements are as many as before. -/
structure Reshapes (input dims result : List Int) : Prop where
  nonneg : ∀ d ∈ result, 0 ≤ d
  length : result.length = dims.length
  kept : ∀ axis : Nat, dims[axis]? ≠ some (-1) → result[axis]? = dims[axis]?
  single : ∀ axis axis' : Nat, dims[axis]? = some (-1) → dims[axis']? = some (-1) → axis = axis'
  elements : result.prod = input.prod

/-! ## Products of dims -/

@[simp] theorem knownVolume_nil : knownVolume [] = 1 := rfl

theorem knownVolume_cons_nonneg {d : Int} (hd : 0 ≤ d) (dims : List Int) :
    knownVolume (d :: dims) = d.toNat * knownVolume dims := by
  rw [knownVolume, List.filter_cons_of_pos (by simpa using hd), volume_cons, knownVolume]

theorem knownVolume_cons_neg {d : Int} (hd : d < 0) (dims : List Int) :
    knownVolume (d :: dims) = knownVolume dims := by
  rw [knownVolume, List.filter_cons_of_neg (by simpa using hd), knownVolume]

/-- Without an axis to infer all dims are known. -/
theorem knownVolume_eq {dims : List Int} (h : ∀ d ∈ dims, 0 ≤ d) :
    knownVolume dims = volume dims := by
  rw [knownVolume, List.filter_eq_self.mpr (by simpa using h)]

/-- The exact product of dims that are not negative. -/
theorem prod_eq_volume {dims : List Int} (h : ∀ d ∈ dims, 0 ≤ d) :
    dims.prod = (volume dims : Int) := by
  induction dims with
  | nil => rfl
  | cons d dims ih =>
      have hd : 0 ≤ d := h d List.mem_cons_self
      rw [List.prod_cons, ih fun e he => h e (List.mem_cons_of_mem _ he), volume_cons,
        Int.natCast_mul, Int.toNat_of_nonneg hd]

/-- The product with the inferred dim filled in. -/
theorem volume_set {dims : List Int} {axis : Nat} (haxis : dims[axis]? = some (-1))
    (honly : ∀ axis', dims[axis']? = some (-1) → axis' = axis)
    (hdims : ∀ d ∈ dims, d = -1 ∨ 0 ≤ d) (x : Int) :
    volume (dims.set axis x) = x.toNat * knownVolume dims := by
  induction dims generalizing axis with
  | nil => simp at haxis
  | cons d dims ih =>
      have hrest : ∀ e ∈ dims, e = -1 ∨ 0 ≤ e := fun e he => hdims e (List.mem_cons_of_mem _ he)
      cases axis with
      | zero =>
          have hd : d = -1 := by simpa using haxis
          have hknown : ∀ e ∈ dims, 0 ≤ e := by
            intro e he
            obtain ⟨axis', haxis'⟩ := List.mem_iff_getElem?.mp he
            rcases hrest e he with rfl | hnonneg
            · have hzero := honly (axis' + 1) (by simpa using haxis')
              omega
            · exact hnonneg
          rw [List.set_cons_zero, volume_cons, knownVolume_cons_neg (by omega),
            knownVolume_eq hknown]
      | succ axis =>
          have hd : 0 ≤ d := by
            rcases hdims d List.mem_cons_self with rfl | hnonneg
            · have hzero := honly 0 (by simp)
              omega
            · exact hnonneg
          have hset := ih (by simpa using haxis)
            (fun axis' haxis' => by
              have hsame := honly (axis' + 1) (by simpa using haxis')
              omega) hrest
          rw [List.set_cons_succ, volume_cons, hset, knownVolume_cons_nonneg hd,
            Nat.mul_left_comm]

/-- A product that is not zero has positive dims. -/
theorem pos_of_volume_pos {dims : List Int} (h : 0 < volume dims) : ∀ d ∈ dims, 0 < d := by
  intro d hd
  by_contra hle
  have hmem : 0 ∈ dims.map Int.toNat := List.mem_map.mpr ⟨d, hd, by omega⟩
  rw [volume, List.prod_eq_zero hmem] at h
  exact Nat.lt_irrefl 0 h

/-- The element count of a shape. -/
theorem elements_eq_ite (shape : Shape) : shape.elements
    = if shape.dims ≠ [] ∧ volume shape.dims < 2 ^ 64 then volume shape.dims else 0 := by
  rcases Nat.eq_zero_or_pos shape.elements with hzero | hpos
  · split
    · rename_i hfits
      rcases Nat.eq_zero_or_pos (volume shape.dims) with hvolume | hvolume
      · rw [hzero, hvolume]
      · exact elements_of_volume hfits.1 (pos_of_volume_pos hvolume) hfits.2
    · exact hzero
  · obtain ⟨hne, _, heq⟩ := elements_eq_volume hpos
    have hlt := elements_lt shape
    rw [if_pos ⟨hne, by omega⟩, heq]

/-! ## The loop -/

/-- What the loop makes of the dims it accepts. -/
theorem reshapeFrom_ok {dims : List Int} {axis knownElements : Nat} {inferredAxis : Int}
    {r : Nat × Int} (h : reshapeFrom dims axis knownElements inferredAxis = .ok r)
    (hknown : knownElements < 2 ^ 64) (haxis : inferredAxis < 2 ^ 31) :
    (∀ d ∈ dims, d = -1 ∨ 0 ≤ d) ∧ r.1 = knownElements * knownVolume dims % 2 ^ 64 ∧
      r.2 < 2 ^ 31 := by
  induction dims generalizing axis knownElements inferredAxis with
  | nil =>
      cases h
      refine ⟨by simp, ?_, haxis⟩
      rw [knownVolume_nil, Nat.mul_one, Nat.mod_eq_of_lt hknown]
  | cons d dims ih =>
      rw [reshapeFrom] at h
      split at h
      · rename_i hd
        split at h
        · cases h
        · have hcast : castInt axis < 2 ^ 31 := by
            have hlt := Int.bmod_lt (x := axis) (m := 2 ^ 32) (by decide)
            unfold castInt
            omega
          obtain ⟨hdims, hproduct, hlast⟩ := ih h hknown hcast
          rw [knownVolume_cons_neg (by omega)]
          exact ⟨by simpa [hd] using hdims, hproduct, hlast⟩
      · split at h
        · cases h
        · rename_i hd hnonneg
          have hwrapped : mulSize knownElements (castSize d) < 2 ^ 64 := by
            rw [mulSize]
            exact Nat.mod_lt _ (by decide)
          obtain ⟨hdims, hproduct, hlast⟩ := ih h hwrapped haxis
          refine ⟨?_, ?_, hlast⟩
          · intro e he
            rcases List.mem_cons.mp he with rfl | hrest
            · exact Or.inr (by omega)
            · exact hdims e hrest
          · have hcast : castSize d = d.toNat % 2 ^ 64 := by
              unfold castSize
              omega
            rw [hproduct, knownVolume_cons_nonneg (by omega), mulSize, hcast]
            simp only [Nat.mod_mul_mod, Nat.mul_mod_mod, Nat.mul_assoc]

/-- The axis that the loop finds, among those that an `int` can count to. -/
theorem reshapeFrom_axis {dims : List Int} {axis knownElements : Nat} {inferredAxis : Int}
    {r : Nat × Int} (h : reshapeFrom dims axis knownElements inferredAxis = .ok r)
    (hrange : ∀ offset, dims[offset]? = some (-1) → axis + offset < 2 ^ 31) :
    (-1 ∉ dims ∧ r.2 = inferredAxis) ∨
      (inferredAxis < 0 ∧ ∃ offset, dims[offset]? = some (-1) ∧ r.2 = (axis + offset : Nat) ∧
        ∀ offset', dims[offset']? = some (-1) → offset' = offset) := by
  induction dims generalizing axis knownElements inferredAxis with
  | nil =>
      cases h
      exact Or.inl ⟨List.not_mem_nil, rfl⟩
  | cons d dims ih =>
      have hrest : ∀ offset, dims[offset]? = some (-1) → axis + 1 + offset < 2 ^ 31 := by
        intro offset hoffset
        have hlt := hrange (offset + 1) (by simpa using hoffset)
        omega
      rw [reshapeFrom] at h
      split at h
      · rename_i hd
        split at h
        · cases h
        · rename_i hnone
          have hcast : castInt axis = axis := castInt_of_lt (by
            have hlt := hrange 0 (by simp [hd])
            omega)
          rcases ih h hrest with ⟨habsent, hlast⟩ | ⟨hneg, _⟩
          · refine Or.inr ⟨by omega, 0, by simp [hd], by rw [hlast, hcast]; rfl, ?_⟩
            intro offset' hoffset'
            cases offset' with
            | zero => rfl
            | succ offset' =>
                exact absurd (List.mem_iff_getElem?.mpr ⟨offset', by simpa using hoffset'⟩) habsent
          · omega
      · split at h
        · cases h
        · rename_i hd _
          rcases ih h hrest with ⟨habsent, hlast⟩ | ⟨hneg, offset, hoffset, hlast, honly⟩
          · refine Or.inl ⟨?_, hlast⟩
            intro hmem
            rcases List.mem_cons.mp hmem with heq | hmem'
            · exact hd heq.symm
            · exact habsent hmem'
          · refine Or.inr ⟨hneg, offset + 1, by simpa using hoffset, ?_, ?_⟩
            · rw [hlast]
              congr 1
              omega
            · intro offset' hoffset'
              cases offset' with
              | zero => exact absurd (by simpa using hoffset') hd
              | succ offset' =>
                  rw [honly offset' (by simpa using hoffset')]

/-- Dims that are all given are multiplied. -/
theorem reshapeFrom_given {dims : List Int} (hdims : ∀ d ∈ dims, 0 ≤ d) {axis knownElements : Nat}
    (hfits : knownElements * volume dims < 2 ^ 64) (hknown : knownElements < 2 ^ 64) :
    reshapeFrom dims axis knownElements (-1) = .ok (knownElements * volume dims, -1) := by
  have hrun : ∃ r, reshapeFrom dims axis knownElements (-1) = .ok r := by
    clear hfits hknown
    induction dims generalizing axis knownElements with
    | nil => exact ⟨_, rfl⟩
    | cons d dims ih =>
        have hd : 0 ≤ d := hdims d List.mem_cons_self
        rw [reshapeFrom, if_neg (by omega), if_neg (by omega)]
        exact ih fun e he => hdims e (List.mem_cons_of_mem _ he)
  obtain ⟨⟨product, inferredAxis⟩, hrun⟩ := hrun
  have habsent : ∀ offset : Nat, dims[offset]? ≠ some (-1) := by
    intro offset hoffset
    have hnonneg := hdims (-1) (List.mem_of_getElem? hoffset)
    omega
  obtain ⟨_, hproduct, _⟩ := reshapeFrom_ok hrun hknown (by omega)
  rcases reshapeFrom_axis hrun (fun offset hoffset => absurd hoffset (habsent offset))
    with ⟨_, hlast⟩ | ⟨_, offset, hoffset, _⟩
  · simp only at hproduct hlast
    rw [hrun, hproduct, hlast, knownVolume_eq hdims, Nat.mod_eq_of_lt hfits]
  · exact absurd hoffset (habsent offset)

/-! ## Accepted reshapes -/

variable {input shape : Shape} {dims : List Int}

/-- **What `infer_reshape` has checked, and what it returns.** -/
structure Accepts (input : Shape) (dims : List Int) (shape : Shape) (inferredAxis : Int) :
    Prop where
  nonneg : ∀ d ∈ input.dims, 0 ≤ d
  requested : ∀ d ∈ dims, d = -1 ∨ 0 ≤ d
  known : knownVolume dims % 2 ^ 64 ≠ 0
  divides : input.elements % (knownVolume dims % 2 ^ 64) = 0
  equal : inferredAxis < 0 → input.elements = knownVolume dims % 2 ^ 64
  axis : inferredAxis < 2 ^ 31
  result : shape =
    { dims := if 0 ≤ inferredAxis then dims.set inferredAxis.toNat
        (wrapInt64 ((input.elements / (knownVolume dims % 2 ^ 64) : Nat) : Int)) else dims
      type := input.type
      layout := input.layout }

/-- A reshape that is accepted has passed the checks. -/
theorem accepts_of_ok (h : inferReshape input dims = .ok shape) :
    ∃ known inferredAxis, reshapeFrom dims 0 1 (-1) = .ok (known, inferredAxis) ∧
      Accepts input dims shape inferredAxis := by
  unfold inferReshape at h
  split at h
  · cases h
  · rename_i hvalid
    cases hloop : reshapeFrom dims 0 1 (-1) with
    | error e =>
        rw [hloop] at h
        cases h
    | ok r =>
        obtain ⟨known, inferredAxis⟩ := r
        obtain ⟨hdims, hknown, haxis⟩ := reshapeFrom_ok hloop (by decide) (by decide)
        simp only [Nat.one_mul] at hknown haxis
        subst hknown
        rw [hloop] at h
        simp only at h
        split at h
        · cases h
        · rename_i hdivides
          split at h
          · cases h
          · rename_i hequal
            refine ⟨_, inferredAxis, rfl, ?_⟩
            exact
              { nonneg := by simpa [validDims] using hvalid
                requested := hdims
                known := fun hzero => hdivides (Or.inl hzero)
                divides := by
                  by_contra hrest
                  exact hdivides (Or.inr hrest)
                equal := fun hneg => by
                  by_contra hne
                  exact hequal ⟨hne, hneg⟩
                axis := haxis
                result := (Except.ok.inj h).symm }

/-- An axis out of range keeps its -1. -/
theorem Accepts.out_of_range {inferredAxis : Int} (h : Accepts input dims shape inferredAxis)
    {axis : Nat} (haxis : dims[axis]? = some (-1)) (hfar : 2 ^ 31 ≤ axis) :
    -1 ∈ shape.dims := by
  have hlast := h.axis
  apply List.mem_of_getElem? (i := axis)
  rw [h.result]
  simp only
  split
  · rw [List.getElem?_set_ne (by omega), haxis]
  · exact haxis

/-- **An accepted reshape with an axis in range.**  Either all dims are given and their
wrapped product is the element count, or one is inferred. -/
theorem reshape_cases (h : inferReshape input dims = .ok shape) (hrange : InferredInRange dims) :
    ∃ inferredAxis, Accepts input dims shape inferredAxis ∧
      ((∀ d ∈ dims, 0 ≤ d) ∧ shape.dims = dims ∧
          input.elements = knownVolume dims % 2 ^ 64 ∨
        ∃ axis : Nat, dims[axis]? = some (-1) ∧
          (∀ axis' : Nat, dims[axis']? = some (-1) → axis' = axis) ∧
          shape.dims = dims.set axis
            (wrapInt64 ((input.elements / (knownVolume dims % 2 ^ 64) : Nat) : Int))) := by
  obtain ⟨known, inferredAxis, hloop, haccepts⟩ := accepts_of_ok h
  refine ⟨inferredAxis, haccepts, ?_⟩
  have hfound := reshapeFrom_axis hloop (fun axis haxis => by
    have hlt := hrange axis haxis
    omega)
  rcases hfound with ⟨habsent, hlast⟩ | ⟨_, axis, haxis, hlast, honly⟩
  · simp only at hlast
    refine Or.inl ⟨?_, ?_, haccepts.equal (by omega)⟩
    · intro d hd
      rcases haccepts.requested d hd with rfl | hnonneg
      · exact absurd hd habsent
      · exact hnonneg
    · rw [haccepts.result]
      simp only
      rw [if_neg (by omega)]
  · simp only [Nat.zero_add] at hlast
    refine Or.inr ⟨axis, haxis, honly, ?_⟩
    rw [haccepts.result]
    simp only
    rw [if_pos (by omega), hlast, Int.toNat_natCast]

/-- A `size_t` converts to an `int64_t` that is not negative if it is below `2^63`. -/
theorem wrapInt64_nonneg_iff {n : Nat} (h : n < 2 ^ 64) : 0 ≤ wrapInt64 n ↔ n < 2 ^ 63 := by
  unfold wrapInt64
  rw [Int.bmod_def]
  split <;> omega

/-- A `size_t` below `2^63` keeps its value. -/
theorem wrapInt64_of_lt {n : Nat} (h : n < 2 ^ 63) : wrapInt64 n = n := by
  unfold wrapInt64
  rw [Int.bmod_eq_of_le] <;> omega

/-! ## Element counts of reshapes -/

/-- Dims that are all given reshape if and only if their product is the one of the input. -/
theorem reshapes_given {input dims : List Int} (hinput : ∀ d ∈ input, 0 ≤ d)
    (hdims : ∀ d ∈ dims, 0 ≤ d) :
    Reshapes input dims dims ↔ knownVolume dims = volume input := by
  have hprod : dims.prod = input.prod ↔ knownVolume dims = volume input := by
    rw [prod_eq_volume hdims, prod_eq_volume hinput, knownVolume_eq hdims]
    omega
  have habsent : ∀ axis : Nat, dims[axis]? ≠ some (-1) := by
    intro axis haxis
    have hnonneg := hdims (-1) (List.mem_of_getElem? haxis)
    omega
  constructor
  · intro h
    exact hprod.mp h.elements
  · intro h
    exact ⟨hdims, rfl, fun _ _ => rfl, fun axis _ haxis => absurd haxis (habsent axis),
      hprod.mpr h⟩

/-- A filled axis reshapes if and only if its dim makes up for the known ones. -/
theorem reshapes_inferred {input dims : List Int} (hinput : ∀ d ∈ input, 0 ≤ d)
    (hdims : ∀ d ∈ dims, d = -1 ∨ 0 ≤ d) {axis : Nat} (haxis : dims[axis]? = some (-1))
    (honly : ∀ axis', dims[axis']? = some (-1) → axis' = axis) (x : Int) :
    Reshapes input dims (dims.set axis x) ↔
      0 ≤ x ∧ x.toNat * knownVolume dims = volume input := by
  have hlt : axis < dims.length := (List.getElem?_eq_some_iff.mp haxis).1
  have hnonneg : (∀ d ∈ dims.set axis x, 0 ≤ d) ↔ 0 ≤ x := by
    constructor
    · intro h
      exact h x (List.mem_of_getElem? (List.getElem?_set_self hlt))
    · intro hx d hd
      obtain ⟨axis', haxis'⟩ := List.mem_iff_getElem?.mp hd
      by_cases hsame : axis = axis'
      · subst hsame
        rw [List.getElem?_set_self hlt] at haxis'
        cases haxis'
        exact hx
      · rw [List.getElem?_set_ne hsame] at haxis'
        rcases hdims d (List.mem_of_getElem? haxis') with rfl | hd'
        · exact absurd (honly axis' haxis').symm hsame
        · exact hd'
  have hprod : 0 ≤ x → ((dims.set axis x).prod = input.prod ↔
      x.toNat * knownVolume dims = volume input) := by
    intro hx
    rw [prod_eq_volume (hnonneg.mpr hx), prod_eq_volume hinput,
      volume_set haxis honly hdims x]
    omega
  constructor
  · intro h
    have hx := hnonneg.mp h.nonneg
    exact ⟨hx, (hprod hx).mp h.elements⟩
  · intro h
    obtain ⟨hx, helements⟩ := h
    refine ⟨hnonneg.mpr hx, List.length_set, ?_, ?_, (hprod hx).mpr helements⟩
    · intro axis' hne
      have hother : axis ≠ axis' := by
        intro heq
        exact hne (heq ▸ haxis)
      exact List.getElem?_set_ne hother
    · intro axis₁ axis₂ h₁ h₂
      rw [honly axis₁ h₁, honly axis₂ h₂]

/-- **Counts that the checks get right.**  The input has no elements; or it has a rank,
its count and the known product fit a `size_t`, and the quotient an `int64_t`. -/
def CountsFit (input : Shape) (dims : List Int) : Prop :=
  volume input.dims = 0 ∨
    input.dims ≠ [] ∧ volume input.dims < 2 ^ 64 ∧ knownVolume dims < 2 ^ 64 ∧
      volume input.dims < 2 ^ 63 * knownVolume dims

/-- A count that equals the wrapped product equals the product, if the product fits. -/
theorem given_iff_countsFit {E K count : Nat} {P : Prop} [Decidable P]
    (hcount : count = if P ∧ E < 2 ^ 64 then E else 0)
    (hknown : K % 2 ^ 64 ≠ 0) (hequal : count = K % 2 ^ 64) :
    K = E ↔ E = 0 ∨ P ∧ E < 2 ^ 64 ∧ K < 2 ^ 64 ∧ E < 2 ^ 63 * K := by
  by_cases hfits : P ∧ E < 2 ^ 64
  · rw [if_pos hfits] at hcount
    simp only [hfits.1, hfits.2, true_and]
    omega
  · rw [if_neg hfits] at hcount
    omega

/-- A quotient makes up for the known product, if everything fits. -/
theorem inferred_iff_countsFit {E K count : Nat} {P : Prop} [Decidable P]
    (hcount : count = if P ∧ E < 2 ^ 64 then E else 0)
    (hknown : K % 2 ^ 64 ≠ 0) (hdivides : count % (K % 2 ^ 64) = 0) :
    count / (K % 2 ^ 64) < 2 ^ 63 ∧ count / (K % 2 ^ 64) * K = E ↔
      E = 0 ∨ P ∧ E < 2 ^ 64 ∧ K < 2 ^ 64 ∧ E < 2 ^ 63 * K := by
  have hquotient : count / (K % 2 ^ 64) * (K % 2 ^ 64) = count :=
    Nat.div_mul_cancel (Nat.dvd_of_mod_eq_zero hdivides)
  have hpos : 0 < K := by
    apply Nat.pos_of_ne_zero
    intro hzero
    exact hknown (by rw [hzero, Nat.zero_mod])
  generalize count / (K % 2 ^ 64) = q at hquotient ⊢
  by_cases hfits : P ∧ E < 2 ^ 64
  · rw [if_pos hfits] at hcount
    subst hcount
    constructor
    · intro h
      obtain ⟨hq, hprod⟩ := h
      rcases Nat.eq_zero_or_pos count with hzero | hcountPos
      · exact Or.inl hzero
      · have hqPos : 0 < q := by
          apply Nat.pos_of_ne_zero
          intro hzero
          rw [hzero, Nat.zero_mul] at hprod
          omega
        have hle : K ≤ q * K := Nat.le_mul_of_pos_left K hqPos
        have hlt : q * K < 2 ^ 63 * K := Nat.mul_lt_mul_of_pos_right hq hpos
        exact Or.inr ⟨hfits.1, hfits.2, by omega, by omega⟩
    · intro h
      obtain hzero | ⟨_, _, hK, hbound⟩ := h
      · have hq : q = 0 := by
          rcases Nat.mul_eq_zero.mp (hquotient.trans hzero) with hq | hbad
          · exact hq
          · exact absurd hbad hknown
        rw [hq, Nat.zero_mul]
        exact ⟨by decide, hzero.symm⟩
      · rw [Nat.mod_eq_of_lt hK] at hquotient
        refine ⟨?_, hquotient⟩
        rw [← hquotient] at hbound
        exact Nat.lt_of_mul_lt_mul_right hbound
  · rw [if_neg hfits] at hcount
    subst hcount
    have hq : q = 0 := by
      rcases Nat.mul_eq_zero.mp hquotient with hq | hbad
      · exact hq
      · exact absurd hbad hknown
    subst hq
    rw [Nat.zero_mul]
    constructor
    · intro h
      exact Or.inl h.2.symm
    · intro h
      obtain hzero | ⟨hP, hE, _⟩ := h
      · exact ⟨by decide, hzero.symm⟩
      · exact absurd ⟨hP, hE⟩ hfits

/-- A reshape with an axis in range keeps the elements if and only if the counts fit. -/
theorem reshapes_iff_countsFit (h : inferReshape input dims = .ok shape)
    (hrange : InferredInRange dims) :
    Reshapes input.dims dims shape.dims ↔ CountsFit input dims := by
  obtain ⟨inferredAxis, haccepts, hcases⟩ := reshape_cases h hrange
  have hcount := elements_eq_ite input
  rw [CountsFit]
  rcases hcases with ⟨hgiven, hresult, hequal⟩ | ⟨axis, haxis, honly, hresult⟩
  · rw [hresult, reshapes_given haccepts.nonneg hgiven]
    exact given_iff_countsFit hcount haccepts.known hequal
  · have hlt : input.elements / (knownVolume dims % 2 ^ 64) < 2 ^ 64 :=
      Nat.lt_of_le_of_lt (Nat.div_le_self _ _) (elements_lt input)
    rw [hresult, reshapes_inferred haccepts.nonneg haccepts.requested haxis honly,
      wrapInt64_nonneg_iff hlt,
      ← inferred_iff_countsFit hcount haccepts.known haccepts.divides]
    apply and_congr_right
    intro hsmall
    rw [wrapInt64_of_lt hsmall, Int.toNat_natCast]

/-- A result without a negative dim had its axis in range. -/
theorem inRange_of_nonneg (h : inferReshape input dims = .ok shape)
    (hnonneg : ∀ d ∈ shape.dims, 0 ≤ d) : InferredInRange dims := by
  obtain ⟨known, inferredAxis, _, haccepts⟩ := accepts_of_ok h
  intro axis haxis
  by_contra hfar
  have hneg := hnonneg (-1) (haccepts.out_of_range haxis (by omega))
  omega

/-- **When a reshape keeps the elements.**  For every reshape that is accepted: the result
has the requested dims, no negative one, and as many elements as the input, if and only if
an axis to infer is among the first `2^31` and the counts fit. -/
theorem reshape_keeps_elements_iff (h : inferReshape input dims = .ok shape) :
    Reshapes input.dims dims shape.dims ↔ InferredInRange dims ∧ CountsFit input dims := by
  constructor
  · intro hreshapes
    have hrange := inRange_of_nonneg h hreshapes.nonneg
    exact ⟨hrange, (reshapes_iff_countsFit h hrange).mp hreshapes⟩
  · intro hcond
    exact (reshapes_iff_countsFit h hcond.1).mpr hcond.2

/-- An inferred axis. -/
theorem reshape_keeps_elements_iff_example :
    inferReshape { dims := [2, 3, 4] } [6, -1] = .ok { dims := [6, 4] } ∧
      Reshapes [2, 3, 4] [6, -1] [6, 4] := by
  have hok : inferReshape { dims := [2, 3, 4] } [6, -1] = .ok { dims := [6, 4] } := by
    decide +kernel
  refine ⟨hok, (reshape_keeps_elements_iff hok).mpr ⟨?_, Or.inr ?_⟩⟩
  · intro axis haxis
    have hlt := (List.getElem?_eq_some_iff.mp haxis).1
    simp only [List.length_cons, List.length_nil] at hlt
    omega
  · decide +kernel

/-- **A product that wraps.**  Four elements become `2^64 + 4`. -/
theorem reshape_invents_elements :
    inferReshape { dims := [4] } [4, 2 ^ 62 + 1] = .ok { dims := [4, 2 ^ 62 + 1] } ∧
      ¬ Reshapes [4] [4, 2 ^ 62 + 1] [4, 2 ^ 62 + 1] := by
  refine ⟨by decide +kernel, ?_⟩
  intro hreshapes
  have hprod := hreshapes.elements
  revert hprod
  decide +kernel

/-! ## Undoing a reshape -/

/-- A shape with dims, none of them empty. -/
def HasElements (shape : Shape) : Prop := shape.dims ≠ [] ∧ ∀ d ∈ shape.dims, 0 < d

/-- The identity reshape. -/
def ReshapesToItself (shape : Shape) : Prop :=
  ∃ result, inferReshape shape shape.dims = .ok result ∧ result.dims = shape.dims

/-- A reshape back to the dims of a shape. -/
def ReshapesBack (result shape : Shape) : Prop :=
  ∃ back, inferReshape result shape.dims = .ok back ∧ back.dims = shape.dims ∧
    back.type = shape.type ∧ back.layout = shape.layout

/-- Reshaping to dims that are all given. -/
theorem inferReshape_given (hinput : ∀ d ∈ input.dims, 0 ≤ d) (hdims : ∀ d ∈ dims, 0 ≤ d)
    (hfits : volume dims < 2 ^ 64) :
    inferReshape input dims =
      if volume dims ≠ 0 ∧ input.elements = volume dims then
        .ok { dims := dims, type := input.type, layout := input.layout }
      else .error "reshape element count mismatch" := by
  have hvalid : ¬ ¬ validDims input.dims = true := by simpa [validDims] using hinput
  have hloop : reshapeFrom dims 0 1 (-1) = .ok (1 * volume dims, -1) :=
    reshapeFrom_given hdims (by omega) (by decide)
  rw [inferReshape, if_neg hvalid, hloop]
  simp only [Nat.one_mul]
  by_cases hcond : volume dims ≠ 0 ∧ input.elements = volume dims
  · rw [if_pos hcond, if_neg (by simp [hcond.1, hcond.2]), if_neg (by simp [hcond.2]),
      if_neg (by omega)]
  · rw [if_neg hcond]
    split
    · rfl
    · rename_i hdivides
      rw [if_pos ⟨by omega, by omega⟩]

/-- The element count of a shape that has elements. -/
theorem elements_eq_volume_iff (shape : Shape) (hfits : volume shape.dims < 2 ^ 64) :
    volume shape.dims ≠ 0 ∧ shape.elements = volume shape.dims ↔ HasElements shape := by
  have hcount := elements_eq_ite shape
  constructor
  · intro h
    obtain ⟨hvolume, hequal⟩ := h
    refine ⟨?_, pos_of_volume_pos (Nat.pos_of_ne_zero hvolume)⟩
    intro hnil
    rw [if_neg fun hpair => hpair.1 hnil] at hcount
    omega
  · intro h
    rw [if_pos ⟨h.1, hfits⟩] at hcount
    exact ⟨(volume_pos h.2).ne', hcount⟩

/-- **When a reshape can be undone.**  For every shape whose element count is below
`2^63`: it reshapes to itself if and only if it has elements; and an accepted reshape to
dims whose known product is below `2^63` can be undone if and only if besides the dims are
not empty and an axis to infer is among the first `2^31`. -/
theorem reshape_undone_iff {s : Shape} (hdims : ∀ d ∈ s.dims, 0 ≤ d)
    (hfits : volume s.dims < 2 ^ 63) :
    (ReshapesToItself s ↔ HasElements s) ∧
      ∀ (d : List Int) (r : Shape), knownVolume d < 2 ^ 63 → inferReshape s d = .ok r →
        (ReshapesBack r s ↔ HasElements s ∧ d ≠ [] ∧ InferredInRange d) := by
  have hselfIff := elements_eq_volume_iff s (by omega)
  constructor
  · rw [ReshapesToItself, inferReshape_given hdims hdims (by omega), ← hselfIff]
    by_cases hcond : volume s.dims ≠ 0 ∧ s.elements = volume s.dims
    · simp [hcond]
    · simp [hcond]
  · intro d r hknown h
    constructor
    · intro hback
      obtain ⟨back, hrun, _⟩ := hback
      obtain ⟨_, _, _, hbackAccepts⟩ := accepts_of_ok hrun
      have hrange := inRange_of_nonneg h hbackAccepts.nonneg
      rw [inferReshape_given hbackAccepts.nonneg hdims (by omega)] at hrun
      split at hrun
      · rename_i hequal
        obtain ⟨hne, hpos, _⟩ := elements_eq_volume (by omega : 0 < r.elements)
        obtain ⟨inferredAxis, haccepts, hcases⟩ := reshape_cases h hrange
        have hknownNe := haccepts.known
        have hcount := elements_eq_ite s
        refine ⟨⟨?_, pos_of_volume_pos (by omega)⟩, ?_, hrange⟩
        · intro hnil
          rw [if_neg fun hpair => hpair.1 hnil] at hcount
          rcases hcases with ⟨_, _, helements⟩ | ⟨axis, haxis, _, hresult⟩
          · omega
          · have hlt := (List.getElem?_eq_some_iff.mp haxis).1
            have hzero := hpos _ (hresult ▸ List.mem_of_getElem? (List.getElem?_set_self hlt))
            rw [hcount, Nat.zero_div] at hzero
            exact absurd hzero (by decide)
        · intro hnil
          subst hnil
          rcases hcases with ⟨_, hresult, _⟩ | ⟨axis, haxis, _⟩
          · exact hne hresult
          · simp at haxis
      · cases hrun
    · intro hcond
      obtain ⟨helements, hne, hrange⟩ := hcond
      obtain ⟨inferredAxis, haccepts, hcases⟩ := reshape_cases h hrange
      have hknownNe := haccepts.known
      have hvolume := hselfIff.mpr helements
      have hreshapes := (reshapes_iff_countsFit h hrange).mpr
        (Or.inr ⟨helements.1, by omega, by omega, by omega⟩)
      have hprod := hreshapes.elements
      rw [prod_eq_volume hreshapes.nonneg, prod_eq_volume hdims] at hprod
      have hrNe : r.dims ≠ [] := by
        apply List.ne_nil_of_length_pos
        rw [hreshapes.length]
        exact List.length_pos_iff.mpr hne
      have hcount := elements_eq_ite r
      rw [if_pos ⟨hrNe, by omega⟩] at hcount
      refine ⟨{ dims := s.dims, type := r.type, layout := r.layout }, ?_, rfl, ?_, ?_⟩
      · rw [inferReshape_given hreshapes.nonneg hdims (by omega), if_pos ⟨hvolume.1, by omega⟩]
      · rw [haccepts.result]
      · rw [haccepts.result]

/-- A matrix made flat and back. -/
theorem reshape_undone_iff_example : ReshapesToItself { dims := [2, 3] } ∧
    ∃ r, inferReshape { dims := [2, 3] } [-1] = .ok r ∧ ReshapesBack r { dims := [2, 3] } := by
  have hok : inferReshape { dims := [2, 3] } [-1] = .ok { dims := [6] } := by decide +kernel
  have helements : HasElements { dims := [2, 3] } := ⟨by decide, by decide⟩
  have hrange : InferredInRange [-1] := by
    intro axis haxis
    have hlt := (List.getElem?_eq_some_iff.mp haxis).1
    simp only [List.length_cons, List.length_nil] at hlt
    omega
  obtain ⟨hself, hundone⟩ :=
    @reshape_undone_iff { dims := [2, 3] } (by decide) (by decide +kernel)
  exact ⟨hself.mpr helements, _, hok,
    (hundone [-1] _ (by decide +kernel) hok).mpr ⟨helements, by decide, hrange⟩⟩

/-- **Shapes that cannot be reshaped to themselves.**  A shape with an empty axis and a
scalar are rejected, though the shape with the empty axis comes out of a reshape. -/
theorem reshape_rejects_itself :
    inferReshape { dims := [0, 3] } [-1, 3] = .ok { dims := [0, 3] } ∧
      ¬ ReshapesToItself { dims := [0, 3] } ∧ ¬ ReshapesToItself { dims := [] } := by
  have hempty : inferReshape { dims := [0, 3] } [0, 3]
      = .error "reshape element count mismatch" := by decide +kernel
  have hscalar : inferReshape { dims := [] } [] = .error "reshape element count mismatch" := by
    decide +kernel
  refine ⟨by decide +kernel, ?_, ?_⟩
  · intro hself
    obtain ⟨result, hrun, _⟩ := hself
    rw [hempty] at hrun
    cases hrun
  · intro hself
    obtain ⟨result, hrun, _⟩ := hself
    rw [hscalar] at hrun
    cases hrun

end Gpuforge.Compiler

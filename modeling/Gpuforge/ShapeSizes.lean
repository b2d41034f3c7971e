import Gpuforge.BroadcastIndex
import Gpuforge.ShapeRules

/-!
# Element counts and axes of shapes

`elements` is the product of the dims when that fits a `size_t`, and 0 when it
does not, so a positive count is the number of entries of an array over the
dims (`elements_eq_volume`).

`infer_broadcast` aligns shapes at their last dims.  Seen from the end and
padded with 1, each axis of the result is the larger one of the two operand
axes.  For operands with as many elements as each other the result has that
many elements exactly when the operands have the same axes
(`broadcast_elements_iff`).
-/

namespace Gpuforge.Compiler

/-- The number of entries of an array over dims. -/
def volume (dims : List Int) : Nat := (dims.map Int.toNat).prod

/-- The dims from the last one on, padded with 1 to a rank. -/
def axes (dims : List Int) (rank : Nat) : List Nat :=
  (List.range rank).map fun k => (axisFromEnd dims k).toNat

/-- The two shapes have the same dims apart from leading ones. -/
def SameAxes (lhs rhs : Shape) : Prop :=
  ∀ k, axisFromEnd lhs.dims k = axisFromEnd rhs.dims k

/-! ## Element counts -/

@[simp] theorem volume_cons (d : Int) (dims : List Int) :
    volume (d :: dims) = d.toNat * volume dims := by
  simp [volume]

/-- Positive dims give a positive volume. -/
theorem volume_pos {dims : List Int} (hpos : ∀ d ∈ dims, 0 < d) : 0 < volume dims := by
  apply List.prod_pos
  intro n hn
  obtain ⟨d, hd, rfl⟩ := List.mem_map.mp hn
  have := hpos d hd
  omega

/-- A positive count means that no dim stopped the loop. -/
theorem elementsFrom_pos {dims : List Int} {result : Nat} (h : 0 < elementsFrom result dims) :
    0 < result ∧ (∀ d ∈ dims, 0 < d) ∧ elementsFrom result dims = result * volume dims := by
  induction dims generalizing result with
  | nil => exact ⟨h, by simp, by simp [elementsFrom, volume]⟩
  | cons d dims ih =>
      simp only [elementsFrom] at h ⊢
      split at h
      · cases h
      · split at h
        · cases h
        · rename_i hneg hfits
          obtain ⟨hresult, hdims, heq⟩ := ih h
          have hd : 0 < d.toNat := Nat.pos_of_mul_pos_left hresult
          rw [if_neg hneg, if_neg hfits, heq, volume_cons, Nat.mul_assoc]
          refine ⟨Nat.pos_of_mul_pos_right hresult, ?_, rfl⟩
          intro e he
          rcases List.mem_cons.mp he with rfl | he'
          · omega
          · exact hdims e he'

/-- A product that fits is computed. -/
theorem elementsFrom_eq {dims : List Int} (hpos : ∀ d ∈ dims, 0 < d) {result : Nat}
    (hfits : result * volume dims < 2 ^ 64) :
    elementsFrom result dims = result * volume dims := by
  induction dims generalizing result with
  | nil => simp [elementsFrom, volume]
  | cons d dims ih =>
      have hd : 0 < d := hpos d List.mem_cons_self
      have hpos' : ∀ e ∈ dims, 0 < e := fun e he => hpos e (List.mem_cons_of_mem _ he)
      have hdNat : 0 < d.toNat := by omega
      rw [volume_cons, ← Nat.mul_assoc] at hfits ⊢
      have hpartial : result * d.toNat ≤ result * d.toNat * volume dims :=
        Nat.le_mul_of_pos_right _ (volume_pos hpos')
      have hbound : result ≤ (2 ^ 64 - 1) / d.toNat :=
        (Nat.le_div_iff_mul_le hdNat).mpr (by omega)
      rw [elementsFrom, if_neg (by omega), if_neg (by omega), ih hpos' hfits]

/-- Counts fit a `size_t`. -/
theorem elementsFrom_lt {dims : List Int} {result : Nat} (h : result < 2 ^ 64) :
    elementsFrom result dims < 2 ^ 64 := by
  induction dims generalizing result with
  | nil => exact h
  | cons d dims ih =>
      simp only [elementsFrom]
      split
      · decide
      · split
        · decide
        · rename_i hfits
          apply ih
          by_cases hd : d.toNat = 0
          · simp [hd]
          · have hle : result ≤ (2 ^ 64 - 1) / d.toNat :=
              Nat.le_of_not_lt fun hlt => hfits ⟨hd, hlt⟩
            have := (Nat.le_div_iff_mul_le (Nat.pos_of_ne_zero hd)).mp hle
            omega

/-- A positive count is the volume of positive dims. -/
theorem elements_eq_volume {shape : Shape} (h : 0 < shape.elements) :
    shape.dims ≠ [] ∧ (∀ d ∈ shape.dims, 0 < d) ∧ shape.elements = volume shape.dims := by
  unfold Shape.elements at h ⊢
  split at h
  · cases h
  · rename_i hne
    obtain ⟨_, hpos, heq⟩ := elementsFrom_pos h
    rw [if_neg hne, heq, Nat.one_mul]
    exact ⟨hne, hpos, rfl⟩

/-- A volume that fits is the count. -/
theorem elements_of_volume {shape : Shape} (hne : shape.dims ≠ [])
    (hpos : ∀ d ∈ shape.dims, 0 < d) (hfits : volume shape.dims < 2 ^ 64) :
    shape.elements = volume shape.dims := by
  rw [Shape.elements, if_neg hne, elementsFrom_eq hpos (by omega), Nat.one_mul]

theorem elements_lt (shape : Shape) : shape.elements < 2 ^ 64 := by
  unfold Shape.elements
  split
  · decide
  · exact elementsFrom_lt (by decide)

/-! ## Axes -/

/-- Axes are read off the reversed dims. -/
theorem axisFromEnd_eq (dims : List Int) (k : Nat) :
    axisFromEnd dims k = dims.reverse[k]?.getD 1 := by
  unfold axisFromEnd
  split
  · rename_i hk
    rw [List.getElem?_reverse hk, List.getD_eq_getElem?_getD]
    congr 2
    omega
  · rename_i hk
    rw [List.getElem?_eq_none (by rw [List.length_reverse]; omega), Option.getD_none]

/-- Positive dims have positive axes. -/
theorem axisFromEnd_pos {dims : List Int} (hpos : ∀ d ∈ dims, 0 < d) (k : Nat) :
    0 < axisFromEnd dims k := by
  rw [axisFromEnd_eq]
  cases hd : dims.reverse[k]? with
  | none => decide
  | some d => exact hpos d (List.mem_reverse.mp (List.mem_of_getElem? hd))

/-- The axes are the dims in reverse, followed by ones. -/
theorem axes_eq {dims : List Int} {rank : Nat} (hrank : dims.length ≤ rank) :
    axes dims rank =
      (dims.map Int.toNat).reverse ++ List.replicate (rank - dims.length) 1 := by
  rw [← List.map_reverse]
  refine List.ext_getElem (by simp [axes]; omega) fun k hk _ => ?_
  simp only [axes, List.getElem_map, List.getElem_range, axisFromEnd_eq]
  by_cases hkd : k < dims.length
  · rw [List.getElem_append_left (by simpa using hkd), List.getElem_map,
      List.getElem?_eq_getElem (by simpa using hkd), Option.getD_some]
  · rw [List.getElem_append_right (by simp; omega), List.getElem_replicate,
      List.getElem?_eq_none (by simp; omega)]
    rfl

/-- Padding with ones keeps the volume. -/
theorem prod_axes {dims : List Int} {rank : Nat} (hrank : dims.length ≤ rank) :
    (axes dims rank).prod = volume dims := by
  rw [axes_eq hrank, List.prod_append, List.prod_reverse, List.prod_replicate, one_pow,
    Nat.mul_one, volume]

/-- Axes of positive dims are positive. -/
theorem axes_pos {dims : List Int} (hpos : ∀ d ∈ dims, 0 < d) {rank : Nat} :
    ∀ n ∈ axes dims rank, 0 < n := by
  intro n hn
  obtain ⟨k, _, rfl⟩ := List.mem_map.mp hn
  have := axisFromEnd_pos hpos k
  omega

/-- Axis by axis smaller shapes. -/
theorem axes_le {dims out : List Int}
    (hle : ∀ k, axisFromEnd dims k ≤ axisFromEnd out k) (rank : Nat) :
    List.Forall₂ (· ≤ ·) (axes dims rank) (axes out rank) := by
  rw [axes, axes, List.forall₂_map_left_iff, List.forall₂_map_right_iff]
  apply List.forall₂_same.mpr
  intro k _
  have := hle k
  omega

/-- Positive dims with the same axes up to a rank have the same axes. -/
theorem axisFromEnd_eq_of_axes {dims out : List Int} {rank : Nat} (hdims : dims.length ≤ rank)
    (hout : out.length ≤ rank) (hpos : ∀ d ∈ dims, 0 < d) (hpos' : ∀ d ∈ out, 0 < d)
    (heq : axes dims rank = axes out rank) (k : Nat) :
    axisFromEnd dims k = axisFromEnd out k := by
  by_cases hk : k < rank
  · have hread := congrArg (fun xs => xs[k]?) heq
    simp only [axes, List.getElem?_map, List.getElem?_range hk, Option.map_some,
      Option.some.injEq] at hread
    have h1 := axisFromEnd_pos hpos k
    have h2 := axisFromEnd_pos hpos' k
    omega
  · rw [axisFromEnd, if_neg (by omega), axisFromEnd, if_neg (by omega)]

/-! ## Broadcasting -/

/-- The axes written by the loop of `infer_broadcast`. -/
theorem broadcastFrom_axes {lhs rhs : List Int} {count reverse : Nat} {done dims : List Int}
    (h : broadcastFrom lhs rhs count reverse done = .ok dims)
    (hdone : done.reverse =
      (List.range reverse).map fun k => max (axisFromEnd lhs k) (axisFromEnd rhs k)) :
    dims.reverse = (List.range (reverse + count)).map
      fun k => max (axisFromEnd lhs k) (axisFromEnd rhs k) := by
  induction count generalizing reverse done with
  | zero =>
      cases h
      exact hdone
  | succ count ih =>
      simp only [broadcastFrom] at h
      split at h
      · cases h
      · have hnext := ih h (by rw [List.reverse_cons, hdone, List.range_succ]; simp)
        rw [hnext]
        congr 2
        omega

/-- **Broadcasting by axes.**  The rank is the larger one, and each axis is the
larger one. -/
theorem inferBroadcast_axes {lhs rhs shape : Shape} (h : inferBroadcast lhs rhs = .ok shape) :
    shape.dims.length = max lhs.dims.length rhs.dims.length ∧
      ∀ k, axisFromEnd shape.dims k =
        max (axisFromEnd lhs.dims k) (axisFromEnd rhs.dims k) := by
  unfold inferBroadcast at h
  split at h
  · cases h
  · split at h
    · cases h
    · rename_i dims hdims
      cases h
      have hreverse := broadcastFrom_axes hdims rfl
      rw [Nat.zero_add] at hreverse
      have hlen : dims.length = max lhs.dims.length rhs.dims.length := by
        rw [← List.length_reverse, hreverse, List.length_map, List.length_range]
      refine ⟨hlen, fun k => ?_⟩
      by_cases hk : k < dims.length
      · rw [axisFromEnd_eq, hreverse, List.getElem?_map,
          List.getElem?_range (by rw [← hlen]; exact hk)]
        rfl
      · have hl : ¬ k < lhs.dims.length := by omega
        have hr : ¬ k < rhs.dims.length := by omega
        rw [axisFromEnd, if_neg hk, axisFromEnd, if_neg hl, axisFromEnd, if_neg hr]
        rfl

/-- An operand with as many elements as the broadcast shape has its axes. -/
theorem axes_eq_of_elements {dims out : List Int} (hrank : dims.length ≤ out.length)
    (hle : ∀ k, axisFromEnd dims k ≤ axisFromEnd out k) (hpos : ∀ d ∈ dims, 0 < d)
    (hcount : volume out = volume dims) : axes dims out.length = axes out out.length := by
  apply BroadcastIndex.eq_of_prod_eq (axes_le hle _) (axes_pos hpos)
  rw [prod_axes (Nat.le_refl _), prod_axes hrank, hcount]

/-- Operands with the same axes broadcast to these axes. -/
theorem SameAxes.broadcast {lhs rhs shape : Shape} (h : SameAxes lhs rhs)
    (hinfer : inferBroadcast lhs rhs = .ok shape) :
    SameAxes lhs shape ∧ SameAxes rhs shape := by
  obtain ⟨_, haxis⟩ := inferBroadcast_axes hinfer
  refine ⟨fun k => ?_, fun k => ?_⟩
  · rw [haxis k, ← h k, max_self]
  · rw [haxis k, h k, max_self]

/-- Shapes with the same axes have the same axis lists. -/
theorem SameAxes.axes_eq {lhs rhs : Shape} (h : SameAxes lhs rhs) (rank : Nat) :
    axes lhs.dims rank = axes rhs.dims rank :=
  List.map_congr_left fun k _ => by rw [h k]

/-- **When the element count survives broadcasting.**  Operands with equally
many elements broadcast to that many elements exactly when they have the same
axes. -/
theorem broadcast_elements_iff {lhs rhs shape : Shape} (h : inferBroadcast lhs rhs = .ok shape)
    (hpos : 0 < lhs.elements) (hsame : lhs.elements = rhs.elements) :
    shape.elements = lhs.elements ↔ SameAxes lhs rhs := by
  obtain ⟨hrank, haxis⟩ := inferBroadcast_axes h
  obtain ⟨hlne, hlpos, hlvol⟩ := elements_eq_volume hpos
  obtain ⟨_, hrpos, hrvol⟩ := elements_eq_volume (hsame ▸ hpos)
  constructor
  · intro hcount k
    obtain ⟨_, hspos, hsvol⟩ := elements_eq_volume (hcount ▸ hpos)
    have hleft : axes lhs.dims shape.dims.length = axes shape.dims shape.dims.length :=
      axes_eq_of_elements (by omega) (fun k => by have := haxis k; omega) hlpos (by omega)
    have hright : axes rhs.dims shape.dims.length = axes shape.dims shape.dims.length :=
      axes_eq_of_elements (by omega) (fun k => by have := haxis k; omega) hrpos (by omega)
    rw [axisFromEnd_eq_of_axes (by omega) (Nat.le_refl _) hlpos hspos hleft,
      axisFromEnd_eq_of_axes (by omega) (Nat.le_refl _) hrpos hspos hright]
  · intro haxes
    have hshape := (haxes.broadcast h).1
    have hvol : volume shape.dims = volume lhs.dims := by
      rw [← prod_axes (Nat.le_refl shape.dims.length), ← hshape.axes_eq, prod_axes (by omega)]
    have hspos : ∀ d ∈ shape.dims, 0 < d := by
      intro d hd
      obtain ⟨k, hk, rfl⟩ := List.mem_iff_getElem.mp (List.mem_reverse.mpr hd)
      have haxisPos := axisFromEnd_pos hlpos k
      rw [hshape k, axisFromEnd_eq, List.getElem?_eq_getElem hk] at haxisPos
      exact haxisPos
    have hsne : shape.dims ≠ [] := by
      have := List.length_pos_iff.mpr hlne
      exact List.length_pos_iff.mp (by omega)
    have hlt := elements_lt lhs
    rw [elements_of_volume hsne hspos (by omega), hvol, hlvol]

end Gpuforge.Compiler

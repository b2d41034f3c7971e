import Mathlib.Algebra.Order.Ring.Nat
import Mathlib.Data.Nat.Bitwise
import Gpuforge.CallOutcome

/-!
# Size classes of the vendored pool (`vendor_memorypool/v3/src/Common.h`)

Small requests are served in blocks of 56 sizes.  The sizes go up in steps of 8
and the step doubles whenever the size reaches eight steps, so that from 64 on
there are four classes to a doubling.  Two tables, filled when the program is
compiled, take a request to its class: one has an entry for each size up to 256,
the other one for each multiple of 8.

Both tables are filled by one loop whose index never goes back.  Since the
requests of a table only grow, the class it stops at is the least that fits.
-/

namespace Gpuforge.Kama

/-- `SIZE_MAX`. -/
def sizeMax : ℕ := 2 ^ 64 - 1

/-- `ALIGNMENT`. -/
def alignment : ℕ := 8

/-- `MAX_BYTES`: larger requests get pages of their own. -/
def maxBytes : ℕ := 256 * 1024

/-- `kMaxSizeClasses`. -/
def maxSizeClasses : ℕ := 64

/-- `(n + a - 1) & ~(a - 1)`. -/
def maskUp (n a : ℕ) : ℕ := addSize n (a - 1) &&& (sizeMax - (a - 1))

/-! ## The tables -/

/-- The loop of `makeSizeClassTable`, with the number of entries still free. -/
def makeSizes : ℕ → ℕ → ℕ → List ℕ
  | 0, _, _ => []
  | free + 1, align, size =>
      let size := size + align
      if maxBytes < size then []
      else size :: makeSizes free (if align * 8 ≤ size then align * 2 else align) size

/-- `kSizeClassTable`, the entries in use. -/
def sizeClassTable : List ℕ := makeSizes maxSizeClasses alignment 0

/-- `classCount`, which is `FREE_LIST_SIZE`. -/
def classCount : ℕ := sizeClassTable.length

/-- `SizeClass::getSize`; entries that are not in use are zero. -/
def getSize (index : ℕ) : ℕ := sizeClassTable.getD index 0

/-- The inner loop of the index maps: go up until the class fits, or is the last. -/
def seek (bytes : ℕ) : ℕ → ℕ → ℕ
  | 0, index => index
  | fuel + 1, index =>
      if index + 1 < classCount ∧ getSize index < bytes then seek bytes fuel (index + 1)
      else index

/-- The outer loop: each entry's search goes on from the one before. -/
def makeMap : List ℕ → ℕ → List ℕ
  | [], _ => []
  | bytes :: rest, index =>
      let index := seek bytes classCount index
      index % 256 :: makeMap rest index

/-- `kSmallIndexMap`. -/
def smallIndexMap : List ℕ :=
  makeMap ((List.range 257).map fun n => if n = 0 then alignment else n) 0

/-- `kIndexMap`. -/
def indexMap : List ℕ :=
  makeMap ((List.range (maxBytes / alignment + 1)).map fun unit =>
    if unit = 0 then alignment else unit * alignment) 0

/-- `SizeClass::getIndex`. -/
def getIndex (bytes : ℕ) : ℕ :=
  if bytes ≤ 256 then smallIndexMap.getD bytes 0
  else if maxBytes < bytes then classCount
  else indexMap.getD ((bytes + alignment - 1) / alignment) 0

/-- `SizeClass::roundUp`. -/
def roundUp (bytes : ℕ) : ℕ :=
  if maxBytes < bytes then maskUp bytes alignment else getSize (getIndex bytes)

/-! ## Masks -/

/-- Masking off low bits is rounding down. -/
theorem and_high_mask {x k : ℕ} (hx : x < 2 ^ 64) (hk : k ≤ 64) :
    x &&& (sizeMax - (2 ^ k - 1)) = x / 2 ^ k * 2 ^ k := by
  have hmask : sizeMax - (2 ^ k - 1) = (2 ^ (64 - k) - 1) * 2 ^ k := by
    have hpow : 2 ^ 64 = 2 ^ (64 - k) * 2 ^ k := by rw [← pow_add, Nat.sub_add_cancel hk]
    have hpos : 0 < 2 ^ k := Nat.two_pow_pos k
    rw [Nat.sub_mul, one_mul, ← hpow, sizeMax]
    omega
  refine Nat.eq_of_testBit_eq ?_
  intro i
  rw [hmask, Nat.testBit_and, Nat.testBit_mul_two_pow, Nat.testBit_mul_two_pow,
    Nat.testBit_two_pow_sub_one, Nat.testBit_div_two_pow]
  by_cases hi : k ≤ i
  · have hback : i - k + k = i := Nat.sub_add_cancel hi
    rw [hback]
    by_cases hlt : i < 64
    · have hin : i - k < 64 - k := by omega
      simp [hi, hin]
    · have hzero : x.testBit i = false :=
        Nat.testBit_lt_two_pow (hx.trans_le (Nat.pow_le_pow_right (by omega) (by omega)))
      simp [hzero]
  · simp [hi]

/-- The mask rounds up to a power of two, where the sum is a `size_t`. -/
theorem maskUp_eq {n k : ℕ} (hk : k ≤ 64) (h : n + (2 ^ k - 1) < 2 ^ 64) :
    maskUp n (2 ^ k) = (n + (2 ^ k - 1)) / 2 ^ k * 2 ^ k := by
  rw [maskUp, addSize_of_lt h, and_high_mask h hk]

/-- What rounding up gives. -/
theorem maskUp_spec {n k : ℕ} (hk : k ≤ 64) (h : n + (2 ^ k - 1) < 2 ^ 64) :
    2 ^ k ∣ maskUp n (2 ^ k) ∧ n ≤ maskUp n (2 ^ k) ∧ maskUp n (2 ^ k) < n + 2 ^ k := by
  have hpos : 0 < 2 ^ k := Nat.two_pow_pos k
  have hdiv := Nat.div_add_mod (n + (2 ^ k - 1)) (2 ^ k)
  have hmod := Nat.mod_lt (n + (2 ^ k - 1)) hpos
  rw [maskUp_eq hk h]
  refine ⟨Nat.dvd_mul_left _ _, ?_, ?_⟩
  · rw [mul_comm]
    omega
  · rw [mul_comm]
    omega

/-! ## The sizes -/

theorem classCount_eq : classCount = 56 := by decide +kernel

theorem getSize_last : getSize 55 = maxBytes := by decide +kernel

/-- Neighbouring sizes: multiples of 8, growing, by 8 or by at most a quarter. -/
theorem getSize_succ {i : ℕ} (h : i < 55) :
    getSize i < getSize (i + 1) ∧ alignment ∣ getSize (i + 1) ∧
      (getSize (i + 1) = getSize i + 8 ∨ 4 * (getSize (i + 1) - getSize i) ≤ getSize i) := by
  have hall : ∀ i : Fin 55, getSize i < getSize (i + 1) ∧ alignment ∣ getSize (i + 1) ∧
      (getSize (i + 1) = getSize i + 8 ∨ 4 * (getSize (i + 1) - getSize i) ≤ getSize i) := by
    decide +kernel
  exact hall ⟨i, h⟩

theorem getSize_zero : getSize 0 = 8 := by decide +kernel

theorem getSize_lt_getSize {i j : ℕ} (hij : i < j) (hj : j < classCount) :
    getSize i < getSize j := by
  rw [classCount_eq] at hj
  induction j with
  | zero => omega
  | succ j ih =>
      have hstep := (getSize_succ (i := j) (by omega)).1
      obtain rfl | hlt := Nat.lt_succ_iff_lt_or_eq.mp hij |>.symm
      · exact hstep
      · exact (ih hlt (by omega)).trans hstep

theorem getSize_mono {i j : ℕ} (hij : i ≤ j) (hj : j < classCount) :
    getSize i ≤ getSize j := by
  obtain rfl | hlt := hij.eq_or_lt
  · exact le_refl _
  · exact (getSize_lt_getSize hlt hj).le

theorem getSize_dvd {i : ℕ} (h : i < classCount) : alignment ∣ getSize i := by
  rw [classCount_eq] at h
  cases i with
  | zero => exact ⟨1, getSize_zero⟩
  | succ i => exact (getSize_succ (by omega)).2.1

theorem le_getSize {i : ℕ} (h : i < classCount) : 8 ≤ getSize i :=
  getSize_zero ▸ getSize_mono (Nat.zero_le i) h

theorem getSize_le {i : ℕ} (h : i < classCount) : getSize i ≤ maxBytes := by
  have hle : i ≤ 55 := by
    rw [classCount_eq] at h
    omega
  exact getSize_last ▸ getSize_mono hle (by rw [classCount_eq]; omega)

/-! ## The class of a request -/

/-- The least class that fits a request. -/
structure LeastClass (bytes i : ℕ) : Prop where
  lt : i < classCount
  fits : bytes ≤ getSize i
  least : ∀ j, j < i → getSize j < bytes

theorem LeastClass.unique {bytes i j : ℕ} (hi : LeastClass bytes i) (hj : LeastClass bytes j) :
    i = j := by
  have hfi := hi.fits
  have hfj := hj.fits
  obtain hlt | heq | hgt := lt_trichotomy i j
  · have := hj.least i hlt
    omega
  · exact heq
  · have := hi.least j hgt
    omega

/-- A class is the least for its own size. -/
theorem leastClass_getSize {i : ℕ} (h : i < classCount) : LeastClass (getSize i) i :=
  ⟨h, le_refl _, fun _ hj => getSize_lt_getSize hj h⟩

/-- The search ends at the least class, if it starts at or below it. -/
theorem leastClass_seek {bytes : ℕ} (hbytes : bytes ≤ maxBytes) (fuel : ℕ) {index : ℕ}
    (hlt : index < classCount) (hfuel : classCount ≤ index + fuel)
    (hbelow : ∀ j, j < index → getSize j < bytes) :
    LeastClass bytes (seek bytes fuel index) := by
  induction fuel generalizing index with
  | zero => omega
  | succ fuel ih =>
      rw [seek]
      split
      · next h =>
        refine ih h.1 (by omega) ?_
        intro j hj
        obtain rfl | hj := Nat.lt_succ_iff_lt_or_eq.mp hj |>.symm
        · exact h.2
        · exact hbelow j hj
      · next h =>
        refine ⟨hlt, ?_, hbelow⟩
        by_contra hsmall
        have hlast : index = 55 := by
          rw [classCount_eq] at *
          omega
        rw [hlast, getSize_last] at hsmall
        exact hsmall hbytes

/-- **The index maps.**  An entry is the least class for its request. -/
theorem leastClass_makeMap {requests : List ℕ} (hsorted : requests.Pairwise (· ≤ ·))
    (hbytes : ∀ bytes ∈ requests, bytes ≤ maxBytes) {index : ℕ} (hlt : index < classCount)
    (hbelow : ∀ bytes ∈ requests, ∀ j, j < index → getSize j < bytes) {i bytes : ℕ}
    (h : requests[i]? = some bytes) : LeastClass bytes ((makeMap requests index).getD i 0) := by
  induction requests generalizing index i with
  | nil => cases h
  | cons head rest ih =>
      obtain ⟨hhead, hrest⟩ := List.pairwise_cons.mp hsorted
      obtain ⟨hbhead, hbrest⟩ := List.forall_mem_cons.mp hbelow
      have hseek : LeastClass head (seek head classCount index) :=
        leastClass_seek (hbytes head List.mem_cons_self) _ hlt (by omega) hbhead
      have hbyte : seek head classCount index % 256 = seek head classCount index := by
        have hlt := hseek.lt
        have hsize := classCount_eq
        exact Nat.mod_eq_of_lt (by omega)
      cases i with
      | zero =>
          rw [List.getElem?_cons_zero] at h
          obtain rfl := Option.some.inj h
          rw [makeMap, List.getD_cons_zero, hbyte]
          exact hseek
      | succ i =>
          rw [List.getElem?_cons_succ] at h
          rw [makeMap, List.getD_cons_succ]
          refine ih hrest (fun b hb => hbytes b (List.mem_cons_of_mem _ hb)) hseek.lt ?_ h
          intro b hb j hj
          exact (hseek.least j hj).trans_le (hhead b hb)

/-- A map whose entry 0 stands for 8 bytes and whose others are `step` apart. -/
theorem leastClass_entry {n step unit : ℕ} (hbytes : n * step ≤ maxBytes) (hunit : unit ≤ n) :
    LeastClass (if unit = 0 then alignment else unit * step)
      ((makeMap ((List.range (n + 1)).map fun u => if u = 0 then alignment else u * step) 0).getD
        unit 0) := by
  have hzero : seek alignment classCount 0 = 0 := by decide +kernel
  have hlist : ((List.range (n + 1)).map fun u => if u = 0 then alignment else u * step) =
      alignment :: (List.range n).map fun u => (u + 1) * step := by
    rw [List.range_succ_eq_map, List.map_cons, List.map_map]
    rfl
  rw [hlist, makeMap, hzero]
  cases unit with
  | zero =>
      have hself := leastClass_getSize (i := 0) (by rw [classCount_eq]; omega)
      rw [getSize_zero] at hself
      exact hself
  | succ unit =>
      rw [List.getD_cons_succ, if_neg (Nat.succ_ne_zero unit)]
      refine leastClass_makeMap ?_ ?_ (by rw [classCount_eq]; omega) ?_ ?_
      · refine List.Pairwise.map _ ?_ List.pairwise_lt_range
        intro a b hab
        exact Nat.mul_le_mul_right step (by omega)
      · intro bytes hmem
        obtain ⟨u, hu, rfl⟩ := List.mem_map.mp hmem
        exact (Nat.mul_le_mul_right step (List.mem_range.mp hu)).trans hbytes
      · intro _ _ j hj
        omega
      · rw [List.getElem?_map, List.getElem?_range (by omega)]
        rfl

/-- **The class of a request** is the least that fits it. -/
theorem leastClass_getIndex {bytes : ℕ} (h : bytes ≤ maxBytes) :
    LeastClass bytes (getIndex bytes) := by
  rw [getIndex]
  split
  · next hsmall =>
    have hentry := @leastClass_entry 256 1 bytes (by decide) hsmall
    simp only [mul_one] at hentry
    refine ⟨hentry.lt, ?_, ?_⟩
    · refine le_trans ?_ hentry.fits
      split
      · omega
      · exact le_refl _
    · intro j hj
      have hbelow := hentry.least j hj
      split at hbelow
      · have hle := le_getSize (hj.trans hentry.lt)
        rw [alignment] at hbelow
        omega
      · exact hbelow
  · next hbig =>
    rw [if_neg (by omega)]
    have hunits : (bytes + alignment - 1) / alignment ≤ maxBytes / alignment := by
      rw [maxBytes, alignment] at *
      omega
    have hne : (bytes + alignment - 1) / alignment ≠ 0 := by
      rw [alignment]
      omega
    have hentry := @leastClass_entry (maxBytes / alignment) alignment _ (by decide) hunits
    rw [if_neg hne] at hentry
    refine ⟨hentry.lt, ?_, ?_⟩
    · refine le_trans ?_ hentry.fits
      rw [alignment]
      omega
    · intro j hj
      -- sizes are multiples of 8, and no multiple of 8 lies between the two requests
      obtain ⟨c, hc⟩ := getSize_dvd (hj.trans hentry.lt)
      have hbelow := hentry.least j hj
      rw [hc, alignment] at *
      omega

/-- The class of larger requests is none. -/
theorem getIndex_large {bytes : ℕ} (h : maxBytes < bytes) : getIndex bytes = classCount := by
  rw [getIndex, if_neg (by rw [maxBytes] at h; omega), if_pos h]

/-- A request rounded up keeps its class. -/
theorem getIndex_roundUp {bytes : ℕ} (h : bytes ≤ maxBytes) :
    getIndex (roundUp bytes) = getIndex bytes := by
  have hclass := leastClass_getIndex h
  rw [roundUp, if_neg (not_lt.mpr h)]
  exact (leastClass_getIndex (getSize_le hclass.lt)).unique (leastClass_getSize hclass.lt)

/-- What rounding up adds: less than 8 bytes, or less than a quarter. -/
theorem roundUp_waste {bytes : ℕ} (h : bytes ≤ maxBytes) (hpos : 0 < bytes) :
    roundUp bytes < bytes + 8 ∨ 4 * (roundUp bytes - bytes) < bytes := by
  have hclass := leastClass_getIndex h
  have hfits := hclass.fits
  have hlt := hclass.lt
  rw [classCount_eq] at hlt
  rw [roundUp, if_neg (not_lt.mpr h)]
  cases hi : getIndex bytes with
  | zero =>
      rw [getSize_zero]
      omega
  | succ i =>
      rw [hi] at hclass hlt hfits
      have hbelow := hclass.least i (Nat.lt_succ_self i)
      obtain ⟨hstep, _, hgap | hgap⟩ := getSize_succ (i := i) (by omega)
      · omega
      · omega

/-! ## Alignment -/

/-- The size below a class. -/
def sizeBelow (i : ℕ) : ℕ := if i = 0 then 0 else getSize (i - 1)

/-- A power of two divides a size, or has no multiple between it and the size below. -/
theorem dvd_getSize_or {a i : ℕ} (ha : a < 19) (hi : i < 56) :
    getSize i % 2 ^ a = 0 ∨ sizeBelow i / 2 ^ a = getSize i / 2 ^ a := by
  have hall : ∀ a : Fin 19, ∀ i : Fin 56, getSize i % 2 ^ a.val = 0 ∨
      sizeBelow i / 2 ^ a.val = getSize i / 2 ^ a.val := by
    decide +kernel
  exact hall ⟨a, ha⟩ ⟨i, hi⟩

/-- **Blocks keep alignments.**  The class of a multiple of a power of two is a
multiple of it. -/
theorem dvd_getSize_getIndex {a bytes : ℕ} (h : bytes ≤ maxBytes) (hpos : 0 < bytes)
    (hdvd : 2 ^ a ∣ bytes) : 2 ^ a ∣ getSize (getIndex bytes) := by
  have hclass := leastClass_getIndex h
  have hlt := hclass.lt
  rw [classCount_eq] at hlt
  have ha : a < 19 := by
    have hle : 2 ^ a ≤ 2 ^ 18 := (Nat.le_of_dvd hpos hdvd).trans h
    have := (Nat.pow_le_pow_iff_right (by omega)).mp hle
    omega
  obtain hzero | hsame := dvd_getSize_or ha hlt
  · exact Nat.dvd_of_mod_eq_zero hzero
  · exfalso
    obtain ⟨c, rfl⟩ := hdvd
    have hpow : 0 < 2 ^ a := Nat.two_pow_pos a
    have hbelow : sizeBelow (getIndex (2 ^ a * c)) < 2 ^ a * c := by
      unfold sizeBelow
      split
      · exact hpos
      · exact hclass.least _ (by omega)
    have hlow : sizeBelow (getIndex (2 ^ a * c)) / 2 ^ a < c :=
      (Nat.div_lt_iff_lt_mul hpow).mpr (mul_comm (2 ^ a) c ▸ hbelow)
    have hhigh : c ≤ getSize (getIndex (2 ^ a * c)) / 2 ^ a :=
      (Nat.le_div_iff_mul_le hpow).mpr (mul_comm (2 ^ a) c ▸ hclass.fits)
    omega

/-- **The size classes.**  A small request is served in the least class that fits, which is
the class of the rounded request too; it wastes less than 8 bytes or less than a quarter, and
the class is a multiple of every power of two that the request is a multiple of. -/
theorem getIndex_spec {bytes : ℕ} (h : bytes ≤ maxBytes) (hpos : 0 < bytes) :
    LeastClass bytes (getIndex bytes) ∧ roundUp bytes = getSize (getIndex bytes) ∧
      getIndex (roundUp bytes) = getIndex bytes ∧
      (roundUp bytes < bytes + 8 ∨ 4 * (roundUp bytes - bytes) < bytes) ∧
      ∀ a, 2 ^ a ∣ bytes → 2 ^ a ∣ roundUp bytes := by
  have hround : roundUp bytes = getSize (getIndex bytes) := by
    rw [roundUp, if_neg (not_lt.mpr h)]
  refine ⟨leastClass_getIndex h, hround, getIndex_roundUp h, roundUp_waste h hpos, ?_⟩
  intro a hdvd
  rw [hround]
  exact dvd_getSize_getIndex h hpos hdvd

/-- A request of 100 bytes gets a block of 112. -/
theorem getIndex_spec_hundred :
    LeastClass 100 (getIndex 100) ∧ roundUp 100 = 112 ∧ 4 ∣ roundUp 100 := by
  obtain ⟨hclass, _, _, _, hdvd⟩ := @getIndex_spec 100 (by decide) (by decide)
  exact ⟨hclass, by decide +kernel, hdvd 2 (by decide)⟩

end Gpuforge.Kama

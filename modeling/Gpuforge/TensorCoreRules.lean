import Gpuforge.GridOverflow
import Gpuforge.TuneTable

/-!
# Who may use the tensor cores (`tuning.cpp`, `runtime.cpp`, `precision.cpp`, `kernels.cu`)

Five places decide whether a product of an `m x k` and a `k x n` matrix can run on the
tensor cores.  The kernel and `tensor_core_compatible` ask for multiples of 16 in all three
dimensions, and so does the tile planner.  The search space asks for `k` only, next to a
tile of 8, 16 or 32 that fits `m` or `n`; `AutoTuner::choose` asks for a multiple of 8 in
`k` and looks at nothing else.  `eligibility_agrees_iff` says for which products they agree.
-/

namespace Gpuforge

/-- `tensor_core_compatible`, given the shapes of its operands. -/
def tensorCoreCompatible (lhs rhs : List Nat) (tile : Int) : Bool :=
  if tile ≤ 0 ∨ lhs.length ≠ 2 ∨ rhs.length ≠ 2 then false
  else
    decide (lhs.getD 1 0 = rhs.getD 0 0 ∧ lhs.getD 0 0 % castSize tile = 0 ∧
      lhs.getD 1 0 % castSize tile = 0 ∧ rhs.getD 1 0 % castSize tile = 0)

/-- `check_matrix_shapes`. -/
def checkMatrixShapes (lhs rhs : List Nat) (operation : String) : Except String Unit :=
  if lhs.length ≠ 2 ∨ rhs.length ≠ 2 ∨ lhs.getD 1 0 ≠ rhs.getD 0 0 then
    .error (operation ++ " shape")
  else .ok ()

/-- The checks at the start of `gemm_tensorcore`. -/
def gemmTensorcoreCheck (lhs rhs : List Nat) : Except String Unit := do
  checkMatrixShapes lhs rhs "tensorcore"
  if lhs.getD 0 0 % 16 ≠ 0 ∨ rhs.getD 1 0 % 16 ≠ 0 ∨ lhs.getD 1 0 % 16 ≠ 0 then
    .error "tensorcore requires multiples of 16"
  else .ok ()

/-- `AutoTuner` and its cache. -/
structure AutoTuner where
  cache : AList fun _ : TuneKey => GemmConfig := ∅

namespace AutoTuner

/-- What `choose` makes up for a product it has not seen. -/
def heuristic (m n k : Nat) : GemmConfig :=
  let work := mulSize (mulSize m n) k
  { tile := if 2 ^ 22 < work then 32 else 16
    warps := if 4096 < mulSize m n then 8 else 4
    useTensorCore := k % 8 = 0 }

/-- `AutoTuner::choose`. -/
def choose (tuner : AutoTuner) (m n k : Nat) : GemmConfig × AutoTuner :=
  match tuner.cache.lookup (m, n, k) with
  | some config => (config, tuner)
  | none =>
      let config := heuristic m n k
      (config, ⟨tuner.cache.insert (m, n, k) config⟩)

/-- A tuner after some calls of `choose`. -/
def after (calls : List TuneKey) : AutoTuner :=
  calls.foldl (fun tuner key => (tuner.choose key.1 key.2.1 key.2.2).2) {}

/-- What is cached is what `choose` made up. -/
def Faithful (tuner : AutoTuner) : Prop :=
  ∀ m n k, ∀ config ∈ tuner.cache.lookup (m, n, k), config = heuristic m n k

variable {tuner : AutoTuner}

/-- A faithful cache does not show. -/
theorem Faithful.choose_eq (h : tuner.Faithful) (m n k : Nat) :
    (tuner.choose m n k).1 = heuristic m n k := by
  unfold choose
  split
  · rename_i config hcached
    exact h m n k config hcached
  · rfl

/-- A call keeps the cache faithful. -/
theorem Faithful.choose (h : tuner.Faithful) (m n k : Nat) : (tuner.choose m n k).2.Faithful := by
  unfold AutoTuner.choose
  split
  · exact h
  · intro m' n' k' config hconfig
    by_cases hkey : (m', n', k') = (m, n, k)
    · cases hkey
      rw [AList.lookup_insert] at hconfig
      exact (Option.mem_some_iff.mp hconfig).symm
    · rw [AList.lookup_insert_ne hkey] at hconfig
      exact h m' n' k' config hconfig

/-- After any calls the cache is faithful. -/
theorem after_faithful (calls : List TuneKey) : (after calls).Faithful := by
  induction calls using List.reverseRecOn with
  | nil =>
      intro m n k config hconfig
      cases hconfig
  | append_singleton calls key ih =>
      rw [after, List.foldl_append]
      exact ih.choose key.1 key.2.1 key.2.2

end AutoTuner

/-! ## What the kernel takes -/

/-- `tensor_core_compatible` accepts the operands at tile 16, and `gemm_tensorcore` does not
throw on their shapes. -/
def TensorCoreRuns (m n k : Nat) : Prop :=
  tensorCoreCompatible [m, k] [k, n] 16 = true ∧ gemmTensorcoreCheck [m, k] [k, n] = .ok ()

/-- The two shape tests are one. -/
theorem tensorCoreRuns_iff {m n k : Nat} :
    TensorCoreRuns m n k ↔ 16 ∣ m ∧ 16 ∣ n ∧ 16 ∣ k := by
  have hcompatible : tensorCoreCompatible [m, k] [k, n] 16 = true ↔
      m % 16 = 0 ∧ k % 16 = 0 ∧ n % 16 = 0 := by
    have hcast : castSize 16 = 16 := rfl
    simp [tensorCoreCompatible, hcast]
  have hcheck : gemmTensorcoreCheck [m, k] [k, n] = .ok () ↔
      ¬ (m % 16 ≠ 0 ∨ n % 16 ≠ 0 ∨ k % 16 ≠ 0) := by
    have hshapes : checkMatrixShapes [m, k] [k, n] "tensorcore" = .ok () := if_neg (by simp)
    rw [gemmTensorcoreCheck, hshapes, ok_bind]
    simp only [List.getD_cons_zero, List.getD_cons_succ]
    split
    · rename_i hragged
      exact iff_of_false (fun h => nomatch h) (not_not_intro hragged)
    · rename_i hfits
      exact iff_of_true rfl hfits
  rw [TensorCoreRuns, hcompatible, hcheck]
  omega

/-! ## Who selects it -/

/-- The search space has a tensor core configuration when `k` is a multiple of 16 and a tile
of 8 fits one of the other dimensions. -/
theorem gemmSpace_tensorCore_iff {m n k : Nat} :
    (∃ c ∈ gemmSpace m n k, c.useTensorCore = true) ↔ 16 ∣ k ∧ (8 ∣ m ∨ 8 ∣ n) := by
  constructor
  · intro h
    obtain ⟨c, hmem, htensor⟩ := h
    simp only [gemmSpace, List.mem_flatMap, List.mem_filterMap] at hmem
    obtain ⟨tile, htile, warps, _, tensorCore, _, hc⟩ := hmem
    split at hc
    · cases hc
    · rename_i hinner
      split at hc
      · cases hc
      · rename_i hfits
        cases hc
        have htiles : tile = 8 ∨ tile = 16 ∨ tile = 32 := by simpa using htile
        have hk : k % 16 = 0 := by
          by_contra hne
          exact hinner ⟨htensor, hne⟩
        rcases htiles with rfl | rfl | rfl <;> omega
  · intro h
    obtain ⟨hk, hfits⟩ := h
    refine ⟨⟨8, 2, true⟩, ?_, rfl⟩
    simp only [gemmSpace, List.mem_flatMap, List.mem_filterMap]
    refine ⟨8, by simp, 2, by simp, true, by simp, ?_⟩
    rw [if_neg (by omega), if_neg (by omega)]
    rfl

/-- The tile planner takes the tensor core path for multiples of 16 only. -/
theorem plan_tensorCore {m n k : Nat} {type type' : Compiler.ScalarType}
    {layout layout' : Compiler.Layout} {schedule : Compiler.Schedule} {p : Compiler.TilePlan}
    (hplan : Compiler.plan ⟨[m, k], type, layout⟩ ⟨[k, n], type', layout'⟩ schedule = some p)
    (hkind : p.kind = .wmmaTensorCore) : 16 ∣ m ∧ 16 ∣ n ∧ 16 ∣ k := by
  simp only [Compiler.plan, Compiler.matrixShape, List.length_cons, List.length_nil,
    List.getD_cons_zero, List.getD_cons_succ, Compiler.wmmaPath_iff] at hplan
  rw [if_neg (by decide), if_neg (by simp)] at hplan
  obtain ⟨gridM, _, hplan⟩ := Option.bind_eq_some_iff.mp hplan
  obtain ⟨gridN, _, hplan⟩ := Option.bind_eq_some_iff.mp hplan
  obtain ⟨padded, _, hplan⟩ := Option.bind_eq_some_iff.mp hplan
  split at hplan
  · rename_i hpath
    obtain ⟨_, _, hm, hn, hk⟩ := hpath
    omega
  · cases hplan
    cases hkind

/-! ## Agreement -/

/-- Whoever selects the tensor cores selects a product that the kernel takes. -/
structure EligibilityAgrees (m n k : Nat) : Prop where
  searched : ∀ c ∈ gemmSpace m n k, c.useTensorCore = true → TensorCoreRuns m n k
  chosen : ∀ calls, ((AutoTuner.after calls).choose m n k).1.useTensorCore = true →
    TensorCoreRuns m n k
  planned : ∀ type type' layout layout' schedule p,
    Compiler.plan ⟨[m, k], type, layout⟩ ⟨[k, n], type', layout'⟩ schedule = some p →
      p.kind = .wmmaTensorCore → TensorCoreRuns m n k

/-- The search space agrees with the kernel where a tile that lets it in is a multiple of 16
on both sides. -/
theorem gemmSpace_agrees_iff {m n k : Nat} :
    (∀ c ∈ gemmSpace m n k, c.useTensorCore = true → TensorCoreRuns m n k) ↔
      (16 ∣ k ∧ (8 ∣ m ∨ 8 ∣ n) → 16 ∣ m ∧ 16 ∣ n) := by
  rw [← gemmSpace_tensorCore_iff]
  constructor
  · intro h hselected
    obtain ⟨c, hmem, htensor⟩ := hselected
    have hruns := tensorCoreRuns_iff.mp (h c hmem htensor)
    exact ⟨hruns.1, hruns.2.1⟩
  · intro h c hmem htensor
    have hselected : ∃ c ∈ gemmSpace m n k, c.useTensorCore = true := ⟨c, hmem, htensor⟩
    obtain ⟨hm, hn⟩ := h hselected
    exact tensorCoreRuns_iff.mpr ⟨hm, hn, (gemmSpace_tensorCore_iff.mp hselected).1⟩

/-- The heuristic agrees with the kernel where it says no, or all dimensions fit. -/
theorem choose_agrees_iff {m n k : Nat} (calls : List TuneKey) :
    (((AutoTuner.after calls).choose m n k).1.useTensorCore = true → TensorCoreRuns m n k) ↔
      (8 ∣ k → 16 ∣ m ∧ 16 ∣ n ∧ 16 ∣ k) := by
  have hchosen : ((AutoTuner.after calls).choose m n k).1.useTensorCore = true ↔ 8 ∣ k := by
    rw [(AutoTuner.after_faithful calls).choose_eq, Nat.dvd_iff_mod_eq_zero]
    exact decide_eq_true_iff
  rw [hchosen, tensorCoreRuns_iff]

/-- **Tensor core eligibility agrees exactly when `k` is no multiple of 8 or all three
dimensions are multiples of 16.**  The tile planner is always right, and the search space
errs on some of the products on which the heuristic does. -/
theorem eligibility_agrees_iff (m n k : Nat) :
    EligibilityAgrees m n k ↔ ¬ 8 ∣ k ∨ (16 ∣ m ∧ 16 ∣ n ∧ 16 ∣ k) := by
  constructor
  · intro h
    have hheuristic := (choose_agrees_iff []).mp (h.chosen [])
    by_cases hk : 8 ∣ k
    · exact Or.inr (hheuristic hk)
    · exact Or.inl hk
  · intro h
    refine ⟨gemmSpace_agrees_iff.mpr (by omega),
      fun calls => (choose_agrees_iff calls).mpr (by omega), ?_⟩
    intro type type' layout layout' schedule p hplan hkind
    exact tensorCoreRuns_iff.mpr (plan_tensorCore hplan hkind)

/-- An 8 x 16 by 16 x 1 product: the search space and the heuristic both select the tensor
cores, and the kernel throws. -/
theorem tensorCore_selected_and_refused :
    ⟨8, 2, true⟩ ∈ gemmSpace 8 1 16 ∧
    (((AutoTuner.after []).choose 8 1 16).1.useTensorCore = true) ∧
    tensorCoreCompatible [8, 16] [16, 1] 16 = false ∧
    gemmTensorcoreCheck [8, 16] [16, 1] = .error "tensorcore requires multiples of 16" ∧
    ¬ EligibilityAgrees 8 1 16 := by
  refine ⟨by decide, rfl, by decide, rfl, ?_⟩
  intro hagrees
  have hruns := hagrees.chosen [] rfl
  exact absurd hruns.1 (by decide)

end Gpuforge

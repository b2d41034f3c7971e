import Gpuforge.CallOutcome
import Mathlib.Algebra.Order.Floor.Div

/-!
# Splitting a collective over stages (`collective.hpp`, `collective.cpp`)

`OverlapPlanner::pipeline` copies a plan once for every stage and gives each copy the same
number of bytes, the rounded-up share of the payload.  Nothing cuts the last chunk at the
end of the buffer, so the chunks are the payload only when the stages divide it; and the sum
that rounds up is taken in `size_t`, where it starts over for a payload close to `2^64`.
-/

namespace Gpuforge

/-- `distributed::Collective`. -/
inductive Collective where
  | AllReduce
  | AllGather
  | ReduceScatter
  | Broadcast
  deriving DecidableEq, Repr

/-- `distributed::CommPlan`. -/
structure CommPlan where
  op : Collective
  world : Int := 1
  rank : Int := 0
  bytes : Nat := 0
  chunks : Nat := 1
  overlap : Bool := true
  algorithm : String := ""
  deriving DecidableEq, Repr

namespace OverlapPlanner

/-- `stage_count`. -/
def stageCount (stages : Int) : Nat := (max 1 stages).toNat

/-- `chunk_bytes`, in `size_t`. -/
def chunkBytes (bytes stageCount : Nat) : Nat :=
  subSize (addSize bytes stageCount) 1 / stageCount

/-- `OverlapPlanner::pipeline`. -/
def pipeline (plan : CommPlan) (computeBytes : Nat) (stages : Int) : List CommPlan :=
  let stageCount := stageCount stages
  let chunkBytes := chunkBytes plan.bytes stageCount
  let pipeline := (List.range stageCount).map fun stage =>
    { plan with
      bytes := chunkBytes
      chunks := 1
      overlap := true
      algorithm := plan.algorithm ++ "/stage" ++ toString stage }
  if plan.bytes / 2 < computeBytes then
    pipeline.map fun chunk => { chunk with overlap := false }
  else pipeline

/-- The chunks are a division of the payload: one for every stage, none above the rounded-up
share, their bytes add up to those of the plan, and laid one behind the other they stay
inside the buffer. -/
structure Conserves (plan : CommPlan) (stages : Int) (chunks : List CommPlan) : Prop where
  count : (chunks.length : Int) = max 1 stages
  share : ∀ chunk ∈ chunks, chunk.bytes ≤ plan.bytes ⌈/⌉ stageCount stages
  total : (chunks.map CommPlan.bytes).sum = plan.bytes
  inside : ∀ i, ((chunks.take i).map CommPlan.bytes).sum ≤ plan.bytes

variable {plan : CommPlan} {stages : Int}

theorem stageCount_pos (stages : Int) : 0 < stageCount stages := by
  unfold stageCount
  omega

/-- Every stage gets the same number of bytes. -/
theorem pipeline_bytes (plan : CommPlan) (computeBytes : Nat) (stages : Int) :
    (pipeline plan computeBytes stages).map CommPlan.bytes =
      List.replicate (stageCount stages) (chunkBytes plan.bytes (stageCount stages)) := by
  unfold pipeline
  split <;> simp [Function.comp_def]

theorem pipeline_length (plan : CommPlan) (computeBytes : Nat) (stages : Int) :
    (pipeline plan computeBytes stages).length = stageCount stages := by
  rw [← List.length_map CommPlan.bytes, pipeline_bytes, List.length_replicate]

/-- The bytes of all stages together. -/
theorem pipeline_total (plan : CommPlan) (computeBytes : Nat) (stages : Int) :
    ((pipeline plan computeBytes stages).map CommPlan.bytes).sum =
      stageCount stages * chunkBytes plan.bytes (stageCount stages) := by
  rw [pipeline_bytes, List.sum_replicate_nat]

/-- As long as the rounding sum fits, a chunk is the rounded-up share. -/
theorem chunkBytes_of_fits {bytes k : Nat} (hk : 0 < k) (hfits : bytes + k ≤ 2 ^ 64) :
    chunkBytes bytes k = bytes ⌈/⌉ k := by
  rw [Nat.ceilDiv_eq_add_pred_div, chunkBytes]
  congr 1
  rcases Nat.lt_or_ge (bytes + k) (2 ^ 64) with hlt | hge
  · rw [addSize_of_lt hlt, subSize_of_le (by omega) hlt]
  · -- the sum is exactly `2^64`: both operations wrap, and the second undoes the first
    have hsum : bytes + k = 2 ^ 64 := by omega
    rw [addSize, subSize, hsum, Nat.mod_self, Nat.zero_add]
    rfl

/-- Past that point the sum starts over and a chunk has no bytes. -/
theorem chunkBytes_of_wraps {bytes k : Nat} (hbytes : bytes < 2 ^ 64) (hk : k < 2 ^ 64)
    (hwraps : 2 ^ 64 < bytes + k) : chunkBytes bytes k = 0 := by
  have hsum : addSize bytes k = bytes + k - 2 ^ 64 := by
    rw [addSize, Nat.mod_eq_sub_mod (by omega), Nat.mod_eq_of_lt (by omega)]
  rw [chunkBytes, hsum, subSize_of_le (by omega) (by omega)]
  exact Nat.div_eq_of_lt (by omega)

/-- Equal rounded-up shares are the whole exactly when they are not rounded. -/
theorem mul_ceilDiv_eq_iff {n k : Nat} (hk : 0 < k) : k * (n ⌈/⌉ k) = n ↔ k ∣ n := by
  constructor
  · exact fun h => ⟨_, h.symm⟩
  · intro hdvd
    obtain ⟨q, rfl⟩ := hdvd
    have hexact : (k * q + k - 1) / k = q := by
      rw [Nat.div_eq_iff hk, Nat.mul_comm q k]
      omega
    rw [Nat.ceilDiv_eq_add_pred_div, hexact]

/-- No chunk is above the rounded-up share. -/
theorem chunkBytes_le {bytes k : Nat} (hk : 0 < k) (hbytes : bytes < 2 ^ 64)
    (hsmall : k < 2 ^ 64) : chunkBytes bytes k ≤ bytes ⌈/⌉ k := by
  rcases Nat.lt_or_ge (2 ^ 64) (bytes + k) with hwraps | hfits
  · rw [chunkBytes_of_wraps hbytes hsmall hwraps]
    exact Nat.zero_le _
  · exact le_of_eq (chunkBytes_of_fits hk hfits)

/-- **The stages conserve the payload exactly when they divide it and the rounding sum
fits.**  Otherwise the chunks run past the end of the buffer, or, where the sum starts
over, none of them has a byte. -/
theorem pipeline_conserves_iff (hbytes : plan.bytes < 2 ^ 64) (hstages : stages < 2 ^ 31)
    (computeBytes : Nat) :
    Conserves plan stages (pipeline plan computeBytes stages) ↔
      stageCount stages ∣ plan.bytes ∧ plan.bytes + stageCount stages ≤ 2 ^ 64 := by
  have hk := stageCount_pos stages
  have hcount : (stageCount stages : Int) = max 1 stages := by
    unfold stageCount
    omega
  have hsmall : stageCount stages < 2 ^ 64 := by omega
  constructor
  · intro h
    have htotal := h.total
    rw [pipeline_total] at htotal
    rcases Nat.lt_or_ge (2 ^ 64) (plan.bytes + stageCount stages) with hwraps | hfits
    · rw [chunkBytes_of_wraps hbytes hsmall hwraps] at htotal
      omega
    · rw [chunkBytes_of_fits hk hfits] at htotal
      exact ⟨(mul_ceilDiv_eq_iff hk).mp htotal, hfits⟩
  · intro h
    obtain ⟨hdvd, hfits⟩ := h
    have htotal : ((pipeline plan computeBytes stages).map CommPlan.bytes).sum = plan.bytes := by
      rw [pipeline_total, chunkBytes_of_fits hk hfits, mul_ceilDiv_eq_iff hk]
      exact hdvd
    refine ⟨by rw [pipeline_length, hcount], ?_, htotal, ?_⟩
    · intro chunk hchunk
      have hmem : chunk.bytes ∈ (pipeline plan computeBytes stages).map CommPlan.bytes :=
        List.mem_map_of_mem hchunk
      rw [pipeline_bytes] at hmem
      rw [List.eq_of_mem_replicate hmem]
      exact chunkBytes_le hk hbytes hsmall
    · intro i
      rw [← htotal, List.map_take, pipeline_bytes, List.take_replicate, List.sum_replicate_nat,
        List.sum_replicate_nat]
      exact Nat.mul_le_mul_right _ (Nat.min_le_right i _)

/-- Six bytes over three stages. -/
theorem pipeline_conserves_iff_example :
    Conserves ⟨.AllReduce, 4, 0, 6, 1, true, "ring"⟩ 3
      (pipeline ⟨.AllReduce, 4, 0, 6, 1, true, "ring"⟩ 0 3) :=
  (pipeline_conserves_iff (by decide) (by decide) 0).mpr (by decide)

/-- Ten bytes over four stages: four chunks of three bytes. -/
theorem pipeline_runs_past_end :
    ((pipeline ⟨.AllReduce, 4, 0, 10, 1, true, "ring"⟩ 0 4).map CommPlan.bytes).sum = 12 ∧
    ¬ Conserves ⟨.AllReduce, 4, 0, 10, 1, true, "ring"⟩ 4
      (pipeline ⟨.AllReduce, 4, 0, 10, 1, true, "ring"⟩ 0 4) := by
  have hsum : ((pipeline ⟨.AllReduce, 4, 0, 10, 1, true, "ring"⟩ 0 4).map
      CommPlan.bytes).sum = 12 := by
    decide +kernel
  refine ⟨hsum, fun h => ?_⟩
  have htotal := hsum.symm.trans h.total
  exact absurd htotal (by decide)

end OverlapPlanner

end Gpuforge

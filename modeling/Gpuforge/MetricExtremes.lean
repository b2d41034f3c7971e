import Gpuforge.MetricsMerging
import Gpuforge.RunningExtremes

/-!
# The extremes of a metric (`telemetry.hpp`, `telemetry.cpp`)

`MetricSummary` starts its minimum at `1e30` and its maximum at 0, and every value and every
merged summary is compared with what is there.  The starts stay in the comparison for good,
so the minimum is the least value only when some value is at most `1e30`, and the maximum is
the greatest only when some value is not negative.

A second condition comes from `merge`, which skips a summary whose count is 0.  The count is
a `size_t`: after `2^64` observations it is 0 again, and a merge of that object loses them
(`History.kept`).  Such values must not be the extremes.
-/

namespace Gpuforge

open ReplicaMerging RunningExtremes

/-- How a `Metrics` object came about: by observations, and by merges of objects with a
history of their own. -/
inductive History (δ : Type) where
  | fresh
  | observe (before : History δ) (event : String × δ)
  | merge (before copy : History δ)

namespace History

variable {δ : Type}

/-- All observations, directly or through merges. -/
def log : History δ → List (String × δ)
  | fresh => []
  | observe before event => before.log ++ [event]
  | merge before copy => before.log ++ copy.log

/-- The values under a name that the object has compared: a merge takes none of a copy
whose count is 0, also when that count has come back to 0. -/
def kept (name : String) : History δ → List δ
  | fresh => []
  | observe before event => before.kept name ++ valuesOf name [event]
  | merge before copy =>
      if (copy.kept name).length % 2 ^ 64 = 0 then before.kept name
      else before.kept name ++ copy.kept name

/-- The values kept are values of the log. -/
theorem kept_subset (name : String) (h : History δ) : h.kept name ⊆ valuesOf name h.log := by
  induction h with
  | fresh => exact List.Subset.refl _
  | observe before event ih =>
      rw [kept, log, valuesOf_append]
      exact List.append_subset.mpr ⟨List.subset_append_of_subset_left _ ih,
        List.subset_append_right _ _⟩
  | merge before copy ihbefore ihcopy =>
      rw [kept, log, valuesOf_append]
      split
      · exact List.subset_append_of_subset_left _ ihbefore
      · exact List.append_subset.mpr ⟨List.subset_append_of_subset_left _ ihbefore,
          List.subset_append_of_subset_right _ ihcopy⟩

/-- With fewer than `2^64` observations all values are kept. -/
theorem kept_of_length {h : History δ} (hfew : h.log.length < 2 ^ 64) (name : String) :
    h.kept name = valuesOf name h.log := by
  induction h with
  | fresh => rfl
  | observe before event ih =>
      rw [log, List.length_append] at hfew
      rw [kept, log, valuesOf_append, ih (by omega)]
  | merge before copy ihbefore ihcopy =>
      rw [log, List.length_append] at hfew
      have hlen : (valuesOf name copy.log).length < 2 ^ 64 :=
        countsFit_of_length (by omega) name
      rw [kept, log, valuesOf_append, ihbefore (by omega), ihcopy (by omega),
        Nat.mod_eq_of_lt hlen]
      split
      · next hnone => rw [List.eq_nil_of_length_eq_zero hnone, List.append_nil]
      · rfl

/-- Histories take events and merges as objects do. -/
def rules : Rules (String × δ) (History δ) := ⟨observe, merge⟩

variable [AddCommMonoidWithOne δ] [LinearOrder δ]

/-- The object with this history. -/
def metrics : History δ → Metrics δ
  | fresh => {}
  | observe before event => before.metrics.observe event
  | merge before copy => before.metrics.fold copy.metrics

/-- The object summarizes the values it has kept. -/
theorem summary_metrics (h : History δ) (name : String) :
    h.metrics.summary name = summaryOf (h.kept name) := by
  induction h with
  | fresh => rfl
  | observe before event ih =>
      rw [metrics, Metrics.summary_observe, ih, kept, valuesOf_singleton]
      split
      · exact (summaryOf_concat _ _).symm
      · rw [List.append_nil]
  | merge before copy ihbefore ihcopy =>
      rw [metrics, Metrics.summary_fold, ihbefore, ihcopy, summaryOf_count, kept]
      split
      · rfl
      · exact (summaryOf_append _ _).symm

end History

section extremes

variable {δ : Type} [AddCommMonoidWithOne δ] [LinearOrder δ]

/-- The extremes of a summary run from their starts. -/
theorem summaryOf_extremes (values : List δ) :
    (summaryOf values).min = values.foldl min (minimumStart : δ) ∧
      (summaryOf values).max = values.foldl max 0 := by
  induction values using List.reverseRecOn with
  | nil => exact ⟨rfl, rfl⟩
  | append_singleton values v ih =>
      rw [summaryOf_concat, List.foldl_append, List.foldl_append, ← ih.1, ← ih.2]
      exact ⟨rfl, rfl⟩

/-- The extremes of an object with this history. -/
theorem History.extremes_iff (h : History δ) (name : String) :
    (IsLeast {v | v ∈ valuesOf name h.log} (h.metrics.summary name).min ↔
      (∃ v ∈ valuesOf name h.log, v ≤ (minimumStart : δ)) ∧
        ∀ v ∈ valuesOf name h.log, (minimumStart : δ) ≤ v ∨ ∃ u ∈ h.kept name, u ≤ v) ∧
    (IsGreatest {v | v ∈ valuesOf name h.log} (h.metrics.summary name).max ↔
      (∃ v ∈ valuesOf name h.log, 0 ≤ v) ∧
        ∀ v ∈ valuesOf name h.log, v ≤ 0 ∨ ∃ u ∈ h.kept name, v ≤ u) := by
  have hsub : {v | v ∈ h.kept name} ⊆ {v | v ∈ valuesOf name h.log} :=
    fun _ hmem => h.kept_subset name hmem
  rw [h.summary_metrics, (summaryOf_extremes _).1, (summaryOf_extremes _).2]
  exact ⟨isLeast_iff_of_insert hsub (foldl_min_isLeast _ _),
    isGreatest_iff_of_insert hsub (foldl_max_isGreatest _ _)⟩

/-- **The extremes of a metric are the true ones exactly when the starts do not show.**
After every run of observations and halves of merges on fresh objects, every object has a
history of its own calls.  Under every name the minimum is the least of all values exactly
when one of them is at most `1e30` and each is at least `1e30` or not below one that no merge
has lost, and the maximum is the greatest exactly when one of them is not negative and each
is not positive or not above one that no merge has lost. -/
theorem metric_extremes_iff {ι : Type} [DecidableEq ι] (calls : List (Call ι (String × δ)))
    {s : Replicas ι (Metrics δ)} (hrun : Metrics.rules.run ⟨fun _ => {}, []⟩ calls = some s) :
    ∃ t, History.rules.run ⟨fun _ => .fresh, []⟩ calls = some t ∧
      ∀ i name,
        (IsLeast {v | v ∈ valuesOf name (t.objects i).log} ((s.objects i).summary name).min ↔
          (∃ v ∈ valuesOf name (t.objects i).log, v ≤ (minimumStart : δ)) ∧
            ∀ v ∈ valuesOf name (t.objects i).log,
              (minimumStart : δ) ≤ v ∨ ∃ u ∈ (t.objects i).kept name, u ≤ v) ∧
        (IsGreatest {v | v ∈ valuesOf name (t.objects i).log} ((s.objects i).summary name).max ↔
          (∃ v ∈ valuesOf name (t.objects i).log, 0 ≤ v) ∧
            ∀ v ∈ valuesOf name (t.objects i).log,
              v ≤ 0 ∨ ∃ u ∈ (t.objects i).kept name, v ≤ u) := by
  let Same : Metrics δ → History δ → Prop := fun m h => m = h.metrics
  have hstart : Related Same (⟨fun _ : ι => {}, []⟩ : Replicas ι (Metrics δ))
      ⟨fun _ => .fresh, []⟩ := ⟨fun _ => rfl, .nil⟩
  have hobserve : ∀ m h event, Same m h → Same (m.observe event) (.observe h event) :=
    fun _ _ _ heq => heq ▸ rfl
  have hfold : ∀ m h m' h', Same m h → Same m' h' → Same (m.fold m') (.merge h h') :=
    fun _ _ _ _ heq heq' => heq ▸ heq' ▸ rfl
  obtain ⟨t, ht, hrelated⟩ := run_related (q := History.rules) hobserve hfold hstart hrun
  refine ⟨t, ht, fun i name => ?_⟩
  rw [hrelated.objects i]
  exact (t.objects i).extremes_iff name

end extremes

/-- One object observes -3 and 5, a second one merges it. -/
theorem metric_extremes_iff_example :
    let calls : List (Call Bool (String × Int)) :=
      [.observe false ("x", -3), .observe false ("x", 5), .copy true false, .fold 0]
    ∃ s, Metrics.rules.run ⟨fun _ => {}, []⟩ calls = some s ∧
      IsLeast {v | v ∈ [-3, 5]} ((s.objects true).summary "x").min ∧
      IsGreatest {v | v ∈ [-3, 5]} ((s.objects true).summary "x").max := by
  intro calls
  refine ⟨_, rfl, ?_⟩
  obtain ⟨t, ht, hall⟩ := metric_extremes_iff calls rfl
  cases ht
  let first : History Int := .observe (.observe .fresh ("x", -3)) ("x", 5)
  have hfew : (History.merge .fresh first).log.length < 2 ^ 64 := show 2 < 2 ^ 64 by omega
  have hkept : (History.merge .fresh first).kept "x" = [-3, 5] :=
    History.kept_of_length hfew "x"
  have hboth := hall true "x"
  refine ⟨hboth.1.mpr ⟨⟨-3, by decide, by decide⟩, fun v hv => Or.inr ?_⟩,
    hboth.2.mpr ⟨⟨5, by decide, by decide⟩, fun v hv => Or.inr ?_⟩⟩
  · exact ⟨v, hkept ▸ hv, le_refl v⟩
  · exact ⟨v, hkept ▸ hv, le_refl v⟩

/-- An object whose only value is -1 reports 0 as its maximum. -/
theorem negative_maximum_lost :
    let calls : List (Call Unit (String × Int)) := [.observe () ("x", -1)]
    ∃ s, Metrics.rules.run ⟨fun _ => {}, []⟩ calls = some s ∧
      ((s.objects ()).summary "x").max = 0 ∧
      ¬ IsGreatest {v | v ∈ [-1]} ((s.objects ()).summary "x").max := by
  intro calls
  refine ⟨_, rfl, rfl, fun hgreatest => ?_⟩
  exact absurd hgreatest.1 (by decide)

end Gpuforge

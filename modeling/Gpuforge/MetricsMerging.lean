import Mathlib.Algebra.Order.Ring.Int
import Mathlib.Data.List.AList
import Mathlib.Data.List.Induction
import Mathlib.Data.List.Perm.Basic
import Mathlib.Data.Nat.Cast.Defs
import Mathlib.Order.MinMax
import Gpuforge.CallOutcome
import Gpuforge.ReplicaMerging

/-!
# Metrics (`telemetry.hpp`, `telemetry.cpp`)

A `Metrics` object keeps a count, a sum, a minimum and a maximum under each name.
`observe` adds a value.  `merge` copies the table of another object under that object's
lock, and folds the copy into its own table under its own lock, so the two halves are
two steps and other calls may come between them.

Values are exact: any type with addition and a linear order.  The specification of an
object is its log, the list of the observations it accounts for; a fold appends the
log of the copy.  The summaries of every object are those of a fresh object that
observes the log, in any order (`metrics_merge_exact`).
-/

namespace Gpuforge

open ReplicaMerging

/-- Count, sum and extremes of the values under a name. -/
structure MetricSummary (δ : Type) where
  count : Nat
  sum : δ
  min : δ
  max : δ
  deriving DecidableEq, Repr

/-- A table of summaries. -/
structure Metrics (δ : Type) where
  data : AList fun _ : String => MetricSummary δ := ∅

/-! ## Logs -/

section logs

variable {δ : Type}

/-- The specification: an object is the list of the observations it accounts for. -/
def logRules : Rules (String × δ) (List (String × δ)) :=
  ⟨fun log event => log ++ [event], fun log copy => log ++ copy⟩

/-- The values that a log has under a name. -/
def valuesOf (name : String) (log : List (String × δ)) : List δ :=
  (log.filter fun event => event.1 = name).map Prod.snd

/-- No count of the log reaches `2^64`. -/
def CountsFit (log : List (String × δ)) : Prop :=
  ∀ name, (valuesOf name log).length < 2 ^ 64

/-- The values of two logs. -/
theorem valuesOf_append (name : String) (log log' : List (String × δ)) :
    valuesOf name (log ++ log') = valuesOf name log ++ valuesOf name log' := by
  rw [valuesOf, List.filter_append, List.map_append]
  rfl

/-- The values of one observation. -/
theorem valuesOf_singleton (name : String) (event : String × δ) :
    valuesOf name [event] = if event.1 = name then [event.2] else [] := by
  unfold valuesOf
  by_cases hname : event.1 = name <;> simp [hname]

/-- The parts of a log that fits do. -/
theorem countsFit_append {log log' : List (String × δ)} (h : CountsFit (log ++ log')) :
    CountsFit log ∧ CountsFit log' := by
  constructor <;>
  · intro name
    have hname := h name
    rw [valuesOf_append, List.length_append] at hname
    omega

/-- A log of less than `2^64` observations fits. -/
theorem countsFit_of_length {log : List (String × δ)} (h : log.length < 2 ^ 64) :
    CountsFit log := by
  intro name
  rw [valuesOf, List.length_map]
  exact Nat.lt_of_le_of_lt (List.length_filter_le _ _) h

end logs

/-! ## Tables of summaries -/

/-- The value of the literal `1e30`: the double nearest to it has 53 bits of mantissa and is
not `10 ^ 30`. -/
def minimumStart : Nat := 1000000000000000019884624838656

example : minimumStart = 7105427357601002 * 2 ^ 47 ∧ 2 ^ 52 ≤ 7105427357601002 ∧
    7105427357601002 < 2 ^ 53 ∧ 2 * (minimumStart - 10 ^ 30) < 2 ^ 47 := by
  decide

section model

variable {δ : Type} [AddCommMonoidWithOne δ] [LinearOrder δ]

namespace MetricSummary

/-- `MetricSummary{}`. -/
def initial : MetricSummary δ :=
  { count := 0, sum := 0, min := (minimumStart : δ), max := 0 }

def observe (summary : MetricSummary δ) (value : δ) : MetricSummary δ :=
  { count := addSize summary.count 1
    sum := summary.sum + value
    min := Min.min summary.min value
    max := Max.max summary.max value }

/-- The body of the loop of `merge`, for a name with observations. -/
def merge (current incoming : MetricSummary δ) : MetricSummary δ :=
  { count := addSize current.count incoming.count
    sum := current.sum + incoming.sum
    min := Min.min current.min incoming.min
    max := Max.max current.max incoming.max }

end MetricSummary

namespace Metrics

/-- A missing name has the initial summary. -/
def summary (m : Metrics δ) (name : String) : MetricSummary δ :=
  (m.data.lookup name).getD .initial

def observe (m : Metrics δ) (event : String × δ) : Metrics δ :=
  ⟨m.data.insert event.1 ((m.summary event.1).observe event.2)⟩

/-- The body of the loop of `merge`: `data_[name]` makes an entry, and a summary
without observations changes nothing more. -/
def foldEntry (m : Metrics δ) (name : String) (incoming : MetricSummary δ) : Metrics δ :=
  let current := m.summary name
  ⟨m.data.insert name (if incoming.count = 0 then current else current.merge incoming)⟩

/-- The second half of `merge`, over the entries of the snapshot. -/
def fold (m snapshot : Metrics δ) : Metrics δ :=
  snapshot.data.entries.foldl (fun m entry => m.foldEntry entry.1 entry.2) m

/-- `observe` and the halves of `merge`. -/
def rules : Rules (String × δ) (Metrics δ) := ⟨observe, fold⟩

end Metrics

/-- The summary of values in order. -/
def summaryOf (values : List δ) : MetricSummary δ := values.foldl MetricSummary.observe .initial

/-! ## Summaries -/

namespace MetricSummary

variable {s t : MetricSummary δ}

/-- Sums in `size_t` are associative. -/
theorem addSize_assoc (a b c : Nat) : addSize (addSize a b) c = addSize a (addSize b c) := by
  unfold addSize
  omega

/-- The order of two observations does not matter. -/
instance : RightCommutative (observe (δ := δ)) where
  right_comm s v w := by
    simp only [observe, add_right_comm, min_right_comm, max_right_comm]

/-- An observation after a merge may be made before it, on the other side. -/
theorem merge_observe (s t : MetricSummary δ) (v : δ) :
    (s.merge t).observe v = s.merge (t.observe v) := by
  simp only [merge, observe, addSize_assoc, add_assoc, min_assoc, max_assoc]

/-- What holds of a summary of values: the count is a `size_t` and the extremes are
beyond their starts. -/
structure Started (s : MetricSummary δ) : Prop where
  count : s.count < 2 ^ 64
  min : s.min ≤ (minimumStart : δ)
  max : 0 ≤ s.max

/-- Observations keep a summary started. -/
theorem Started.observe (h : s.Started) (v : δ) : (s.observe v).Started where
  count := by
    simp only [MetricSummary.observe, addSize]
    omega
  min := (min_le_left _ _).trans h.min
  max := h.max.trans (le_max_left _ _)

/-- The initial summary is neutral. -/
theorem Started.merge_initial (h : s.Started) : s.merge .initial = s := by
  have hcount : addSize s.count 0 = s.count := addSize_of_lt h.count
  simp only [merge, initial, hcount, add_zero, min_eq_left h.min, max_eq_left h.max]

end MetricSummary

open MetricSummary

/-- One value more. -/
theorem summaryOf_concat (values : List δ) (v : δ) :
    summaryOf (values ++ [v]) = (summaryOf values).observe v := by
  rw [summaryOf, List.foldl_append]
  rfl

/-- Summaries of values are started. -/
theorem summaryOf_started (values : List δ) : (summaryOf values).Started := by
  induction values using List.reverseRecOn with
  | nil => exact ⟨Nat.two_pow_pos 64, le_refl _, le_refl _⟩
  | append_singleton values v ih =>
      rw [summaryOf_concat]
      exact ih.observe v

/-- **A summary of two lists is the merge of the two summaries.** -/
theorem summaryOf_append (values more : List δ) :
    summaryOf (values ++ more) = (summaryOf values).merge (summaryOf more) := by
  induction more using List.reverseRecOn with
  | nil =>
      rw [List.append_nil]
      exact (summaryOf_started values).merge_initial.symm
  | append_singleton more v ih =>
      rw [← List.append_assoc, summaryOf_concat, ih, summaryOf_concat, merge_observe]

/-- The count of a summary. -/
theorem summaryOf_count (values : List δ) :
    (summaryOf values).count = values.length % 2 ^ 64 := by
  induction values using List.reverseRecOn with
  | nil => rfl
  | append_singleton values v ih =>
      rw [summaryOf_concat, List.length_append, List.length_singleton]
      show addSize (summaryOf values).count 1 = _
      rw [ih, addSize]
      omega

/-- Summaries do not depend on the order of the values. -/
theorem summaryOf_perm {values values' : List δ} (h : values.Perm values') :
    summaryOf values = summaryOf values' :=
  h.foldl_eq _

/-! ## Tables -/

namespace Metrics

variable {m : Metrics δ}

/-- An observation changes the summary of its name. -/
theorem summary_observe (m : Metrics δ) (event : String × δ) (name : String) :
    (m.observe event).summary name =
      if event.1 = name then (m.summary name).observe event.2 else m.summary name := by
  by_cases hname : event.1 = name
  · subst hname
    rw [if_pos rfl, summary, observe, AList.lookup_insert, Option.getD_some]
  · rw [if_neg hname, summary, observe, AList.lookup_insert_ne (Ne.symm hname), ← summary]

/-- An entry of a snapshot changes the summary of its name. -/
theorem summary_foldEntry (m : Metrics δ) (key name : String) (incoming : MetricSummary δ) :
    (m.foldEntry key incoming).summary name =
      if key = name ∧ incoming.count ≠ 0 then (m.summary name).merge incoming
      else m.summary name := by
  by_cases hname : key = name
  · subst hname
    simp only [summary, foldEntry, AList.lookup_insert, Option.getD_some, true_and, ite_not]
  · rw [if_neg fun h => hname h.1, summary, foldEntry, AList.lookup_insert_ne (Ne.symm hname),
      ← summary]

/-- The loop over a snapshot without two entries of one name. -/
theorem summary_foldl (name : String) (entries : List (Sigma fun _ : String => MetricSummary δ))
    (hkeys : entries.NodupKeys) : ∀ m : Metrics δ,
      (entries.foldl (fun m entry => m.foldEntry entry.1 entry.2) m).summary name =
        if ((entries.dlookup name).getD .initial).count = 0 then m.summary name
        else (m.summary name).merge ((entries.dlookup name).getD .initial) := by
  induction entries with
  | nil => exact fun m => (if_pos rfl).symm
  | cons entry rest ih =>
      intro m
      obtain ⟨key, incoming⟩ := entry
      rw [List.nodupKeys_cons] at hkeys
      rw [List.foldl_cons, ih hkeys.2, summary_foldEntry]
      by_cases hname : key = name
      · subst hname
        have hnone : rest.dlookup key = none := List.dlookup_eq_none.mpr hkeys.1
        have hinitial : (initial (δ := δ)).count = 0 := rfl
        rw [hnone, List.dlookup_cons_eq, Option.getD_none, Option.getD_some, if_pos hinitial]
        by_cases hcount : incoming.count = 0
        · rw [if_pos hcount, if_neg fun h => h.2 hcount]
        · rw [if_neg hcount, if_pos ⟨rfl, hcount⟩]
      · have hother : ¬ (key = name ∧ incoming.count ≠ 0) := fun h => hname h.1
        rw [List.dlookup_cons_ne _ _ (Ne.symm hname), if_neg hother]

/-- The second half of a merge, name by name. -/
theorem summary_fold (m snapshot : Metrics δ) (name : String) :
    (m.fold snapshot).summary name =
      if (snapshot.summary name).count = 0 then m.summary name
      else (m.summary name).merge (snapshot.summary name) :=
  summary_foldl name _ snapshot.data.nodupKeys m

end Metrics

/-! ## Objects and their logs -/

/-- The summary of a log with one more observation. -/
theorem summaryOf_values_concat (name : String) (log : List (String × δ)) (event : String × δ) :
    summaryOf (valuesOf name (log ++ [event])) =
      if event.1 = name then (summaryOf (valuesOf name log)).observe event.2
      else summaryOf (valuesOf name log) := by
  rw [valuesOf_append, valuesOf_singleton]
  split
  · exact summaryOf_concat _ _
  · rw [List.append_nil]

/-- A fresh object summarizes what it observes. -/
theorem summary_observed (obs : List (String × δ)) (name : String) :
    (obs.foldl Metrics.observe {}).summary name = summaryOf (valuesOf name obs) := by
  induction obs using List.reverseRecOn with
  | nil => rfl
  | append_singleton obs event ih =>
      rw [List.foldl_append, List.foldl_cons, List.foldl_nil, Metrics.summary_observe, ih,
        summaryOf_values_concat]

/-- An object summarizes its log, as long as no count overflows. -/
def Summarizes (m : Metrics δ) (log : List (String × δ)) : Prop :=
  CountsFit log → ∀ name, m.summary name = summaryOf (valuesOf name log)

/-- An observation is summarized. -/
theorem summarizes_observe (m : Metrics δ) (log : List (String × δ)) (event : String × δ)
    (h : Summarizes m log) : Summarizes (m.observe event) (log ++ [event]) := by
  intro hfit name
  rw [Metrics.summary_observe, h (countsFit_append hfit).1 name, summaryOf_values_concat]

/-- A fold summarizes both logs. -/
theorem summarizes_fold (m : Metrics δ) (log : List (String × δ)) (copy : Metrics δ)
    (log' : List (String × δ)) (h : Summarizes m log) (hcopy : Summarizes copy log') :
    Summarizes (m.fold copy) (log ++ log') := by
  intro hfit name
  obtain ⟨hlog, hlog'⟩ := countsFit_append hfit
  rw [Metrics.summary_fold, h hlog name, hcopy hlog' name, summaryOf_count,
    Nat.mod_eq_of_lt (hlog' name), valuesOf_append, summaryOf_append]
  split
  · next hnone =>
      rw [List.eq_nil_of_length_eq_zero hnone]
      exact (summaryOf_started _).merge_initial.symm
  · rfl

/-- **Merging metrics is observing in one place.**  After every run of observations and
halves of merges on fresh objects, an object whose counts fit has, under every name,
the summary of a fresh object that observes its log in any order.  The log is made of
the object's own observations and, for each fold, of the log that the source had at the
copy. -/
theorem metrics_merge_exact {ι : Type} [DecidableEq ι] (calls : List (Call ι (String × δ)))
    {s : Replicas ι (Metrics δ)} (hrun : Metrics.rules.run ⟨fun _ => {}, []⟩ calls = some s) :
    ∃ t, logRules.run ⟨fun _ => [], []⟩ calls = some t ∧
      ∀ i, CountsFit (t.objects i) → ∀ obs : List (String × δ), obs.Perm (t.objects i) → ∀ name,
        (s.objects i).summary name = (obs.foldl Metrics.observe {}).summary name := by
  have hstart : Related Summarizes (⟨fun _ : ι => {}, []⟩ : Replicas ι (Metrics δ))
      ⟨fun _ => [], []⟩ := ⟨fun _ _ _ => rfl, .nil⟩
  obtain ⟨t, ht, hrelated⟩ := run_related (q := logRules) summarizes_observe summarizes_fold
    hstart hrun
  refine ⟨t, ht, ?_⟩
  intro i hfit obs hperm name
  rw [summary_observed, hrelated.objects i hfit name]
  exact summaryOf_perm ((hperm.symm.filter _).map _)

end model

/-- A merge with an observation of the target between its halves. -/
theorem metrics_merge_exact_example :
    let calls : List (Call Bool (String × Int)) :=
      [.observe false ("latency", 2), .observe true ("latency", 4), .copy false true,
        .observe false ("latency", 6), .fold 0]
    ∃ s, Metrics.rules.run ⟨fun _ => {}, []⟩ calls = some s ∧
      (s.objects false).summary "latency" =
        ([("latency", 6), ("latency", 4), ("latency", 2)].foldl Metrics.observe {}).summary
          "latency" := by
  intro calls
  refine ⟨_, rfl, ?_⟩
  obtain ⟨t, ht, hall⟩ := metrics_merge_exact calls rfl
  cases ht
  exact hall false (countsFit_of_length (show 3 < 2 ^ 64 by omega)) _ (by decide) "latency"

end Gpuforge

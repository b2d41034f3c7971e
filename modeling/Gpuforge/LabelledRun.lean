/-!
# Runs of a labelled transition system

A run is a finite sequence of labelled steps, extended at its end: the last
label is the latest event, so a prefix of the label list is an earlier moment
of the same run.  Nothing is assumed of the step relation; interleavings of
several parties are runs of the relation that lets any party move.
-/

namespace LabelledRun

universe u v

variable {σ : Type u} {α : Type v}

/-- `Run step first labels last`: the labels lead from `first` to `last`. -/
inductive Run (step : σ → α → σ → Prop) (first : σ) : List α → σ → Prop
  | start : Run step first [] first
  | extend {labels : List α} {s t : σ} {a : α}
      (before : Run step first labels s) (last : step s a t) :
      Run step first (labels ++ [a]) t

variable {step : σ → α → σ → Prop} {first s t : σ} {labels : List α}

/-- **Invariant rule.**  What holds at the start and survives every step holds
after every run. -/
theorem Run.invariant (inv : σ → Prop) (hfirst : inv first)
    (hstep : ∀ s a t, inv s → step s a t → inv t)
    (hrun : Run step first labels s) : inv s := by
  induction hrun with
  | start => exact hfirst
  | extend _ last ih => exact hstep _ _ _ ih last

/-- The invariant rule for runs of certain labels. -/
theorem Run.invariant_on (allowed : α → Prop) (inv : σ → Prop) (hfirst : inv first)
    (hstep : ∀ s a t, allowed a → inv s → step s a t → inv t)
    (hrun : Run step first labels s) (hlabels : ∀ a ∈ labels, allowed a) : inv s := by
  induction hrun with
  | start => exact hfirst
  | extend _ last ih =>
      obtain ⟨hbefore, hlast⟩ := List.forall_mem_append.mp hlabels
      exact hstep _ _ _ (hlast _ (List.mem_singleton_self _)) (ih hbefore) last

/-- A weaker step relation has more runs. -/
theorem Run.mono {step' : σ → α → σ → Prop}
    (hstep : ∀ s a t, step s a t → step' s a t)
    (hrun : Run step first labels s) : Run step' first labels s := by
  induction hrun with
  | start => exact .start
  | extend _ last ih => exact .extend ih (hstep _ _ _ last)

/-- Runs compose. -/
theorem Run.trans {later : List α}
    (hleft : Run step first labels s) (hright : Run step s later t) :
    Run step first (labels ++ later) t := by
  induction hright with
  | start => simpa using hleft
  | extend _ last ih =>
      rw [← List.append_assoc]
      exact .extend ih last

/-- A run of one label is one step. -/
theorem Run.single {a : α} (h : step first a s) : Run step first [a] s :=
  .extend .start h

/-- Where an invariant lets every label through, all sequences of labels are runs. -/
theorem Run.exists_of_total (inv : σ → Prop)
    (hstep : ∀ s a t, inv s → step s a t → inv t)
    (htotal : ∀ s a, inv s → ∃ t, step s a t) (labels : List α) {s : σ} (hs : inv s) :
    ∃ t, Run step s labels t := by
  induction labels generalizing s with
  | nil => exact ⟨s, .start⟩
  | cons a labels ih =>
      obtain ⟨t, hnext⟩ := htotal s a hs
      obtain ⟨u, hrest⟩ := ih (hstep _ _ _ hs hnext)
      exact ⟨u, (Run.single hnext).trans hrest⟩

/-- Every split of the labels is an intermediate state of the run. -/
theorem Run.split {later : List α} (hrun : Run step first (labels ++ later) t) :
    ∃ s, Run step first labels s ∧ Run step s later t := by
  generalize hall : labels ++ later = all at hrun
  induction hrun generalizing later with
  | start =>
      obtain ⟨rfl, rfl⟩ := List.append_eq_nil_iff.mp hall
      exact ⟨first, .start, .start⟩
  | @extend before u t a hbefore hlast ih =>
      rcases List.eq_nil_or_concat later with rfl | ⟨init, b, rfl⟩
      · rw [List.append_nil] at hall
        exact ⟨t, hall ▸ .extend hbefore hlast, .start⟩
      · rw [List.concat_eq_append, ← List.append_assoc] at hall
        obtain ⟨hinit, hb⟩ := List.append_inj' hall rfl
        obtain ⟨s, hs, hrest⟩ := ih hinit
        cases hb
        exact ⟨s, hs, List.concat_eq_append ▸ .extend hrest hlast⟩

/-- A run of no label stays. -/
theorem Run.nil_inv (hrun : Run step first [] t) : t = first := by
  generalize hnil : ([] : List α) = labels at hrun
  cases hrun with
  | start => rfl
  | extend _ _ => exact absurd hnil.symm (List.append_ne_nil_of_right_ne_nil _ (by simp))

/-- The last step of a run. -/
theorem Run.last_inv {a : α} (hrun : Run step first (labels ++ [a]) t) :
    ∃ s, Run step first labels s ∧ step s a t := by
  generalize hall : labels ++ [a] = all at hrun
  cases hrun with
  | start => exact absurd hall (List.append_ne_nil_of_right_ne_nil _ (by simp))
  | extend before last =>
      obtain ⟨rfl, ha⟩ := List.append_inj' hall rfl
      cases ha
      exact ⟨_, before, last⟩

/-- The first step of a run. -/
theorem Run.first_inv {a : α} (hrun : Run step first (a :: labels) t) :
    ∃ s, step first a s ∧ Run step s labels t := by
  have hsplit : Run step first ([a] ++ labels) t := hrun
  obtain ⟨s, hfirst, hrest⟩ := hsplit.split
  have hlast : Run step first ([] ++ [a]) s := hfirst
  obtain ⟨s', hnil, hstep⟩ := hlast.last_inv
  exact ⟨s, hnil.nil_inv ▸ hstep, hrest⟩

end LabelledRun

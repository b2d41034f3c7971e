import Mathlib.Data.List.Forall2
import Mathlib.Logic.Function.Basic

/-!
# Replicas that merge in two halves

A family of replicas takes events and merges.  A merge first takes a copy of its
source and later folds the copy into its target; between the two halves anything may
happen, also to the target and to the source.  Whoever merges, the copies that wait are
a list, and any of them may be the next to be folded.

What a replica is and how it takes events and copies are parameters, so a program and
its specification are two instances that make the same calls, and a relation that
survives events and folds survives every run (`run_related`).
-/

namespace ReplicaMerging

universe u v w

variable {ι : Type u} {ε : Type v} {A B : Type w}

/-- The replicas, and the copies on their way with their targets. -/
structure Replicas (ι : Type u) (A : Type w) where
  objects : ι → A
  copies : List (ι × A) := []

/-- How replicas take events and fold copies. -/
structure Rules (ε : Type v) (A : Type w) where
  observe : A → ε → A
  fold : A → A → A

inductive Call (ι : Type u) (ε : Type v) where
  | observe (i : ι) (event : ε)
  /-- The first half of a merge of `source` into `target`. -/
  | copy (target source : ι)
  /-- The second half, for the copy at a place of the list. -/
  | fold (place : Nat)

variable [DecidableEq ι]

/-- One call.  A merge of a replica into itself does nothing; `none` is a second half
without a first one. -/
def Rules.step (r : Rules ε A) (s : Replicas ι A) : Call ι ε → Option (Replicas ι A)
  | .observe i event =>
      some { s with objects := Function.update s.objects i (r.observe (s.objects i) event) }
  | .copy target source =>
      if target = source then some s
      else some { s with copies := s.copies ++ [(target, s.objects source)] }
  | .fold place =>
      (s.copies[place]?).map fun copy =>
        { objects := Function.update s.objects copy.1 (r.fold (s.objects copy.1) copy.2)
          copies := s.copies.eraseIdx place }

/-- A run of calls. -/
def Rules.run (r : Rules ε A) (s : Replicas ι A) (calls : List (Call ι ε)) :
    Option (Replicas ι A) :=
  calls.foldlM r.step s

/-! ## Simulation -/

/-- Replicas are related one by one, copies on their way with the same target. -/
structure Related (R : A → B → Prop) (s : Replicas ι A) (t : Replicas ι B) : Prop where
  objects : ∀ i, R (s.objects i) (t.objects i)
  copies : List.Forall₂ (fun p q => p.1 = q.1 ∧ R p.2 q.2) s.copies t.copies

variable {R : A → B → Prop} {r : Rules ε A} {q : Rules ε B} {s s' : Replicas ι A}
  {t : Replicas ι B}

/-- Removing a place from related lists. -/
theorem forall₂_eraseIdx {α β : Type w} {P : α → β → Prop} {xs : List α} {ys : List β}
    (h : List.Forall₂ P xs ys) (place : Nat) :
    List.Forall₂ P (xs.eraseIdx place) (ys.eraseIdx place) := by
  induction h generalizing place with
  | nil => exact .nil
  | cons hhead htail ih =>
      cases place with
      | zero => exact htail
      | succ place => exact .cons hhead (ih place)

/-- Related lists have related entries. -/
theorem forall₂_getElem? {α β : Type w} {P : α → β → Prop} {xs : List α} {ys : List β}
    (h : List.Forall₂ P xs ys) {place : Nat} {x : α} (hx : xs[place]? = some x) :
    ∃ y, ys[place]? = some y ∧ P x y := by
  induction h generalizing place with
  | nil => cases hx
  | cons hhead htail ih =>
      cases place with
      | zero =>
          cases hx
          exact ⟨_, rfl, hhead⟩
      | succ place => exact ih hx

/-- Related families stay related when one replica changes on both sides. -/
theorem related_update {f : ι → A} {g : ι → B} (h : ∀ i, R (f i) (g i)) (i : ι) {a : A} {b : B}
    (hab : R a b) (j : ι) : R (Function.update f i a j) (Function.update g i b j) := by
  by_cases hij : j = i
  · subst hij
    rwa [Function.update_self, Function.update_self]
  · rw [Function.update_of_ne hij, Function.update_of_ne hij]
    exact h j

/-- **Simulation of a call.** -/
theorem step_related (hobserve : ∀ a b event, R a b → R (r.observe a event) (q.observe b event))
    (hfold : ∀ a b a' b', R a b → R a' b' → R (r.fold a a') (q.fold b b'))
    (h : Related R s t) {call : Call ι ε} (hstep : r.step s call = some s') :
    ∃ t', q.step t call = some t' ∧ Related R s' t' := by
  cases call with
  | observe i event =>
      cases hstep
      exact ⟨_, rfl, related_update h.objects i (hobserve _ _ event (h.objects i)), h.copies⟩
  | copy target source =>
      by_cases hself : target = source
      · rw [Rules.step, if_pos hself] at hstep
        cases hstep
        exact ⟨t, if_pos hself, h⟩
      · rw [Rules.step, if_neg hself] at hstep
        cases hstep
        refine ⟨_, if_neg hself, h.objects, ?_⟩
        have hnew : List.Forall₂ (fun p q => p.1 = q.1 ∧ R p.2 q.2)
            [(target, s.objects source)] [(target, t.objects source)] :=
          .cons ⟨rfl, h.objects source⟩ .nil
        exact List.rel_append h.copies hnew
  | fold place =>
      obtain ⟨copy, hcopy, rfl⟩ := Option.map_eq_some_iff.mp hstep
      obtain ⟨copy', hcopy', htarget, hcopies⟩ := forall₂_getElem? h.copies hcopy
      refine ⟨_, by rw [Rules.step, hcopy', Option.map_some], ?_, forall₂_eraseIdx h.copies place⟩
      rw [← htarget]
      exact related_update h.objects _ (hfold _ _ _ _ (h.objects _) hcopies)

/-- **Simulation of a run.**  A relation that survives events and folds holds after all
calls, and the calls that one side can make the other can. -/
theorem run_related (hobserve : ∀ a b event, R a b → R (r.observe a event) (q.observe b event))
    (hfold : ∀ a b a' b', R a b → R a' b' → R (r.fold a a') (q.fold b b'))
    (h : Related R s t) {calls : List (Call ι ε)} (hrun : r.run s calls = some s') :
    ∃ t', q.run t calls = some t' ∧ Related R s' t' := by
  induction calls generalizing s t with
  | nil =>
      cases hrun
      exact ⟨t, rfl, h⟩
  | cons call rest ih =>
      rw [Rules.run, List.foldlM_cons] at hrun
      obtain ⟨s₁, hstep, hrest⟩ := Option.bind_eq_some_iff.mp hrun
      obtain ⟨t₁, hstep', h₁⟩ := step_related hobserve hfold h hstep
      obtain ⟨t', hrest', h'⟩ := ih h₁ hrest
      refine ⟨t', ?_, h'⟩
      rw [Rules.run, List.foldlM_cons, hstep']
      exact hrest'

end ReplicaMerging

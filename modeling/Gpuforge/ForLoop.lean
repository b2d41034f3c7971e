import Mathlib.Algebra.Order.Ring.Nat

/-!
# Counting loops that can fail

A counting loop runs a body at each value of a counter, in order, and stops at
the first failure.  Its values are a list: `upTo` counts by one, `strides` by a
step.

The rules are for total correctness: if from every state of the invariant the
body succeeds and moves the invariant to the next value of the counter, then
the loop succeeds and its invariant holds at the bound.
-/

namespace ForLoop

universe u v w

variable {ι : Type u} {ε : Type v} {σ : Type w}

/-- Run the body at each value. -/
def loop (body : ι → σ → Except ε σ) : List ι → σ → Except ε σ
  | [], s => .ok s
  | i :: rest, s =>
      match body i s with
      | .error e => .error e
      | .ok s' => loop body rest s'

/-- The values of a counter from `lo` to `hi`. -/
def upTo (lo hi : Nat) : List Nat := List.range' lo (hi - lo)

/-- The number of turns of a loop from `lo` to `hi` by a step. -/
def turns (lo hi step : Nat) : Nat := (hi - lo + step - 1) / step

/-- The values of a counter from `lo` to `hi` by a step. -/
def strides (lo hi step : Nat) : List Nat := List.range' lo (turns lo hi step) step

/-- A loop from zero to `hi` by a step, with a counter that holds values below
`limit` only: after the last turn it must still hold one. -/
def counted (limit : Nat) (wraps : ε) (body : Nat → σ → Except ε σ) (hi step : Nat) (s : σ) :
    Except ε σ :=
  match loop body (strides 0 hi step) s with
  | .error e => .error e
  | .ok s' => if turns 0 hi step * step < limit then .ok s' else .error wraps

variable {body : ι → σ → Except ε σ}

/-- One turn that succeeds. -/
theorem loop_cons {i : ι} {rest : List ι} {s s' : σ} (h : body i s = .ok s') :
    loop body (i :: rest) s = loop body rest s' := by
  simp only [loop, h]

/-- An empty range has no turn. -/
theorem upTo_of_le {lo hi : Nat} (h : hi ≤ lo) : upTo lo hi = [] := by
  rw [upTo, Nat.sub_eq_zero_of_le h, List.range'_zero]

/-- The first turn of a range. -/
theorem upTo_cons {lo hi : Nat} (h : lo < hi) : upTo lo hi = lo :: upTo (lo + 1) hi := by
  rw [upTo, upTo, show hi - lo = (hi - (lo + 1)) + 1 by omega, List.range'_succ]

/-- No turn when the counter starts at the bound. -/
theorem strides_of_le {lo hi step : Nat} (hstep : 0 < step) (h : hi ≤ lo) :
    strides lo hi step = [] := by
  have hturns : turns lo hi step = 0 := Nat.div_eq_of_lt (by omega)
  rw [strides, hturns, List.range'_zero]

/-- The first turn of a strided range. -/
theorem strides_cons {lo hi step : Nat} (hstep : 0 < step) (h : lo < hi) :
    strides lo hi step = lo :: strides (lo + step) hi step := by
  have hturns : turns lo hi step = turns (lo + step) hi step + 1 := by
    unfold turns
    rw [show hi - lo + step - 1 = (hi - lo - 1) + step by omega, Nat.add_div_right _ hstep]
    by_cases hlast : hi ≤ lo + step
    · have hnone : (hi - (lo + step) + step - 1) / step = 0 := Nat.div_eq_of_lt (by omega)
      rw [hnone, Nat.div_eq_of_lt (by omega)]
    · rw [show hi - (lo + step) + step - 1 = hi - lo - 1 by omega]
  rw [strides, hturns, List.range'_succ, strides]

/-- **Rule for a loop by one.** -/
theorem upTo_total (body : Nat → σ → Except ε σ) (lo hi : Nat) (inv : Nat → σ → Prop)
    (hbody : ∀ i s, lo ≤ i → i < hi → inv i s → ∃ s', body i s = .ok s' ∧ inv (i + 1) s')
    (hle : lo ≤ hi) {s : σ} (hs : inv lo s) :
    ∃ s', loop body (upTo lo hi) s = .ok s' ∧ inv hi s' := by
  rcases Nat.lt_or_eq_of_le hle with hlt | rfl
  · obtain ⟨s₁, hs₁, hinv⟩ := hbody lo s (Nat.le_refl _) hlt hs
    rw [upTo_cons hlt, loop_cons hs₁]
    exact upTo_total body (lo + 1) hi inv (fun i s hlo => hbody i s (by omega)) hlt hinv
  · rw [upTo_of_le (Nat.le_refl _)]
    exact ⟨s, rfl, hs⟩
termination_by hi - lo

/-- **Rule for a loop by a step.**  The last turn may pass the bound. -/
theorem strides_total (body : Nat → σ → Except ε σ) (lo hi step : Nat) (hstep : 0 < step)
    (inv : Nat → σ → Prop)
    (hbody : ∀ i s, lo ≤ i → i < hi → inv i s →
      ∃ s', body i s = .ok s' ∧ inv (min (i + step) hi) s')
    (hle : lo ≤ hi) {s : σ} (hs : inv lo s) :
    ∃ s', loop body (strides lo hi step) s = .ok s' ∧ inv hi s' := by
  rcases Nat.lt_or_eq_of_le hle with hlt | rfl
  · obtain ⟨s₁, hs₁, hinv⟩ := hbody lo s (Nat.le_refl _) hlt hs
    rw [strides_cons hstep hlt, loop_cons hs₁]
    by_cases hlast : hi ≤ lo + step
    · rw [Nat.min_eq_right hlast] at hinv
      rw [strides_of_le hstep hlast]
      exact ⟨s₁, rfl, hinv⟩
    · rw [Nat.min_eq_left (by omega)] at hinv
      exact strides_total body (lo + step) hi step hstep inv
        (fun i s hlo => hbody i s (by omega)) (by omega) hinv
  · rw [strides_of_le hstep (Nat.le_refl _)]
    exact ⟨s, rfl, hs⟩
termination_by hi - lo

/-- The counter after the last turn. -/
theorem turns_mul_lt (hi : Nat) {step : Nat} (hstep : 0 < step) :
    turns 0 hi step * step < hi + step := by
  have hle : turns 0 hi step * step ≤ hi - 0 + step - 1 := Nat.div_mul_le_self _ _
  omega

/-- The counter after the last turn is not below the bound. -/
theorem le_turns_mul {hi step : Nat} (hstep : 0 < step) : hi ≤ turns 0 hi step * step := by
  have hlt : hi - 0 + step - 1 < turns 0 hi step * step + step :=
    Nat.lt_div_mul_add hstep
  omega

/-- A loop whose counter has room ends like a loop without a limit. -/
theorem counted_of_loop {limit : Nat} {wraps : ε} {body : Nat → σ → Except ε σ} {hi step : Nat}
    (hstep : 0 < step) (hroom : hi + step ≤ limit) {s s' : σ}
    (h : loop body (strides 0 hi step) s = .ok s') :
    counted limit wraps body hi step s = .ok s' := by
  have hlt := turns_mul_lt hi hstep
  simp only [counted, h]
  rw [if_pos (by omega)]

/-- The values of a range. -/
theorem mem_upTo {lo hi i : Nat} : i ∈ upTo lo hi ↔ lo ≤ i ∧ i < hi := by
  rw [upTo, List.mem_range'_1]
  omega

/-- No value of a counter reaches the bound. -/
theorem lt_of_mem_strides {hi step i : Nat} (hstep : 0 < step) (h : i ∈ strides 0 hi step) :
    i < hi := by
  obtain ⟨n, hn, rfl⟩ := List.mem_range'.mp h
  have hlast : (n + 1) * step ≤ turns 0 hi step * step := Nat.mul_le_mul_right step hn
  have hend := turns_mul_lt hi hstep
  rw [Nat.succ_mul] at hlast
  rw [Nat.zero_add, Nat.mul_comm]
  omega

/-- **A loop that ends ran its body at every value.** -/
theorem loop_ran {xs : List ι} {s s' : σ} (h : loop body xs s = .ok s') {i : ι} (hi : i ∈ xs) :
    ∃ s₁ s₂, body i s₁ = .ok s₂ := by
  induction xs generalizing s with
  | nil => cases hi
  | cons j rest ih =>
      simp only [loop] at h
      cases hbody : body j s with
      | error e =>
          rw [hbody] at h
          cases h
      | ok s₁ =>
          rw [hbody] at h
          rcases List.mem_cons.mp hi with rfl | hrest
          · exact ⟨s, s₁, hbody⟩
          · exact ih h hrest

/-- The values of a counter. -/
theorem mem_strides {hi step n : Nat} (hstep : 0 < step) (hn : n * step < hi) :
    n * step ∈ strides 0 hi step := by
  have hle : hi ≤ turns 0 hi step * step := le_turns_mul hstep
  have hlt : n < turns 0 hi step := Nat.lt_of_mul_lt_mul_right (Nat.lt_of_lt_of_le hn hle)
  rw [strides, List.mem_range']
  exact ⟨n, hlt, by rw [Nat.zero_add, Nat.mul_comm]⟩

/-- **A loop with a limit that ends** ran without it, and its counter stayed below. -/
theorem counted_ran {limit : Nat} {wraps : ε} {body : Nat → σ → Except ε σ} {hi step : Nat}
    {s s' : σ} (h : counted limit wraps body hi step s = .ok s') :
    loop body (strides 0 hi step) s = .ok s' ∧ turns 0 hi step * step < limit := by
  unfold counted at h
  split at h
  · cases h
  · rename_i s₁ hrun
    split at h
    · rename_i hlt
      cases h
      exact ⟨hrun, hlt⟩
    · cases h

/-- A counter that stayed below a multiple of the step had room for one more step. -/
theorem room_of_turns {limit hi step : Nat} (hstep : 0 < step) (hdvd : step ∣ limit)
    (h : turns 0 hi step * step < limit) : hi + step ≤ limit := by
  obtain ⟨count, rfl⟩ := hdvd
  have hle : hi ≤ turns 0 hi step * step := le_turns_mul hstep
  rw [Nat.mul_comm step count] at h ⊢
  have hmul : (turns 0 hi step + 1) * step ≤ count * step :=
    Nat.mul_le_mul_right step (Nat.lt_of_mul_lt_mul_right h)
  rw [Nat.succ_mul] at hmul
  omega

/-- **Rule for a counter with room.** -/
theorem counted_total (limit : Nat) (wraps : ε) (body : Nat → σ → Except ε σ) (hi step : Nat)
    (hstep : 0 < step) (hroom : hi + step ≤ limit) (inv : Nat → σ → Prop)
    (hbody : ∀ i s, i < hi → inv i s → ∃ s', body i s = .ok s' ∧ inv (min (i + step) hi) s')
    {s : σ} (hs : inv 0 s) : ∃ s', counted limit wraps body hi step s = .ok s' ∧ inv hi s' := by
  obtain ⟨s', hrun, hinv⟩ := strides_total body 0 hi step hstep inv
    (fun i s _ => hbody i s) (Nat.zero_le hi) hs
  exact ⟨s', counted_of_loop hstep hroom hrun, hinv⟩

/-- **Rule for a loop by a step, turn by turn.**  The invariant counts turns. -/
theorem turns_total (body : Nat → σ → Except ε σ) (hi step : Nat) (hstep : 0 < step)
    (inv : Nat → σ → Prop)
    (hbody : ∀ n s, n * step < hi → inv n s → ∃ s', body (n * step) s = .ok s' ∧ inv (n + 1) s')
    {s : σ} (hs : inv 0 s) :
    ∃ s', loop body (strides 0 hi step) s = .ok s' ∧ inv (turns 0 hi step) s' := by
  have hfrom : ∀ count n s, n + count = turns 0 hi step → inv n s →
      ∃ s', loop body (List.range' (n * step) count step) s = .ok s' ∧
        inv (turns 0 hi step) s' := by
    intro count
    induction count with
    | zero =>
        intro n s hn hinv
        cases hn
        exact ⟨s, rfl, hinv⟩
    | succ count ih =>
        intro n s hn hinv
        have hlast : (n + 1) * step ≤ turns 0 hi step * step :=
          Nat.mul_le_mul_right step (by omega)
        have hmul : (n + 1) * step = n * step + step := Nat.succ_mul n step
        have hend := turns_mul_lt hi hstep
        obtain ⟨s₁, hs₁, hinv₁⟩ := hbody n s (by omega) hinv
        rw [List.range'_succ, loop_cons hs₁, ← hmul]
        exact ih (n + 1) s₁ (by omega) hinv₁
  have hstart := hfrom (turns 0 hi step) 0 s (Nat.zero_add _) hs
  rwa [Nat.zero_mul] at hstart

/-- **Rule for a loop over different values.**  The invariant knows the values
done so far. -/
theorem each_total (body : ι → σ → Except ε σ) (order : List ι) (hnodup : order.Nodup)
    (inv : List ι → σ → Prop)
    (hbody : ∀ done i s, i ∈ order → i ∉ done → inv done s →
      ∃ s', body i s = .ok s' ∧ inv (done ++ [i]) s') {s : σ} (hs : inv [] s) :
    ∃ s', loop body order s = .ok s' ∧ inv order s' := by
  have hfrom : ∀ rest done s, done ++ rest = order → inv done s →
      ∃ s', loop body rest s = .ok s' ∧ inv order s' := by
    intro rest
    induction rest with
    | nil =>
        intro done s hdone hinv
        rw [List.append_nil] at hdone
        subst hdone
        exact ⟨s, rfl, hinv⟩
    | cons i rest ih =>
        intro done s hdone hinv
        have hfresh : i ∉ done := by
          intro hmem
          rw [← hdone] at hnodup
          exact (List.nodup_append.mp hnodup).2.2 i hmem i List.mem_cons_self rfl
        have hin : i ∈ order := by
          rw [← hdone]
          exact List.mem_append_right done List.mem_cons_self
        obtain ⟨s₁, hs₁, hinv₁⟩ := hbody done i s hin hfresh hinv
        rw [loop_cons hs₁]
        exact ih (done ++ [i]) s₁ (by rw [← hdone, List.append_assoc]; rfl) hinv₁
  exact hfrom order [] s rfl hs

/-! ## What a computation can fail with -/

/-- The errors that a computation may end in. -/
def EndsIn (errors : ε → Prop) (r : Except ε σ) : Prop := ∀ e, r = .error e → errors e

section errors

variable {errors : ε → Prop} {τ : Type w}

/-- A success is no error. -/
theorem endsIn_ok (a : σ) : EndsIn errors (.ok a) := by
  intro e h
  cases h

/-- One of the errors. -/
theorem endsIn_error {e : ε} (h : errors e) : EndsIn errors (.error e : Except ε σ) := by
  intro e' heq
  cases heq
  exact h

/-- Two steps end in the errors of both. -/
theorem EndsIn.bind {r : Except ε σ} {f : σ → Except ε τ} (h : EndsIn errors r)
    (hf : ∀ a, r = .ok a → EndsIn errors (f a)) : EndsIn errors (r >>= f) := by
  cases r with
  | error e => exact endsIn_error (h e rfl)
  | ok a => exact hf a rfl

/-- A computation that ends in no error succeeds. -/
theorem EndsIn.exists_ok {r : Except ε σ} (h : EndsIn errors r)
    (hnone : ∀ e, errors e → r ≠ .error e) : ∃ a, r = .ok a := by
  cases hr : r with
  | error e => exact absurd hr (hnone e (h e hr))
  | ok a => exact ⟨a, rfl⟩

/-- **Rule for the errors of a loop.**  They are those of its body. -/
theorem endsIn_loop {xs : List ι} (h : ∀ i ∈ xs, ∀ s, EndsIn errors (body i s)) (s : σ) :
    EndsIn errors (loop body xs s) := by
  induction xs generalizing s with
  | nil => exact endsIn_ok s
  | cons i rest ih =>
      simp only [loop]
      cases hbody : body i s with
      | error e => exact endsIn_error (h i List.mem_cons_self s e hbody)
      | ok s' => exact ih (fun j hj => h j (List.mem_cons_of_mem i hj)) s'

/-- The errors of a loop with a limit are those of its body, and the limit. -/
theorem endsIn_counted {limit : Nat} {wraps : ε} {body : Nat → σ → Except ε σ} {hi step : Nat}
    (hstep : 0 < step) (hwraps : limit < hi + step → errors wraps)
    (h : ∀ i < hi, ∀ s, EndsIn errors (body i s)) (s : σ) :
    EndsIn errors (counted limit wraps body hi step s) := by
  have hloop : EndsIn errors (loop body (strides 0 hi step) s) :=
    endsIn_loop (fun i hi => h i (lt_of_mem_strides hstep hi)) s
  have hlt := turns_mul_lt hi hstep
  unfold counted
  split
  · rename_i e hrun
    exact endsIn_error (hloop e hrun)
  · split
    · exact endsIn_ok _
    · exact endsIn_error (hwraps (by omega))

end errors

end ForLoop

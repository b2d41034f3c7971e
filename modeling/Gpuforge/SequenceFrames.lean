import Gpuforge.PackedSessions

/-!
# What the owner of one sequence sees of the others

All sequences share the page table and the two vectors that are indexed by the sequence
id.  Exclusive ownership keeps the pages of different sequences apart, so an append or a
release of one sequence cannot be observed through another: not in its byte count, not in
its page count, not by `locate` or `read`.

Two things break this.  `append` makes room with `resize(s + 1)`, computed in `size_t`: for
the largest id the sum is 0, and the call empties the tables of all sequences before it
looks up its own list, which is then out of range.  And in a table of more than `2^31`
pages an index does not fit the `int` page id.  `sequences_apart_iff` says that nothing
else does.
-/

namespace Gpuforge

open BoundedLoop LabelledRun ListTable

namespace PagedKV

variable {kv kv' : PagedKV} {held : List Int} {s s' : Nat}

/-- The append ends, by a return or a throw, and no query about sequence `s'` sees a
difference. -/
def AppendSpares (kv : PagedKV) (s : Nat) (src : Source) (s' : Nat) : Prop :=
  ∃ kv', (kv.append s src).state? = some kv' ∧ SameSequence s' kv kv'

/-- The id is not the one whose successor is 0, unless the null check comes first. -/
def Indexable (s : Nat) (src : Source) : Prop :=
  s = 2 ^ 64 - 1 → ∃ n, n ≠ 0 ∧ src = .null n

/-- A call that disturbs no other owner cannot be seen through another sequence. -/
theorem Frame.sameSequence (hframe : Frame s held kv kv') (hne : s' ≠ s) :
    SameSequence s' kv kv' :=
  sameSequence_of_pages hframe.pageBytes (hframe.ids s' hne) (hframe.counts s' hne)
    (fun id hid => hframe.pages id (Or.inr ⟨s', hne, hid⟩))

/-! ## Every append with a usable id ends -/

/-- The preflight finds the tail page. -/
theorem Exclusive.tailFree_some (hx : Exclusive kv held) (s : Nat) :
    ∃ room, kv.tailFree s = some room := by
  cases htail : (kv.ids s).getLast? with
  | none => exact ⟨0, by simp [tailFree, htail]⟩
  | some id =>
      obtain ⟨page, hpage, _⟩ := hx.listed (List.mem_of_getLast? htail)
      exact ⟨_, by simp [tailFree, htail, hpage]; rfl⟩

/-- The copy loop leaves a state behind. -/
theorem Exclusive.appendLoop_state (hx : Exclusive kv held) (hsmall : kv.pages.length ≤ 2 ^ 31)
    (hs : s < kv.sequences.length) (data : List UInt8) :
    ∃ kv', (kv.appendLoop s data).state? = some kv' := by
  let inv : PagedKV × List UInt8 → Prop := fun st =>
    Exclusive st.1 held ∧ st.1.pages.length ≤ 2 ^ 31 ∧ s < st.1.sequences.length
  cases hrun : run (PagedKV.appendTurn s) (data.length + kv.freePages + 1) (kv, data) with
  | none =>
      exact absurd (by rw [PagedKV.appendLoop, hrun]; rfl) (appendLoop_not_diverged kv s data)
  | some r =>
      rw [PagedKV.appendLoop, hrun]
      refine run_post inv (fun r => ∃ kv', r.state? = some kv') ?_ ?_ hrun ⟨hx, hsmall, hs⟩
      · intro st st' hinv hturn
        obtain ⟨kv₁, left⟩ := st
        obtain ⟨kv₂, left'⟩ := st'
        obtain ⟨hx₁, hsmall₁, hs₁⟩ := hinv
        obtain ⟨hx₂, hframe, hs₂⟩ := hx₁.appendTurn hsmall₁ hs₁ hturn
        exact ⟨hx₂, hframe.pageCount ▸ hsmall₁, hs₂⟩
      · intro st r hinv hturn
        obtain ⟨kv₁, left⟩ := st
        obtain ⟨hx₁, hsmall₁, _⟩ := hinv
        exact ⟨kv₁, hx₁.appendTurn_leave hsmall₁ hturn⟩

/-- An append to a sequence the tables can be grown to leaves a state behind. -/
theorem Exclusive.append_state (hx : Exclusive kv held) (hsmall : kv.pages.length ≤ 2 ^ 31)
    (hs : s < 2 ^ 64 - 1) (src : Source) : ∃ kv', (kv.append s src).state? = some kv' := by
  have hready : ∀ data, ∃ kv', ((kv.ensureSequence s).appendReady s data).state? = some kv' := by
    intro data
    have hx₁ := hx.ensureSequence s
    have hs₁ := lt_length_ensureSequence kv hs
    obtain ⟨room, hroom⟩ := hx₁.tailFree_some s
    rw [appendReady, if_neg (Nat.not_le.mpr hs₁), hroom]
    dsimp only
    split
    · exact ⟨_, rfl⟩
    · exact hx₁.appendLoop_state (by simpa using hsmall) hs₁ data
  cases src with
  | null n =>
      rw [PagedKV.append]
      split
      · exact ⟨kv, rfl⟩
      · exact hready []
  | buffer data => exact hready data

/-! ## The id without a successor -/

/-- `resize(s + 1)` of the largest id drops every sequence. -/
theorem ensureSequence_last (hlen : kv.sequences.length < 2 ^ 64) :
    (kv.ensureSequence (2 ^ 64 - 1)).sequences = [] ∧
      (kv.ensureSequence (2 ^ 64 - 1)).sequenceBytes = [] := by
  have hgrow : kv.sequences.length ≤ 2 ^ 64 - 1 := by omega
  have hwrap : (2 ^ 64 - 1 + 1) % 2 ^ 64 = 0 := by decide
  rw [PagedKV.ensureSequence, if_pos hgrow, hwrap]
  simp [resize]

/-- After that the subscript of the append is out of range. -/
theorem append_last (hlen : kv.sequences.length < 2 ^ 64) {src : Source}
    (hsrc : ¬ ∃ n, n ≠ 0 ∧ src = .null n) : kv.append (2 ^ 64 - 1) src = .undefined := by
  have hready : ∀ data,
      (kv.ensureSequence (2 ^ 64 - 1)).appendReady (2 ^ 64 - 1) data = .undefined := by
    intro data
    rw [appendReady, if_pos]
    rw [(ensureSequence_last hlen).1]
    exact Nat.zero_le _
  cases src with
  | null n =>
      have hzero : ¬ n ≠ 0 := fun hn => hsrc ⟨n, hn, rfl⟩
      rw [PagedKV.append, if_neg hzero]
      exact hready []
  | buffer data => exact hready data

/-- The choice of a page keeps the number of sequences. -/
theorem writablePage_sequences {id : Int} (h : kv.writablePage s = some (id, kv')) :
    kv'.sequences.length = kv.sequences.length := by
  have hclaim : (kv.claimFor s).2.sequences.length = kv.sequences.length := by
    unfold claimFor
    split <;> simp
  rcases writablePage_cases h with ⟨rfl, _⟩ | hres
  · rfl
  · rwa [hres] at hclaim

/-- The copy loop keeps the number of sequences. -/
theorem appendLoop_sequences {data : List UInt8}
    (h : (kv.appendLoop s data).state? = some kv') :
    kv'.sequences.length = kv.sequences.length := by
  cases hrun : run (appendTurn s) (data.length + kv.freePages + 1) (kv, data) with
  | none => simp [appendLoop, hrun, Outcome.state?] at h
  | some r =>
      rw [appendLoop, hrun] at h
      let inv : PagedKV × List UInt8 → Prop := fun st =>
        st.1.sequences.length = kv.sequences.length
      let post : Outcome PagedKV → Prop := fun r =>
        ∀ kv', r.state? = some kv' → kv'.sequences.length = kv.sequences.length
      refine run_post inv post ?_ ?_ hrun rfl kv' h
      · intro st st' hinv hturn
        rw [appendTurn] at hturn
        split at hturn
        · cases hturn
        · split at hturn
          · cases hturn
          · rename_i hwritable
            split at hturn
            · cases hturn
            · split at hturn <;> cases hturn
              exact (writablePage_sequences hwritable).trans hinv
      · intro st r hinv hturn kv₁ hstate
        rw [appendTurn] at hturn
        split at hturn
        · cases hturn
          cases hstate
          exact hinv
        · split at hturn
          · cases hturn
            cases hstate
          · rename_i hwritable
            split at hturn
            · cases hturn
              cases hstate
              exact (writablePage_sequences hwritable).trans hinv
            · split at hturn <;> cases hturn
              cases hstate

/-- The number of sequences stays a `size_t`. -/
theorem append_sequences {src : Source} (hlen : kv.sequences.length < 2 ^ 64)
    (h : (kv.append s src).state? = some kv') : kv'.sequences.length < 2 ^ 64 := by
  have hgrown : (kv.ensureSequence s).sequences.length < 2 ^ 64 := by
    unfold ensureSequence
    split
    · rw [length_resize]
      exact Nat.mod_lt _ (by decide)
    · exact hlen
  have hready : ∀ data, ((kv.ensureSequence s).appendReady s data).state? = some kv' →
      kv'.sequences.length < 2 ^ 64 := by
    intro data hready
    rw [appendReady] at hready
    split at hready
    · cases hready
    · split at hready
      · cases hready
      · split at hready
        · cases hready
          exact hgrown
        · rw [appendLoop_sequences hready]
          exact hgrown
  cases src with
  | null n =>
      rw [PagedKV.append] at h
      split at h
      · cases h
        exact hlen
      · exact hready [] h
  | buffer data => exact hready data h

/-- **An append to one sequence spares all others exactly when its id has a successor.** -/
theorem Exclusive.append_spares_iff (hx : Exclusive kv held)
    (hsmall : kv.pages.length ≤ 2 ^ 31) (hlen : kv.sequences.length < 2 ^ 64)
    (hs : s < 2 ^ 64) (hne : s' ≠ s) (src : Source) :
    kv.AppendSpares s src s' ↔ Indexable s src := by
  constructor
  · intro hspares hlast
    obtain ⟨kv', hstate, _⟩ := hspares
    by_contra hsrc
    rw [hlast, append_last hlen hsrc] at hstate
    cases hstate
  · intro hindexable
    by_cases hlast : s = 2 ^ 64 - 1
    · obtain ⟨n, hn, rfl⟩ := hindexable hlast
      exact ⟨kv, by rw [PagedKV.append, if_pos hn]; rfl, (Frame.refl s held kv).sameSequence hne⟩
    · have hlt : s < 2 ^ 64 - 1 := by omega
      obtain ⟨kv', hstate⟩ := hx.append_state hsmall hlt src
      exact ⟨kv', hstate, (hx.append hsmall hstate).2.sameSequence hne⟩

/-- A release of one sequence cannot be seen through another. -/
theorem Exclusive.releaseSequence_sameSequence (hx : Exclusive kv held) (hne : s' ≠ s) :
    SameSequence s' kv (kv.releaseSequence s) := by
  by_cases hs : kv.sequences.length ≤ s
  · rw [PagedKV.releaseSequence, if_pos hs]
    exact (Frame.refl s held kv).sameSequence hne
  · have hcount : s < kv.sequenceBytes.length := by
      rw [hx.aligned]
      omega
    rw [PagedKV.releaseSequence, if_neg hs, if_pos hcount]
    exact (withoutSequence_frame hx.distinct s).sameSequence hne

end PagedKV

namespace Session

open PagedKV

variable {σ τ : Session} {op : Op}

/-- `release` is used on held ids only. -/
def ReleasesHeld (σ : Session) : Op → Prop
  | .release i => i ∈ σ.held
  | _ => True

/-- An append leaves every other sequence as it was exactly when its id has a successor;
a release of a sequence always does. -/
def KeepsApart (σ : Session) : Prop :=
  ∀ s s', s < 2 ^ 64 → s' ≠ s →
    (∀ src, σ.kv.AppendSpares s src s' ↔ Indexable s src) ∧
    SameSequence s' σ.kv (σ.kv.releaseSequence s)

/-- The run invariant: exclusive ownership, and as many sequences as a `size_t` counts. -/
def Counted (n : Nat) (σ : Session) : Prop :=
  Owned n σ ∧ σ.kv.sequences.length < 2 ^ 64

/-- One call keeps the invariant. -/
theorem counted_step {n : Nat} (hn : n ≤ 2 ^ 31) (hσ : Counted n σ)
    (hstep : Step ReleasesHeld σ op τ) : Counted n τ := by
  obtain ⟨howned, hlen⟩ := hσ
  obtain ⟨hallowed, hexec⟩ := hstep
  have hunlisted : ReleasesUnlisted σ op := by
    cases op with
    | release i =>
        exact fun hlisted =>
          (List.nodup_append.mp howned.1.distinct).2.2 i hallowed i hlisted rfl
    | acquire => trivial
    | append s src => trivial
    | releaseSequence s => trivial
  refine ⟨owned_step hn howned ⟨hunlisted, hexec⟩, ?_⟩
  cases op with
  | acquire =>
      cases hexec
      have hnarrow : σ.kv.pages.length ≤ 2 ^ 31 := howned.2 ▸ hn
      rcases acquire_cases hnarrow with ⟨_, _, _, _, hres⟩ | ⟨_, hres⟩
      · rw [hres]
        exact hlen
      · rw [hres]
        exact hlen
  | release i =>
      cases hexec
      exact hlen
  | append s src => exact append_sequences hlen (exec_append hexec).1
  | releaseSequence s =>
      cases hexec
      simp only [PagedKV.releaseSequence]
      split <;> simpa using hlen

/-- Every reached session of a narrow table keeps its sequences apart. -/
theorem keepsApart_run {t b p : Nat} {kv : PagedKV} {ops : List Op}
    (hmake : construct t b p = .ok kv) (hp : p ≤ 2 ^ 31)
    (hrun : Run (Step ReleasesHeld) (start kv) ops σ) : KeepsApart σ := by
  obtain ⟨rfl, _⟩ := construct_takenPages hmake
  have hfirst : Counted p (start ⟨t, b, takenPages b p 0, [], []⟩) :=
    ⟨⟨construct_exclusive hmake, by simp [start, takenPages]⟩, by simp [start]⟩
  obtain ⟨⟨hx, hcount⟩, hlen⟩ :=
    hrun.invariant (Counted p) hfirst (fun _ _ _ hσ hstep => counted_step hp hσ hstep)
  intro s s' hs hne
  exact ⟨hx.append_spares_iff (hcount ▸ hp) hlen hs hne, hx.releaseSequence_sameSequence hne⟩

/-- After `k` pages have been acquired, where `k` converts to a negative page id, an append
lists that id, and the next append to the sequence subscripts the page table with it. -/
theorem wide_table_run {t b p k : Nat} {kv : PagedKV} (hmake : construct t b p = .ok kv)
    (hneg : castInt k < 0) (hk : k < p) : ∃ ops σ, Run (Step ReleasesHeld) (start kv) ops σ ∧
      σ.kv.append 0 (.buffer [1]) = .undefined := by
  obtain ⟨rfl, hb⟩ := construct_takenPages hmake
  have hacquires : ∀ σ, ReleasesHeld σ .acquire := fun _ => trivial
  obtain ⟨held, hrun⟩ := run_acquires hacquires t b p k (Nat.le_of_lt hk)
  have happend : Step ReleasesHeld ⟨⟨t, b, takenPages b p k, [], []⟩, held, fun _ => []⟩
      (.append 0 (.buffer [1]))
      ⟨⟨t, b, takenPages b p (k + 1), [[castInt k]], [0]⟩, held, fun _ => []⟩ :=
    ⟨trivial, by simp only [exec, append_past_int hb hk hneg]⟩
  refine ⟨_, _, hrun.extend happend, ?_⟩
  have hnone : pageAt (takenPages b p (k + 1)) (castInt k) = none := if_neg (by omega)
  have htail : (⟨t, b, takenPages b p (k + 1), [[castInt k]], [0]⟩ : PagedKV).tailFree 0 =
      none := by
    simp [tailFree, PagedKV.ids, hnone]
  simp [PagedKV.append, ensureSequence, appendReady, htail]

/-- **Sequences are kept apart exactly in tables of at most `2^31` pages.**  In every state
a run of such a cache reaches, a release of one sequence cannot be seen through another, and
an append to a 64-bit id cannot either, unless the id is `2^64 - 1` and the null check lets
it through: then it never leaves the others as they were.  A wider table has a run after
which an append to the id 0 has no defined end. -/
theorem sequences_apart_iff {t b p : Nat} {kv : PagedKV} (hmake : construct t b p = .ok kv) :
    (∀ ops σ, Run (Step ReleasesHeld) (start kv) ops σ → KeepsApart σ) ↔ p ≤ 2 ^ 31 := by
  constructor
  · intro hapart
    by_contra hp
    have hneg : castInt (2 ^ 31) < 0 := by decide
    obtain ⟨ops, σ, hrun, hundefined⟩ := wide_table_run hmake hneg (Nat.lt_of_not_le hp)
    have hspares := ((hapart ops σ hrun 0 1 (by decide) (by decide)).1 (.buffer [1])).mpr
      (fun hlast => absurd hlast (by decide))
    obtain ⟨kv', hstate, _⟩ := hspares
    rw [hundefined] at hstate
    cases hstate
  · exact fun hp ops σ hrun => keepsApart_run hmake hp hrun

/-- Two sequences with one byte each: an append to the second is not seen through the first. -/
theorem sequences_apart_iff_example : ∃ σ : Session,
    Run (Step ReleasesHeld) (start ⟨1, 1, List.replicate 2 ⟨[0], false, 0⟩, [], []⟩)
      [.append 0 (.buffer [7])] σ ∧ σ.kv.AppendSpares 1 (.buffer [8]) 0 := by
  let σ₀ := start ⟨1, 1, List.replicate 2 ⟨[0], false, 0⟩, [], []⟩
  let σ₁ := σ₀.appended ⟨1, 1, [⟨[7], true, 1⟩, ⟨[0], false, 0⟩], [[0]], [1]⟩ 0 [7]
  have hrun : Run (Step ReleasesHeld) σ₀ [.append 0 (.buffer [7])] σ₁ :=
    Run.single ⟨trivial, exec_append_returned (by decide)⟩
  have hapart := (sequences_apart_iff (t := 1) (b := 1) (p := 2) rfl).mpr (by decide) _ _ hrun
  exact ⟨σ₁, hrun, ((hapart 1 0 (by decide) (by decide)).1 (.buffer [8])).mpr
    (fun hlast => absurd hlast (by decide))⟩

/-- With one byte in sequence 0, an append to the id `2^64 - 1` empties the tables and then
subscripts them: the byte count of sequence 0 has become 0 by then. -/
theorem append_empties_tables : ∃ σ : Session,
    Run (Step ReleasesHeld) (start ⟨1, 1, List.replicate 2 ⟨[0], false, 0⟩, [], []⟩)
      [.append 0 (.buffer [7])] σ ∧
    σ.kv.bytes 0 = 1 ∧ (σ.kv.ensureSequence (2 ^ 64 - 1)).bytes 0 = 0 ∧
    σ.kv.append (2 ^ 64 - 1) (.buffer [8]) = .undefined ∧
    ¬ σ.kv.AppendSpares (2 ^ 64 - 1) (.buffer [8]) 0 := by
  let σ₀ := start ⟨1, 1, List.replicate 2 ⟨[0], false, 0⟩, [], []⟩
  let σ₁ := σ₀.appended ⟨1, 1, [⟨[7], true, 1⟩, ⟨[0], false, 0⟩], [[0]], [1]⟩ 0 [7]
  have hrun : Run (Step ReleasesHeld) σ₀ [.append 0 (.buffer [7])] σ₁ :=
    Run.single ⟨trivial, exec_append_returned (by decide)⟩
  have hlen : σ₁.kv.sequences.length < 2 ^ 64 := show 1 < 2 ^ 64 by decide
  have hundefined : σ₁.kv.append (2 ^ 64 - 1) (.buffer [8]) = .undefined := by
    apply append_last hlen
    intro hnull
    obtain ⟨n, _, hsrc⟩ := hnull
    cases hsrc
  refine ⟨σ₁, hrun, rfl, ?_, hundefined, ?_⟩
  · rw [PagedKV.bytes, (ensureSequence_last hlen).2]
    rfl
  · intro hspares
    obtain ⟨kv', hstate, _⟩ := hspares
    rw [hundefined] at hstate
    cases hstate

end Session

end Gpuforge

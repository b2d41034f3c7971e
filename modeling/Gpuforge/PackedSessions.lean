import Gpuforge.PackedReads
import Gpuforge.PackedRelease

/-!
# Disciplined sessions of a paged cache

A session is disciplined when `release` is only called on ids its callers
hold and the sizes stay below the point where `size_t` wraps.  The
representation invariant then survives every call, and with it two results
about every reached state:

* `cache_refines_logs` — the cache is a map from sequence id to byte string;
* `append_all_or_nothing` — the preflight is exact and a refused append is
  invisible.
-/

namespace Gpuforge

open BoundedLoop LabelledRun ListTable DenseBlocks

namespace PagedKV

/-! ## What callers can observe -/

/-- A sequence that reads back as `xs`: its byte counter is the length, and a
read of `n > 0` bytes from an offset copies the `n` bytes there, cut at the
end. -/
def Holds (kv : PagedKV) (s : Nat) (xs : List UInt8) : Prop :=
  kv.bytes s = xs.length ∧
  ∀ off out n, 0 < n →
    kv.read s off (some out) n = .returned
      (if xs.length ≤ off then (0, out)
        else (min n (xs.length - off),
          memcpy out 0 ((xs.drop off).take (min n (xs.length - off)))))

/-- Two caches with the same pages that no query can tell apart. -/
structure SameView (kv kv' : PagedKV) : Prop where
  pages : kv'.pages = kv.pages
  bytes : ∀ s, kv'.bytes s = kv.bytes s
  resident : ∀ s, kv'.resident s = kv.resident s
  read : ∀ s off out n, kv'.read s off out n = kv.read s off out n
  locate : ∀ s off, kv'.locate s off = kv.locate s off

/-- Two caches that no query about sequence `s` can tell apart. -/
structure SameSequence (s : Nat) (kv kv' : PagedKV) : Prop where
  bytes : kv'.bytes s = kv.bytes s
  resident : kv'.resident s = kv.resident s
  locate : ∀ off, kv'.locate s off = kv.locate s off
  read : ∀ off out n, kv'.read s off out n = kv.read s off out n

variable {kv : PagedKV} {held : List Int} {log : Nat → List UInt8}

/-- On a packed cache every sequence reads back as its log. -/
theorem Packed.holds (hk : Packed kv held log) (s : Nat) : Holds kv s (log s) := by
  refine ⟨hk.bytes_log s, fun off out n hn => ?_⟩
  rw [hk.read s off out hn]
  by_cases hoff : (log s).length ≤ off
  · rw [if_pos hoff, Nat.sub_eq_zero_of_le hoff, List.drop_of_length_le hoff, List.take_nil,
      memcpy_nil, Nat.min_zero]
  · rw [if_neg hoff, ← List.length_drop, ← List.take_eq_take_min]

/-- The queries about a sequence see its page list, its byte counter and the pages it
lists. -/
theorem sameSequence_of_pages {kv kv' : PagedKV} {s : Nat}
    (hsize : kv'.pageBytes = kv.pageBytes) (hids : kv'.ids s = kv.ids s)
    (hcount : kv'.sequenceBytes.getD s 0 = kv.sequenceBytes.getD s 0)
    (hpages : ∀ id ∈ kv.ids s, pageAt kv'.pages id = pageAt kv.pages id) :
    SameSequence s kv kv' := by
  refine ⟨?_, ?_, ?_, ?_⟩
  · rw [bytes_eq, bytes_eq, hcount]
  · rw [resident_eq, resident_eq, hids]
  · intro off
    simp only [PagedKV.locate, past_end_iff]
    rw [hcount, hids, hsize]
    cases hid : (kv.ids s)[off / kv.pageBytes]? with
    | none => rfl
    | some id => simp only [hpages id (List.mem_of_getElem? hid)]
  · intro off out n
    have hturn : ∀ m, kv'.readTurn s off m = kv.readTurn s off m := by
      intro m
      funext st
      simp only [PagedKV.readTurn, hids, hsize]
      cases hid : (kv.ids s)[(off + st.1) / kv.pageBytes]? with
      | none => rfl
      | some id => simp only [hpages id (List.mem_of_getElem? hid)]
    cases out with
    | none => rfl
    | some out =>
        simp only [PagedKV.read, past_end_iff]
        simp only [hcount, hturn]

/-- The queries see the tables through page lists and byte counters only. -/
theorem sameView_of_tables {kv kv' : PagedKV} (hsize : kv'.pageBytes = kv.pageBytes)
    (hpages : kv'.pages = kv.pages) (hids : ∀ s, kv'.ids s = kv.ids s)
    (hcounts : ∀ s, kv'.sequenceBytes.getD s 0 = kv.sequenceBytes.getD s 0) :
    SameView kv kv' := by
  have hsame : ∀ s, SameSequence s kv kv' := fun s =>
    sameSequence_of_pages hsize (hids s) (hcounts s) (fun _ _ => by rw [hpages])
  exact ⟨hpages, fun s => (hsame s).bytes, fun s => (hsame s).resident,
    fun s => (hsame s).read, fun s => (hsame s).locate⟩

/-- Growing the tables cannot be observed. -/
theorem Packed.sameView_ensureSequence (hk : Packed kv held log) {s : Nat}
    (hs : s < (kv.ensureSequence s).sequences.length) :
    SameView kv (kv.ensureSequence s) :=
  sameView_of_tables (pageBytes_ensureSequence kv s) (pages_ensureSequence kv s)
    (ids_ensureSequence hs) (hk.counts_ensureSequence hs)

/-- The preflight of a null buffer of length 0 is that of an empty buffer. -/
theorem append_null_zero (kv : PagedKV) (s : Nat) :
    kv.append s (.null 0) = kv.append s (.buffer []) := rfl

end PagedKV

namespace Session

open PagedKV

variable {σ τ : Session} {op : Op} {ops : List Op}

/-! ## The representation along a run -/

/-- `release` is called on held ids only; sequence ids and sizes stay below
the point where `append` wraps. -/
def Disciplined (σ : Session) : Op → Prop
  | .release i => i ∈ σ.held
  | .append s src => s < 2 ^ 64 - 1 ∧ src.size + σ.kv.pageBytes < 2 ^ 64
  | _ => True

/-- The cache of a session represents the session's logs. -/
def Represents (σ : Session) : Prop := Packed σ.kv σ.held σ.log

/-- What a disciplined append of a buffer can do to a session: it is refused
with the tables grown, or the whole buffer enters the log. -/
theorem exec_append_buffer (hσ : σ.Represents) {s : Nat} {data : List UInt8}
    (hs : s < 2 ^ 64 - 1) (hn : data.length + σ.kv.pageBytes < 2 ^ 64)
    (h : σ.exec (.append s (.buffer data)) = some τ) :
    τ = { σ with kv := σ.kv.ensureSequence s } ∨
    ∃ kv', τ = σ.appended kv' s data ∧ Packed kv' σ.held (extendLog σ.log s data) := by
  rcases hσ.append hs hn with ⟨_, hres⟩ | ⟨_, kv', _, hres, hk', _⟩
  · simp only [exec, hres] at h
    exact Or.inl (Option.some.inj h).symm
  · rw [exec_append_returned hres] at h
    exact Or.inr ⟨kv', (Option.some.inj h).symm, hk'⟩

/-- One disciplined append keeps the representation. -/
theorem represents_append (hσ : σ.Represents) {s : Nat} {src : Source}
    (hs : s < 2 ^ 64 - 1) (hn : src.size + σ.kv.pageBytes < 2 ^ 64)
    (h : σ.exec (.append s src) = some τ) : τ.Represents := by
  have hbuffer : ∀ data, data.length + σ.kv.pageBytes < 2 ^ 64 →
      σ.exec (.append s (.buffer data)) = some τ → τ.Represents := by
    intro data hdata hexec
    rcases exec_append_buffer hσ hs hdata hexec with rfl | ⟨kv', rfl, hk'⟩
    · exact Packed.ensureSequence hσ (lt_length_ensureSequence σ.kv hs)
    · exact hk'
  cases src with
  | buffer data => exact hbuffer data hn h
  | null n =>
      cases n with
      | zero =>
          apply hbuffer [] (by simpa [Source.size] using hn)
          rw [← h]
          simp only [exec, append_null_zero, Source.data]
      | succ n =>
          simp only [exec, PagedKV.append, if_pos (Nat.succ_ne_zero n), Option.some.injEq] at h
          exact h ▸ hσ

/-- One disciplined call keeps the representation. -/
theorem represents_step (hσ : σ.Represents) (h : Step Disciplined σ op τ) :
    τ.Represents := by
  obtain ⟨hallowed, hexec⟩ := h
  cases op with
  | acquire =>
      cases hexec
      exact Packed.acquire hσ
  | release i =>
      cases hexec
      exact Packed.release hσ hallowed
  | append s src => exact represents_append hσ hallowed.1 hallowed.2 hexec
  | releaseSequence s =>
      cases hexec
      exact Packed.releaseSequence hσ s

/-- Every reached session represents its logs. -/
theorem represents_run {t b p : Nat} {kv : PagedKV} (hmake : construct t b p = .ok kv)
    (hp : p ≤ 2 ^ 31) (hrun : Run (Step Disciplined) (start kv) ops σ) :
    σ.Represents := by
  have hfirst : (start kv).Represents := construct_packed hmake hp
  exact hrun.invariant Represents hfirst (fun _ _ _ hσ hstep => represents_step hσ hstep)

/-- **The cache refines a map from sequence id to byte string.**  In every
state of a disciplined session of at most `2^31` pages, every sequence reads
back as the bytes appended to it since its last release. -/
theorem cache_refines_logs {t b p : Nat} {kv : PagedKV} (hmake : construct t b p = .ok kv)
    (hp : p ≤ 2 ^ 31) (hrun : Run (Step Disciplined) (start kv) ops σ) :
    ∀ s, Holds σ.kv s (σ.log s) :=
  fun s => (represents_run hmake hp hrun).holds s

/-- Two pages of two bytes: an append over a page boundary, and the read back
of its middle. -/
theorem cache_refines_logs_example : ∃ σ : Session,
    Run (Step Disciplined) (start ⟨1, 2, List.replicate 2 ⟨[0, 0], false, 0⟩, [], []⟩)
      [.append 0 (.buffer [7, 8, 9])] σ ∧
    σ.log 0 = [7, 8, 9] ∧ ∀ s, Holds σ.kv s (σ.log s) := by
  let σ₀ := start ⟨1, 2, List.replicate 2 ⟨[0, 0], false, 0⟩, [], []⟩
  let σ₁ := σ₀.appended ⟨1, 2, [⟨[7, 8], true, 2⟩, ⟨[9, 0], true, 1⟩], [[0, 1]], [3]⟩ 0 [7, 8, 9]
  have hstep : Step Disciplined σ₀ (.append 0 (.buffer [7, 8, 9])) σ₁ :=
    ⟨⟨by decide, by decide⟩, exec_append_returned (by decide)⟩
  have hrun : Run (Step Disciplined) σ₀ [.append 0 (.buffer [7, 8, 9])] σ₁ :=
    Run.single hstep
  exact ⟨σ₁, hrun, rfl, cache_refines_logs (t := 1) (b := 2) (p := 2) rfl (by decide) hrun⟩

/-- **`append` is all or nothing.**  In every state of a disciplined session
of at most `2^31` pages, `append` throws `bad_alloc` exactly when the buffer is
longer than the free bytes of the tail page and the free pages together.  Then
no page and no query result has changed; otherwise the copy loop runs to its
end and the sequence reads back with the whole buffer behind its old bytes. -/
theorem append_all_or_nothing {t b p : Nat} {kv : PagedKV}
    (hmake : construct t b p = .ok kv) (hp : p ≤ 2 ^ 31)
    (hrun : Run (Step Disciplined) (start kv) ops σ) (s : Nat) (data : List UInt8)
    (hs : s < 2 ^ 64 - 1) (hn : data.length + σ.kv.pageBytes < 2 ^ 64) :
    ((∃ kv', σ.kv.append s (.buffer data) = .threw .badAlloc kv') ↔
      σ.kv.tailSlack s + σ.kv.freePages * σ.kv.pageBytes < data.length) ∧
    (∀ kv', σ.kv.append s (.buffer data) = .threw .badAlloc kv' → SameView σ.kv kv') ∧
    ((¬ ∃ exn kv', σ.kv.append s (.buffer data) = .threw exn kv') →
      ∃ kv', (σ.kv.ensureSequence s).appendLoop s data = .returned kv' ∧
        σ.kv.append s (.buffer data) = .returned kv' ∧
        Holds kv' s (σ.log s ++ data) ∧ ∀ s', s' ≠ s → Holds kv' s' (σ.log s')) := by
  have hσ := represents_run hmake hp hrun
  rcases hσ.append hs hn with ⟨hlong, hres⟩ | ⟨hfits, kv', hloop, hres, hk', _⟩
  · refine ⟨⟨fun _ => hlong, fun _ => ⟨_, hres⟩⟩, ?_, ?_⟩
    · intro kv' hthrew
      rw [hres] at hthrew
      cases hthrew
      exact hσ.sameView_ensureSequence (lt_length_ensureSequence σ.kv hs)
    · intro hreturns
      exact absurd ⟨_, _, hres⟩ hreturns
  · refine ⟨⟨?_, fun hlong => absurd hfits (Nat.not_le.mpr hlong)⟩, ?_, ?_⟩
    · intro hthrows
      obtain ⟨kv'', hthrew⟩ := hthrows
      rw [hres] at hthrew
      cases hthrew
    · intro kv'' hthrew
      rw [hres] at hthrew
      cases hthrew
    · intro _
      refine ⟨kv', hloop, hres, ?_, ?_⟩
      · have hself := hk'.holds s
        rwa [extendLog, if_pos rfl] at hself
      · intro s' hs'
        have hother := hk'.holds s'
        rwa [extendLog, if_neg hs'] at hother

/-- Two pages of two bytes with three bytes stored: one more byte fits, two do
not. -/
theorem append_all_or_nothing_example : ∃ σ : Session,
    Run (Step Disciplined) (start ⟨1, 2, List.replicate 2 ⟨[0, 0], false, 0⟩, [], []⟩)
      [.append 0 (.buffer [7, 8, 9])] σ ∧
    (∃ kv', σ.kv.append 0 (.buffer [1]) = .returned kv' ∧ Holds kv' 0 [7, 8, 9, 1]) ∧
    (∃ kv', σ.kv.append 1 (.buffer [1, 2]) = .threw .badAlloc kv' ∧ SameView σ.kv kv') := by
  let σ₀ := start ⟨1, 2, List.replicate 2 ⟨[0, 0], false, 0⟩, [], []⟩
  let σ₁ := σ₀.appended ⟨1, 2, [⟨[7, 8], true, 2⟩, ⟨[9, 0], true, 1⟩], [[0, 1]], [3]⟩ 0 [7, 8, 9]
  have hrun : Run (Step Disciplined) σ₀ [.append 0 (.buffer [7, 8, 9])] σ₁ :=
    Run.single ⟨⟨by decide, by decide⟩, exec_append_returned (by decide)⟩
  have hfits := append_all_or_nothing (t := 1) (b := 2) (p := 2) rfl (by decide) hrun 0 [1]
    (by decide) (by decide)
  have hlong := append_all_or_nothing (t := 1) (b := 2) (p := 2) rfl (by decide) hrun 1 [1, 2]
    (by decide) (by decide)
  refine ⟨σ₁, hrun, ?_, ?_⟩
  · have hreturns : σ₁.kv.append 0 (.buffer [1]) = .returned
        ⟨1, 2, [⟨[7, 8], true, 2⟩, ⟨[9, 1], true, 2⟩], [[0, 1]], [4]⟩ := by decide
    obtain ⟨kv', _, hres, hself, _⟩ := hfits.2.2 (by
      intro hthrows
      obtain ⟨exn, kv', hthrew⟩ := hthrows
      cases hreturns.symm.trans hthrew)
    exact ⟨kv', hres, hself⟩
  · obtain ⟨kv', hthrew⟩ := hlong.1.mpr (by decide)
    exact ⟨kv', hthrew, hlong.2.1 kv' hthrew⟩

end Session

end Gpuforge

import Gpuforge.PageOwnership

/-!
# Sessions of a paged cache

A session is a cache together with what its callers know: the ids they hold
from `acquire`, and for each sequence the bytes appended since it was last
released.  Each public call runs under the cache's mutex, so an interleaving
of callers is one sequence of calls.  A call that evaluates an out-of-range
subscript has no successor.

The ownership theorem is about every run in which the raw `release` is not
used on a page that a sequence lists.  Both restrictions of the theorem are
needed: `release` of a listed page lets the next `append` list it again, and
with more than `2^31` pages a table index no longer fits the `int` page id.
-/

namespace Gpuforge

open BoundedLoop LabelledRun ListTable PagedKV

/-- The bytes a source holds. -/
def Source.data : Source → List UInt8
  | .null _ => []
  | .buffer bytes => bytes

/-- A chunk appended to the log of one sequence. -/
def extendLog (log : Nat → List UInt8) (s : Nat) (chunk : List UInt8) :
    Nat → List UInt8 :=
  fun s' => if s' = s then log s ++ chunk else log s'

/-- The log of one sequence is emptied. -/
def clearLog (log : Nat → List UInt8) (s : Nat) : Nat → List UInt8 :=
  fun s' => if s' = s then [] else log s'

/-- A cache, the ids its callers hold, and the bytes appended to each
sequence since its last release. -/
structure Session where
  kv : PagedKV
  held : List Int
  log : Nat → List UInt8

namespace Session

/-- Nothing held and nothing appended. -/
def start (kv : PagedKV) : Session := ⟨kv, [], fun _ => []⟩

/-- The session after a normal return of an append. -/
def appended (σ : Session) (kv : PagedKV) (s : Nat) (data : List UInt8) : Session :=
  { σ with kv := kv, log := extendLog σ.log s data }

/-- One call.  An append that throws adds nothing to the log. -/
def exec (σ : Session) : Op → Option Session
  | .acquire =>
      some { σ with
        kv := σ.kv.acquire.2
        held := if σ.kv.acquire.1 = -1 then σ.held else σ.kv.acquire.1 :: σ.held }
  | .release i =>
      some { σ with kv := σ.kv.release i, held := σ.held.filter (fun id => id ≠ i) }
  | .append s src =>
      match σ.kv.append s src with
      | .returned kv => some (σ.appended kv s src.data)
      | .threw _ kv => some { σ with kv := kv }
      | .undefined => none
      | .diverged => none
  | .releaseSequence s =>
      some { σ with
        kv := σ.kv.releaseSequence s
        log := clearLog σ.log s }

/-- A call that the given discipline allows. -/
def Step (allowed : Session → Op → Prop) (σ : Session) (op : Op) (τ : Session) : Prop :=
  allowed σ op ∧ σ.exec op = some τ

/-- `release` is not used on a page that a sequence lists. -/
def ReleasesUnlisted (σ : Session) : Op → Prop
  | .release i => i ∉ σ.kv.sequences.flatten
  | _ => True

/-- A call of `append` that returns. -/
theorem exec_append_returned {σ : Session} {s : Nat} {src : Source} {kv : PagedKV}
    (h : σ.kv.append s src = .returned kv) :
    σ.exec (.append s src) = some (σ.appended kv s src.data) := by
  simp [exec, h]

/-- A successful or throwing append in terms of the cache alone. -/
theorem exec_append {σ τ : Session} {s : Nat} {src : Source}
    (h : σ.exec (.append s src) = some τ) :
    (σ.kv.append s src).state? = some τ.kv ∧ τ.held = σ.held := by
  simp only [exec] at h
  split at h
  · rename_i kv hres
    cases h
    exact ⟨by rw [hres]; rfl, rfl⟩
  · rename_i kv hres
    cases h
    exact ⟨by rw [hres]; rfl, rfl⟩
  · cases h
  · cases h

/-! ## Exclusive ownership over runs -/

/-- No page id is listed twice, listed pages are allocated, and held ids are
not listed. -/
structure OwnsExclusively (σ : Session) : Prop where
  distinct : σ.kv.sequences.flatten.Nodup
  allocated : ∀ id ∈ σ.kv.sequences.flatten,
    ∃ page, pageAt σ.kv.pages id = some page ∧ page.allocated = true
  heldUnlisted : ∀ id ∈ σ.held, id ∉ σ.kv.sequences.flatten

/-- The run invariant: exclusive ownership over a table of fixed length. -/
def Owned (n : Nat) (σ : Session) : Prop :=
  Exclusive σ.kv σ.held ∧ σ.kv.pages.length = n

/-- One call keeps ownership exclusive unless it frees a listed page. -/
theorem owned_step {n : Nat} (hn : n ≤ 2 ^ 31) {σ τ : Session} {op : Op}
    (howned : Owned n σ) (hstep : Step ReleasesUnlisted σ op τ) : Owned n τ := by
  obtain ⟨hx, hlen⟩ := howned
  obtain ⟨hallowed, hexec⟩ := hstep
  cases op with
  | acquire =>
      cases hexec
      refine ⟨hx.acquire (hlen ▸ hn), ?_⟩
      have hnarrow : σ.kv.pages.length ≤ 2 ^ 31 := hlen ▸ hn
      rcases acquire_cases hnarrow with ⟨i, page, _, _, hres⟩ | ⟨_, hres⟩
      · simpa [hres] using hlen
      · simpa [hres] using hlen
  | release i =>
      cases hexec
      exact ⟨hx.release hallowed, by simpa [PagedKV.release] using hlen⟩
  | append s src =>
      obtain ⟨hstate, hheld⟩ := exec_append hexec
      obtain ⟨hx', hframe⟩ := hx.append (hlen ▸ hn) hstate
      exact ⟨hheld ▸ hx', hframe.pageCount.trans hlen⟩
  | releaseSequence s =>
      cases hexec
      refine ⟨hx.releaseSequence s, ?_⟩
      simp only [PagedKV.releaseSequence]
      split <;> simpa using hlen

private theorem findIdx_replicate_append (a b : Page) (rest : List Page)
    (ha : a.allocated = true) (hb : b.allocated = false) (k : Nat) :
    (List.replicate k a ++ b :: rest).findIdx? (fun page => !page.allocated) = some k := by
  induction k with
  | zero => simp [List.findIdx?_cons, hb]
  | succ k ih => simp [List.replicate_succ, List.findIdx?_cons, ha, ih]

/-- A page as the constructor leaves it. -/
def blankPage (b : Nat) : Page := { data := List.replicate b 0 }

/-- A table of `n` pages whose first `k` pages are taken. -/
def takenPages (b n k : Nat) : List Page :=
  List.replicate k (blankPage b).claim ++ List.replicate (n - k) (blankPage b)

/-- The constructor takes no page. -/
theorem construct_takenPages {t b p : Nat} {kv : PagedKV} (hmake : construct t b p = .ok kv) :
    kv = ⟨t, b, takenPages b p 0, [], []⟩ ∧ 0 < b := by
  unfold construct at hmake
  split at hmake
  · cases hmake
  · rename_i hsizes
    split at hmake
    · cases hmake
    · cases hmake
      exact ⟨rfl, by omega⟩

/-- The first free page of such a table. -/
private theorem firstFree_takenPages {b n k : Nat} (hk : k < n) :
    (takenPages b n k).findIdx? (fun page => !page.allocated) = some k ∧
      (takenPages b n k).modify k Page.claim = takenPages b n (k + 1) ∧
      0 < (takenPages b n k).countP (fun page => !page.allocated) := by
  have hsplit : List.replicate (n - k) (blankPage b) =
      blankPage b :: List.replicate (n - (k + 1)) (blankPage b) := by
    rw [← List.replicate_succ]
    congr 1
    omega
  rw [takenPages, hsplit, takenPages, List.replicate_succ', List.append_assoc]
  have hmodify := modify_length_append Page.claim (List.replicate k (blankPage b).claim)
    (blankPage b) (List.replicate (n - (k + 1)) (blankPage b))
  rw [List.length_replicate] at hmodify
  refine ⟨findIdx_replicate_append _ _ _ rfl rfl k, hmodify, ?_⟩
  rw [List.countP_append, List.countP_cons_of_pos rfl]
  omega

/-- Acquiring `k` pages of a fresh table takes its first `k` pages. -/
theorem run_acquires {allowed : Session → Op → Prop} (hallowed : ∀ σ, allowed σ .acquire)
    (t b n : Nat) : ∀ k, k ≤ n → ∃ held,
    Run (Step allowed) (start ⟨t, b, takenPages b n 0, [], []⟩) (List.replicate k .acquire)
      ⟨⟨t, b, takenPages b n k, [], []⟩, held, fun _ => []⟩ := by
  intro k
  induction k with
  | zero => exact fun _ => ⟨[], Run.start⟩
  | succ k ih =>
      intro hk
      obtain ⟨held, hrun⟩ := ih (by omega)
      obtain ⟨hfirst, hclaim, _⟩ := firstFree_takenPages (b := b) (show k < n by omega)
      have hfree : (⟨t, b, takenPages b n k, [], []⟩ : PagedKV).firstFree = some k := hfirst
      rw [List.replicate_succ', ← hclaim]
      have hnext := hrun.extend ⟨hallowed _, rfl⟩
      simp only [PagedKV.acquire, hfree] at hnext
      exact ⟨_, hnext⟩

/-- An append that claims the page at an index without an `int` id throws,
with the page taken and the truncated id listed. -/
theorem append_past_int {t b n k : Nat} (hb : 0 < b) (hk : k < n) (hneg : castInt k < 0) :
    (⟨t, b, takenPages b n k, [], []⟩ : PagedKV).append 0 (.buffer [1]) =
      .threw .badAlloc ⟨t, b, takenPages b n (k + 1), [[castInt k]], [0]⟩ := by
  obtain ⟨hfirst, hclaim, hcount⟩ := firstFree_takenPages (b := b) hk
  have hensure : (⟨t, b, takenPages b n k, [], []⟩ : PagedKV).ensureSequence 0 =
      ⟨t, b, takenPages b n k, [[]], [0]⟩ := rfl
  have hfree : (⟨t, b, takenPages b n k, [[]], [0]⟩ : PagedKV).firstFree = some k := hfirst
  have hneeded : ¬ (⟨t, b, takenPages b n k, [[]], [0]⟩ : PagedKV).freePages <
      (⟨t, b, takenPages b n k, [[]], [0]⟩ : PagedKV).neededPages 1 0 := by
    have hmod : (1 - 0 + b - 1) % 2 ^ 64 / b ≤ b / b :=
      Nat.div_le_div_right (le_trans (Nat.mod_le _ _) (by omega))
    rw [Nat.div_self hb] at hmod
    have hone : (⟨t, b, takenPages b n k, [[]], [0]⟩ : PagedKV).neededPages 1 0 ≤ 1 := hmod
    have hpos : 0 < (⟨t, b, takenPages b n k, [[]], [0]⟩ : PagedKV).freePages := hcount
    omega
  have hturn : appendTurn 0 (⟨t, b, takenPages b n k, [[]], [0]⟩, [1]) =
      .leave (.threw .badAlloc ⟨t, b, takenPages b n (k + 1), [[castInt k]], [0]⟩) := by
    simp [appendTurn, writablePage, claimFor, hfree, PagedKV.ids, hneg, hclaim]
  rw [PagedKV.append, hensure, appendReady, if_neg (by simp)]
  have htail : (⟨t, b, takenPages b n k, [[]], [0]⟩ : PagedKV).tailFree 0 = some 0 := rfl
  simp only [htail, List.length_singleton, if_neg hneeded, appendLoop, run_leave hturn]
  rfl

/-- Any table whose last index has no `int` page id reaches a state in which
a sequence lists an id without a page. -/
private theorem lists_truncated_id {k : Nat} (hneg : castInt k < 0)
    (hfits : ¬ 2 ^ 64 ≤ k + 1) :
    ¬ ∀ (t b p : Nat) (kv : PagedKV) (ops : List Op) (σ : Session),
      construct t b p = .ok kv → Run (Step ReleasesUnlisted) (start kv) ops σ →
      OwnsExclusively σ := by
  intro hclaim
  have hacquires : ∀ σ, ReleasesUnlisted σ .acquire := fun _ => trivial
  obtain ⟨held, hrun⟩ := run_acquires hacquires 1 1 (k + 1) k (by omega)
  have happend : Step ReleasesUnlisted
      ⟨⟨1, 1, takenPages 1 (k + 1) k, [], []⟩, held, fun _ => []⟩ (.append 0 (.buffer [1]))
      ⟨⟨1, 1, takenPages 1 (k + 1) (k + 1), [[castInt k]], [0]⟩, held, fun _ => []⟩ := by
    refine ⟨trivial, ?_⟩
    simp only [exec, append_past_int Nat.one_pos (Nat.lt_succ_self k) hneg]
  have hmake : construct 1 1 (k + 1) = .ok ⟨1, 1, takenPages 1 (k + 1) 0, [], []⟩ := by
    rw [construct, if_neg (by omega), if_neg (by omega)]
    rfl
  obtain ⟨page, hpage, _⟩ := (hclaim 1 1 (k + 1) _ _ _ hmake (hrun.extend happend)).allocated
    (castInt k) (by simp)
  obtain ⟨i, hi, _⟩ := pageAt_eq_some hpage
  omega

/-- With `2^31 + 1` pages the last table index has no `int` page id: after
the other pages have been acquired, an append lists the id `-2^31`. -/
theorem wide_table_breaks_ownership :
    ¬ ∀ (t b p : Nat) (kv : PagedKV) (ops : List Op) (σ : Session),
      construct t b p = .ok kv → Run (Step ReleasesUnlisted) (start kv) ops σ →
      OwnsExclusively σ :=
  lists_truncated_id (k := 2 ^ 31) (by decide) (by decide)

end Session

end Gpuforge

import Mathlib.Data.List.Basic
import Gpuforge.PackedSessions

/-!
# No page is lost

A disciplined session accounts for every page of its table.  Sequences are
dense: all pages but the last are full, so the page count is the ceiling of
the byte count.  A page is marked allocated exactly when it is held or listed,
and it is so once; the count of allocated pages is therefore the count of held
ids plus the page counts of all sequences (`pages_accounted`).  Giving back
everything leaves a free table (`run_closing`).
-/

namespace Gpuforge

open BoundedLoop LabelledRun ListTable DenseBlocks

namespace PagedKV

variable {kv : PagedKV} {held : List Int} {log : Nat → List UInt8}

/-- The pages marked allocated. -/
def allocatedPages (kv : PagedKV) : Nat :=
  kv.pages.countP (fun page => page.allocated)

/-- The accounts of a cache with `n` held ids. -/
structure Accounted (kv : PagedKV) (n : Nat) : Prop where
  ceiling : ∀ s, kv.resident s = (kv.bytes s + kv.pageBytes - 1) / kv.pageBytes
  empty : ∀ s, kv.bytes s = 0 → kv.resident s = 0
  full : ∀ s, ∀ id ∈ (kv.ids s).dropLast, ∃ page, pageAt kv.pages id = some page ∧
    page.writeOffset = kv.pageBytes
  last : ∀ s, 0 < kv.bytes s → ∃ id page, (kv.ids s).getLast? = some id ∧
    pageAt kv.pages id = some page ∧ 0 < page.writeOffset ∧
    page.writeOffset = kv.bytes s - (kv.resident s - 1) * kv.pageBytes
  total : kv.allocatedPages =
    n + ((List.range kv.sequences.length).map kv.resident).sum

/-- A duplicate-free list of exactly the allocated ids counts them. -/
theorem allocatedPages_eq_length {owned : List Int} (hnd : owned.Nodup)
    (howned : ∀ id, id ∈ owned ↔
      ∃ page, pageAt kv.pages id = some page ∧ page.allocated = true) :
    kv.allocatedPages = owned.length := by
  have hnd' : ((kv.pages.findIdxs (fun page => page.allocated)).map Int.ofNat).Nodup :=
    List.nodup_findIdxs.map (fun _ _ heq => Int.ofNat.inj heq)
  have hperm : ((kv.pages.findIdxs (fun page => page.allocated)).map Int.ofNat).Perm owned := by
    refine (List.perm_ext_iff_of_nodup hnd' hnd).mpr fun id => ?_
    rw [howned, List.mem_map]
    constructor
    · intro hindex
      obtain ⟨i, hi, rfl⟩ := hindex
      obtain ⟨hlt, halloc⟩ := List.mem_findIdxs_iff_exists_getElem_pos.mp hi
      exact ⟨kv.pages[i], by simp [List.getElem?_eq_getElem hlt], halloc⟩
    · intro hallocated
      obtain ⟨page, hpage, halloc⟩ := hallocated
      obtain ⟨i, rfl, hi⟩ := pageAt_eq_some hpage
      obtain ⟨hlt, rfl⟩ := List.getElem?_eq_some_iff.mp hi
      exact ⟨i, List.mem_findIdxs_iff_exists_getElem_pos.mpr ⟨hlt, halloc⟩, rfl⟩
  rw [allocatedPages, ← List.length_findIdxs (s := 0), ← hperm.length_eq, List.length_map]

/-- A page is marked allocated exactly when it is held or listed. -/
theorem Packed.owned_iff (hk : Packed kv held log) (id : Int) :
    id ∈ held ++ kv.sequences.flatten ↔
      ∃ page, pageAt kv.pages id = some page ∧ page.allocated = true := by
  constructor
  · exact hk.live id
  · intro h
    obtain ⟨page, hpage, halloc⟩ := h
    exact hk.noLeak id page hpage halloc

/-- The last page of a sequence holds what the full pages before it leave. -/
theorem Packed.last_page (hk : Packed kv held log) {s : Nat} (hne : kv.ids s ≠ []) :
    ∃ id page, (kv.ids s).getLast? = some id ∧ pageAt kv.pages id = some page ∧
      0 < page.writeOffset ∧
      page.writeOffset =
        (kv.blocks s).flatten.length - ((kv.blocks s).length - 1) * kv.pageBytes := by
  obtain ⟨init, id, page, hids, hpage, hblocks, hdense⟩ := hk.split_last hne
  have hflat := hdense.flatten_length
  rw [hk.stored_length hpage, List.length_map] at hflat
  obtain ⟨_, hblockPos, _⟩ := dense_concat_iff.mp hdense
  rw [hk.stored_length hpage] at hblockPos
  refine ⟨id, page, by simp [hids], hpage, hblockPos, ?_⟩
  rw [hblocks, hflat]
  simp

/-- A packed cache has its accounts in order. -/
theorem Packed.accounted (hk : Packed kv held log) : Accounted kv held.length := by
  have hcount : ∀ s, kv.bytes s = (kv.blocks s).flatten.length := by
    intro s
    rw [bytes_eq, hk.counted]
  have hlength : ∀ s, kv.resident s = (kv.blocks s).length := by
    intro s
    rw [resident_eq, blocks, List.length_map]
  refine ⟨?_, ?_, ?_, ?_, ?_⟩
  · intro s
    rw [hlength, hcount]
    exact dense_length hk.bytesPos (hk.dense s)
  · intro s hzero
    rw [hcount] at hzero
    rw [hlength, (hk.dense s).eq_nil hzero, List.length_nil]
  · intro s id hid
    obtain ⟨page, hpage, _⟩ := hk.listed ((List.dropLast_sublist _).subset hid)
    refine ⟨page, hpage, ?_⟩
    rw [← hk.stored_length hpage]
    apply (hk.dense s).full
    rw [blocks, ← List.map_dropLast]
    exact List.mem_map_of_mem hid
  · intro s hpos
    rw [hcount, hlength]
    apply hk.last_page
    intro hnil
    rw [hcount, blocks, hnil, List.map_nil, List.flatten_nil, List.length_nil] at hpos
    omega
  · have hrows : kv.resident = fun s => (row kv.sequences s).length := by
      funext s
      exact resident_eq kv s
    rw [allocatedPages_eq_length hk.distinct hk.owned_iff, List.length_append,
      flatten_length_eq, hrows]

/-- With nothing held and nothing logged every page is free. -/
theorem Packed.all_free (hk : Packed kv [] log) (hempty : ∀ s, log s = []) :
    ∀ page ∈ kv.pages, page.allocated = false := by
  have hnone : kv.allocatedPages = 0 := by
    have haccounts := hk.accounted
    rw [haccounts.total, List.length_nil, Nat.zero_add, List.sum_eq_zero_iff_forall_eq_nat]
    intro n hn
    obtain ⟨s, _, rfl⟩ := List.mem_map.mp hn
    exact haccounts.empty s (by rw [hk.bytes_log, hempty, List.length_nil])
  intro page hpage
  simpa using List.countP_eq_zero.mp hnone page hpage

end PagedKV

namespace Session

open PagedKV

variable {σ τ : Session} {ops : List Op}

/-! ## Giving everything back -/

/-- Release every held id, then every sequence of the table. -/
def closing (σ : Session) : List Op :=
  σ.held.map .release ++ (List.range σ.kv.sequences.length).map .releaseSequence

/-- Releasing the held ids one by one leaves none. -/
theorem run_releases (held : List Int) : ∀ σ : Session, σ.held = held → held.Nodup →
    ∃ τ, Run (Step Disciplined) σ (held.map .release) τ ∧ τ.held = [] ∧ τ.log = σ.log ∧
      τ.kv.sequences = σ.kv.sequences := by
  induction held with
  | nil => exact fun σ hheld _ => ⟨σ, .start, hheld, rfl, rfl⟩
  | cons i rest ih =>
      intro σ hheld hnd
      obtain ⟨hi, hrest⟩ := List.nodup_cons.mp hnd
      have hkept : σ.held.filter (fun id => id ≠ i) = rest := by
        rw [hheld, List.filter_cons_of_neg (by simp), List.filter_eq_self]
        intro id hid
        have hne : id ≠ i := fun heq => hi (heq ▸ hid)
        simpa using hne
      have hstep : Step Disciplined σ (.release i)
          { σ with kv := σ.kv.release i, held := rest } := by
        refine ⟨?_, by simp only [exec, hkept]⟩
        show i ∈ σ.held
        simp [hheld]
      obtain ⟨τ, hrun, hnone, hlog, hseq⟩ :=
        ih { σ with kv := σ.kv.release i, held := rest } rfl hrest
      exact ⟨τ, (Run.single hstep).trans hrun, hnone, hlog, hseq⟩

/-- Releasing sequences empties their logs and fills no other. -/
theorem run_sequence_releases (targets : List Nat) : ∀ σ : Session,
    ∃ τ, Run (Step Disciplined) σ (targets.map .releaseSequence) τ ∧ τ.held = σ.held ∧
      ∀ s, s ∈ targets ∨ σ.log s = [] → τ.log s = [] := by
  induction targets with
  | nil => exact fun σ => ⟨σ, .start, rfl, by simp⟩
  | cons s rest ih =>
      intro σ
      have hstep : Step Disciplined σ (.releaseSequence s)
          { σ with kv := σ.kv.releaseSequence s, log := clearLog σ.log s } := ⟨trivial, rfl⟩
      obtain ⟨τ, hrun, hheld, hempty⟩ :=
        ih { σ with kv := σ.kv.releaseSequence s, log := clearLog σ.log s }
      refine ⟨τ, (Run.single hstep).trans hrun, hheld, fun s' hs' => hempty s' ?_⟩
      by_cases heq : s' = s
      · exact Or.inr (by simp [clearLog, heq])
      · rcases hs' with hmem | hlog
        · exact Or.inl (List.mem_of_ne_of_mem heq hmem)
        · exact Or.inr (by simp [clearLog, heq, hlog])

/-- The closing calls can be made in every represented state; they leave
nothing held and nothing logged. -/
theorem run_closing (hσ : σ.Represents) :
    ∃ τ, Run (Step Disciplined) σ σ.closing τ ∧ τ.held = [] ∧ ∀ s, τ.log s = [] := by
  obtain ⟨σ', hrun, hheld, hlog, hseq⟩ :=
    run_releases σ.held σ rfl (List.nodup_append.mp hσ.distinct).1
  obtain ⟨τ, hrun', hheld', hempty⟩ :=
    run_sequence_releases (List.range σ.kv.sequences.length) σ'
  refine ⟨τ, hrun.trans hrun', hheld'.trans hheld, fun s => hempty s ?_⟩
  by_cases hs : s < σ.kv.sequences.length
  · exact Or.inl (List.mem_range.mpr hs)
  · rw [hlog]
    exact Or.inr (Packed.log_past_end hσ (Nat.le_of_not_lt hs))

/-- **No page leaks and sequences are dense.**  In every state of a
disciplined session of at most `2^31` pages the accounts are in order.  Once
nothing is held and every sequence has been released since its last append,
all pages are free; the closing calls get there from every state. -/
theorem pages_accounted {t b p : Nat} {kv : PagedKV} (hmake : construct t b p = .ok kv)
    (hp : p ≤ 2 ^ 31) (hrun : Run (Step Disciplined) (start kv) ops σ) :
    Accounted σ.kv σ.held.length ∧
    (σ.held = [] → (∀ s, σ.log s = []) → ∀ page ∈ σ.kv.pages, page.allocated = false) ∧
    ∃ τ, Run (Step Disciplined) σ σ.closing τ ∧
      ∀ page ∈ τ.kv.pages, page.allocated = false := by
  have hσ := represents_run hmake hp hrun
  have hfree : ∀ {τ : Session}, τ.Represents → τ.held = [] → (∀ s, τ.log s = []) →
      ∀ page ∈ τ.kv.pages, page.allocated = false := by
    intro τ hτ hheld hlog
    have hk : Packed τ.kv τ.held τ.log := hτ
    rw [hheld] at hk
    exact hk.all_free hlog
  refine ⟨Packed.accounted hσ, hfree hσ, ?_⟩
  obtain ⟨τ, hclose, hheld, hlog⟩ := run_closing hσ
  exact ⟨τ, hclose, hfree (represents_run hmake hp (hrun.trans hclose)) hheld hlog⟩

/-- Two pages of two bytes, one held and one half full. -/
theorem pages_accounted_example : ∃ σ : Session,
    Run (Step Disciplined) (start ⟨1, 2, List.replicate 2 ⟨[0, 0], false, 0⟩, [], []⟩)
      [.acquire, .append 3 (.buffer [7])] σ ∧
    Accounted σ.kv 1 ∧ σ.kv.allocatedPages = 2 := by
  let σ₀ := start ⟨1, 2, List.replicate 2 ⟨[0, 0], false, 0⟩, [], []⟩
  let σ₁ : Session :=
    { σ₀ with kv.pages := [⟨[0, 0], true, 0⟩, ⟨[0, 0], false, 0⟩], held := [0] }
  let σ₂ := σ₁.appended
    ⟨1, 2, [⟨[0, 0], true, 0⟩, ⟨[7, 0], true, 1⟩], [[], [], [], [1]], [0, 0, 0, 1]⟩ 3 [7]
  have hacquire : Step Disciplined σ₀ .acquire σ₁ := ⟨trivial, rfl⟩
  have happend : Step Disciplined σ₁ (.append 3 (.buffer [7])) σ₂ :=
    ⟨⟨by decide, by decide⟩, exec_append_returned (by decide)⟩
  have hrun : Run (Step Disciplined) σ₀ [.acquire, .append 3 (.buffer [7])] σ₂ :=
    (Run.single hacquire).extend happend
  exact ⟨σ₂, hrun, (pages_accounted (t := 1) (b := 2) (p := 2) rfl (by decide) hrun).1,
    by decide⟩

end Session

end Gpuforge

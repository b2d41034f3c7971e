import Gpuforge.PackedAppend

/-!
# Construction and release on a packed cache

The calls that copy no bytes keep the representation too: a fresh cache
represents empty logs, `acquire` and `release` move a page between the table
and the ids held, and `release_sequence` empties one log and frees exactly the
pages that log was stored in.
-/

namespace Gpuforge

open BoundedLoop LabelledRun ListTable DenseBlocks

namespace PagedKV

variable {kv : PagedKV} {held : List Int} {log : Nat → List UInt8}

/-- A fresh cache represents empty logs. -/
theorem construct_packed {t b p : Nat} (h : construct t b p = .ok kv) (hp : p ≤ 2 ^ 31) :
    Packed kv [] (fun _ => []) := by
  have hx := construct_exclusive h
  unfold construct at h
  split at h
  · cases h
  · rename_i hzero
    split at h
    · cases h
    · rename_i hroom
      cases h
      have hpage : ∀ id page, pageAt (List.replicate p
          ({ data := List.replicate b 0 } : Page)) id = some page →
          page = { data := List.replicate b 0 } := by
        intro id page hpage
        obtain ⟨i, rfl, hi⟩ := pageAt_eq_some hpage
        exact List.eq_of_mem_replicate (List.mem_of_getElem? hi)
      refine ⟨hx, by show 0 < b; omega, by simpa using hp, by simpa using hroom, ?_, ?_, ?_,
        ?_, ?_⟩
      · intro id page hid
        rw [hpage id page hid]
        simp
      · intro id page hid halloc
        rw [hpage id page hid] at halloc
        cases halloc
      · intro s
        simpa [blocks, PagedKV.ids] using dense_nil
      · simp [blocks, PagedKV.ids]
      · simp [blocks, PagedKV.ids]

/-- `acquire` keeps the representation; the page it hands out is held. -/
theorem Packed.acquire (hk : Packed kv held log) :
    Packed kv.acquire.2 (if kv.acquire.1 = -1 then held else kv.acquire.1 :: held) log := by
  have hx := hk.toExclusive.acquire hk.narrow
  rcases acquire_cases hk.narrow with ⟨i, page, hpage, hfree, hres⟩ | ⟨_, hres⟩
  · have hunowned := hk.free_unowned hpage hfree
    have hi : ¬ ((i : Int) = -1) := by omega
    simp only [hres, if_neg hi] at hx ⊢
    refine hk.of_listed hx rfl (by simp) (fun _ => rfl) (fun _ => rfl) ?_ ?_ ?_
    · intro s id hid
      have hne : (i : Int) ≠ id := by
        rintro rfl
        exact hunowned (List.mem_append_right _ (mem_flatten_of_mem_ids hid))
      exact (pageAt_updatePage _ _ _ _).trans (if_neg hne)
    · intro id page' hpage'
      rw [pageAt_updatePage] at hpage'
      split at hpage'
      · obtain ⟨old, hold, rfl⟩ := Option.map_eq_some_iff.mp hpage'
        exact ⟨(hk.sized id old hold).1, Nat.zero_le _⟩
      · exact hk.sized id page' hpage'
    · intro id page' hpage' halloc
      by_cases hid : (i : Int) = id
      · exact hid ▸ List.mem_cons_self
      · rw [pageAt_updatePage, if_neg hid] at hpage'
        exact List.mem_cons_of_mem _ (hk.noLeak id page' hpage' halloc)
  · simpa [hres] using hk

/-- What freeing ids does to the sizes of pages. -/
theorem Packed.sized_free (hk : Packed kv held log) {id : Int} {page : Page}
    {freed : Prop} [Decidable freed]
    (h : (if freed then (pageAt kv.pages id).map Page.free else pageAt kv.pages id) =
      some page) :
    page.data.length = kv.pageBytes ∧ page.writeOffset ≤ kv.pageBytes := by
  split at h
  · obtain ⟨old, hold, rfl⟩ := Option.map_eq_some_iff.mp h
    exact ⟨(hk.sized id old hold).1, Nat.zero_le _⟩
  · exact hk.sized id page h

/-- A page still allocated after ids were freed was not among them. -/
theorem allocated_not_freed {pages : List Page} {id : Int} {page : Page}
    {freed : Prop} [Decidable freed]
    (h : (if freed then (pageAt pages id).map Page.free else pageAt pages id) = some page)
    (halloc : page.allocated = true) : ¬ freed ∧ pageAt pages id = some page := by
  split at h
  · obtain ⟨old, _, rfl⟩ := Option.map_eq_some_iff.mp h
    cases halloc
  · rename_i hkept
    exact ⟨hkept, h⟩

/-- `release` of a held id keeps the representation. -/
theorem Packed.release (hk : Packed kv held log) {i : Int} (hi : i ∈ held) :
    Packed (kv.release i) (held.filter (fun id => id ≠ i)) log := by
  have hunlisted : i ∉ kv.sequences.flatten := fun hlisted =>
    (List.nodup_append.mp hk.distinct).2.2 i hi i hlisted rfl
  refine hk.of_listed (hk.toExclusive.release hunlisted) rfl (length_freePage _ _)
    (fun _ => rfl) (fun _ => rfl) ?_ ?_ ?_
  · intro s id hid
    have hne : i ≠ id := by
      rintro rfl
      exact hunlisted (mem_flatten_of_mem_ids hid)
    exact (pageAt_freePage _ _ _).trans (if_neg hne)
  · intro id page hpage
    exact hk.sized_free ((pageAt_freePage _ _ _).symm.trans hpage)
  · intro id page hpage halloc
    obtain ⟨hne, hold⟩ := allocated_not_freed ((pageAt_freePage _ _ _).symm.trans hpage) halloc
    rcases List.mem_append.mp (hk.noLeak id page hold halloc) with hheld | hlisted
    · exact List.mem_append_left _ (List.mem_filter.mpr ⟨hheld, by simpa using Ne.symm hne⟩)
    · exact List.mem_append_right _ hlisted

/-- The cache after `release_sequence` on a sequence of the table. -/
def withoutSequence (kv : PagedKV) (s : Nat) : PagedKV :=
  { kv with
    pages := (kv.ids s).foldl freePage kv.pages
    sequences := kv.sequences.set s []
    sequenceBytes := kv.sequenceBytes.set s 0 }

/-- Dropping a sequence touches nothing that others name. -/
theorem withoutSequence_frame (hnd : (held ++ kv.sequences.flatten).Nodup) (s : Nat) :
    Frame s held kv (kv.withoutSequence s) := by
  obtain ⟨_, hlisted, hapart⟩ := List.nodup_append.mp hnd
  refine ⟨rfl, length_foldl_freePage _ _, fun s' hs' => row_set_ne hs', ?_, ?_⟩
  · intro s' hs'
    simp [withoutSequence, List.getD_eq_getElem?_getD, List.getElem?_set_ne (Ne.symm hs')]
  · intro id hid
    have hkept : id ∉ kv.ids s := by
      intro hmem
      rcases hid with hheld | ⟨s', hs', hmem'⟩
      · exact hapart id hheld id (mem_flatten_of_mem_ids hmem) rfl
      · exact row_disjoint hlisted (Ne.symm hs') hmem hmem'
    exact (pageAt_foldl_freePage _ _ _).trans (if_neg hkept)

/-- Dropping a sequence of the table keeps the representation. -/
theorem Packed.withoutSequence (hk : Packed kv held log) {s : Nat}
    (hs : s < kv.sequences.length) (hx : Exclusive (kv.withoutSequence s) held) :
    Packed (kv.withoutSequence s) held (clearLog log s) := by
  have hcount : s < kv.sequenceBytes.length := by
    rw [hk.aligned]
    exact hs
  have hblocks : (kv.withoutSequence s).blocks s = [] := by
    have hids : (kv.sequences.set s []).getD s [] = [] := row_set_self hs
    simp only [blocks, PagedKV.ids, PagedKV.withoutSequence, hids, List.map_nil]
  apply hk.of_frame hx (withoutSequence_frame hk.distinct s)
  · intro id page hpage
    exact hk.sized_free ((pageAt_foldl_freePage _ _ _).symm.trans hpage)
  · intro id page hpage halloc
    obtain ⟨hkept, hold⟩ :=
      allocated_not_freed ((pageAt_foldl_freePage _ _ _).symm.trans hpage) halloc
    rcases List.mem_append.mp (hk.noLeak id page hold halloc) with hheld | hlisted
    · exact List.mem_append_left _ hheld
    · have hperm := flatten_clear_perm kv.sequences s
      rcases List.mem_append.mp (hperm.symm.subset hlisted) with hrow | hrest
      · exact absurd hrow hkept
      · exact List.mem_append_right _ hrest
  · rw [hblocks]
    exact dense_nil
  · rw [hblocks]
    simp [PagedKV.withoutSequence, List.getD_eq_getElem?_getD, hcount]
  · rw [hblocks, clearLog, if_pos rfl]
    rfl
  · intro s' hs'
    rw [clearLog, if_neg hs']

/-- `release_sequence` keeps the representation and empties one log. -/
theorem Packed.releaseSequence (hk : Packed kv held log) (s : Nat) :
    Packed (kv.releaseSequence s) held (clearLog log s) := by
  have hx := hk.toExclusive.releaseSequence s
  unfold PagedKV.releaseSequence at hx ⊢
  split
  · rename_i hs
    have hsame : clearLog log s = log := by
      funext s'
      by_cases hs' : s' = s <;> simp [clearLog, hs', hk.log_past_end hs]
    rwa [hsame]
  · rename_i hs
    have hlt : s < kv.sequences.length := Nat.lt_of_not_le hs
    have hcount : s < kv.sequenceBytes.length := by
      rw [hk.aligned]
      exact hlt
    rw [if_neg hs, if_pos hcount] at hx
    rw [if_pos hcount]
    exact hk.withoutSequence hlt hx

end PagedKV

end Gpuforge

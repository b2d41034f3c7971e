import Gpuforge.PackedSessions

/-!
# `locate` and `read` on one layout

`locate` and `read` do the page arithmetic each on their own.  On a packed cache they find
the same place: the page that `locate` names holds, at the offset it gives, the byte that
`read` delivers.  No place is given twice, because no page is listed twice and a page index
with an offset in the page determines the position in the sequence.
-/

namespace Gpuforge

open BoundedLoop LabelledRun ListTable DenseBlocks

namespace PagedKV

variable {kv : PagedKV} {held : List Int} {log : Nat → List UInt8}

/-- A place that holds the byte at offset `off` of sequence `s`: it lies in a page of the
sequence, and a read of one byte delivers what is stored there. -/
structure PlaceOf (kv : PagedKV) (s off : Nat) (location : Location) : Prop where
  listed : location.page ∈ kv.ids s
  inside : location.offset < kv.pageBytes
  readBack : ∃ page byte, pageAt kv.pages location.page = some page ∧
    page.data[location.offset]? = some byte ∧
    ∀ old rest, kv.read s off (some (old :: rest)) 1 = .returned (1, byte :: rest)

/-- `locate` and `read` describe one layout: exactly the offsets below the byte count have
a place, and different bytes have different places. -/
structure OneLayout (kv : PagedKV) : Prop where
  answer : ∀ s off, ∃ location, kv.locate s off = .returned location ∧
    (location.valid = true ↔ off < kv.bytes s) ∧
    (location.valid = true → kv.PlaceOf s off location)
  apart : ∀ s off s' off' location location', kv.locate s off = .returned location →
    kv.locate s' off' = .returned location' → location.valid = true → location'.valid = true →
    (s, off) ≠ (s', off') →
    (location.page, location.offset) ≠ (location'.page, location'.offset)

/-- Past the byte count there is no place. -/
theorem locate_past_end {s off : Nat} (h : kv.bytes s ≤ off) : kv.locate s off = .returned {} := by
  rw [bytes_eq] at h
  rw [locate, if_pos ((past_end_iff kv s off).mpr h)]

/-- A valid location is the listed page at the quotient, with the remainder as its offset. -/
theorem locate_valid {s off : Nat} {location : Location}
    (h : kv.locate s off = .returned location) (hvalid : location.valid = true) :
    (kv.ids s)[off / kv.pageBytes]? = some location.page ∧
      location.offset = off % kv.pageBytes := by
  rw [locate] at h
  split at h
  · cases h
    cases hvalid
  · split at h
    · cases h
      cases hvalid
    · rename_i id hid
      split at h
      · cases h
      · cases h
        exact ⟨hid, rfl⟩

/-- **A byte has a place.**  Below the byte count `locate` names a page of the sequence, and
a read of one byte delivers the byte stored there. -/
theorem Packed.locate (hk : Packed kv held log) {s off : Nat} (h : off < kv.bytes s) :
    ∃ id, kv.locate s off = .returned ⟨id, off % kv.pageBytes, true⟩ ∧
      kv.PlaceOf s off ⟨id, off % kv.pageBytes, true⟩ := by
  have hlog : off < (log s).length := by
    rw [← hk.bytes_log]
    exact h
  obtain ⟨id, page, hid, hpage, halloc, hin, hslice⟩ := hk.page_at_offset hlog
  have hfound : kv.locate s off = .returned ⟨id, off % kv.pageBytes, true⟩ := by
    rw [bytes_eq] at h
    rw [PagedKV.locate, if_neg (mt (past_end_iff kv s off).mp (Nat.not_le.mpr h))]
    simp only [hid, hpage, halloc]
  obtain ⟨hdata, hoffset⟩ := hk.sized id page hpage
  have hmod : off % kv.pageBytes < page.data.length := by omega
  refine ⟨id, hfound, List.mem_of_getElem? hid, Nat.mod_lt off hk.bytesPos,
    page, page.data[off % kv.pageBytes], hpage, List.getElem?_eq_getElem hmod, ?_⟩
  intro old rest
  -- the slice of one byte at the place is the slice of the log that `read` copies
  have hone := hslice 1 (by omega) (by omega)
  rw [List.drop_eq_getElem_cons hmod, List.take_succ_cons, List.take_zero] at hone
  rw [hk.read s off (old :: rest) Nat.one_pos, ← hone, Nat.min_eq_left (by omega)]
  rfl

/-- Two bytes of a packed cache share no place. -/
theorem Packed.place_apart (hk : Packed kv held log) {s off s' off' : Nat}
    {location location' : Location} (h : kv.locate s off = .returned location)
    (h' : kv.locate s' off' = .returned location') (hvalid : location.valid = true)
    (hvalid' : location'.valid = true) (hpage : location.page = location'.page)
    (hoffset : location.offset = location'.offset) : s = s' ∧ off = off' := by
  obtain ⟨hid, hrest⟩ := locate_valid h hvalid
  obtain ⟨hid', hrest'⟩ := locate_valid h' hvalid'
  rw [← hpage] at hid'
  have hnd : kv.sequences.flatten.Nodup := (List.nodup_append.mp hk.distinct).2.1
  obtain ⟨hsequence, hquotient⟩ := place_unique hnd hid hid'
  refine ⟨hsequence, ?_⟩
  have hremainder : off % kv.pageBytes = off' % kv.pageBytes := by
    rw [← hrest, hoffset, hrest']
  rw [← Nat.div_add_mod off kv.pageBytes, hquotient, hremainder, Nat.div_add_mod]

/-- On a packed cache `locate` and `read` describe one layout. -/
theorem Packed.oneLayout (hk : Packed kv held log) : kv.OneLayout := by
  refine ⟨?_, ?_⟩
  · intro s off
    by_cases hoff : off < kv.bytes s
    · obtain ⟨id, hfound, hplace⟩ := hk.locate hoff
      exact ⟨_, hfound, by simp [hoff], fun _ => hplace⟩
    · exact ⟨{}, locate_past_end (Nat.le_of_not_lt hoff), by simp [hoff], by simp⟩
  · intro s off s' off' location location' h h' hvalid hvalid' hne heq
    obtain ⟨hpage, hoffset⟩ := Prod.mk.inj heq
    obtain ⟨hsequence, hoff⟩ := hk.place_apart h h' hvalid hvalid' hpage hoffset
    exact hne (by rw [hsequence, hoff])

end PagedKV

namespace Session

open PagedKV

variable {σ : Session} {ops : List Op}

/-- **`locate` and `read` agree, and no two bytes share a place.**  In every state of a
disciplined session of fewer than `2^31` pages, `locate` is valid exactly below the byte
count; the place it names is in a page of the sequence and stores the byte that a read of
one byte delivers; and different bytes, of one sequence or of two, have different places. -/
theorem locate_agrees_with_read {t b p : Nat} {kv : PagedKV} (hmake : construct t b p = .ok kv)
    (hp : p < 2 ^ 31) (hrun : Run (Step Disciplined) (start kv) ops σ) : σ.kv.OneLayout :=
  (represents_run hmake (Nat.le_of_lt hp) hrun).oneLayout

/-- Two pages of two bytes with three bytes stored: the last byte stands at the start of the
second page. -/
theorem locate_agrees_with_read_example : ∃ σ : Session,
    Run (Step Disciplined) (start ⟨1, 2, List.replicate 2 ⟨[0, 0], false, 0⟩, [], []⟩)
      [.append 0 (.buffer [7, 8, 9])] σ ∧
    σ.kv.locate 0 2 = .returned ⟨1, 0, true⟩ ∧ σ.kv.OneLayout := by
  let σ₀ := start ⟨1, 2, List.replicate 2 ⟨[0, 0], false, 0⟩, [], []⟩
  let σ₁ := σ₀.appended ⟨1, 2, [⟨[7, 8], true, 2⟩, ⟨[9, 0], true, 1⟩], [[0, 1]], [3]⟩ 0 [7, 8, 9]
  have hrun : Run (Step Disciplined) σ₀ [.append 0 (.buffer [7, 8, 9])] σ₁ :=
    Run.single ⟨⟨by decide, by decide⟩, exec_append_returned (by decide)⟩
  exact ⟨σ₁, hrun, by decide,
    locate_agrees_with_read (t := 1) (b := 2) (p := 2) rfl (by decide) hrun⟩

end Session

end Gpuforge

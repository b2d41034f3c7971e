import Gpuforge.PackedAppend

/-!
# `read` and `locate` on a packed cache

`read` walks the requested range page by page, finding each page by division
and the position in it by remainder.  On a packed cache that is the addressing
of dense blocks, so the chunks it copies are consecutive slices of the log.
-/

namespace Gpuforge

open BoundedLoop ListTable DenseBlocks

namespace PagedKV

variable {kv : PagedKV} {held : List Int} {log : Nat → List UInt8}

/-- The range checks of `read` and `locate` compare with the byte counter,
which is 0 past the end of the table. -/
theorem past_end_iff (kv : PagedKV) (s off : Nat) :
    (kv.sequenceBytes.length ≤ s ∨ kv.sequenceBytes.getD s 0 ≤ off) ↔
      kv.sequenceBytes.getD s 0 ≤ off := by
  constructor
  · rintro (hs | hoff)
    · simp [List.getD_eq_getElem?_getD, List.getElem?_eq_none hs]
    · exact hoff
  · exact Or.inr

/-- **Addressing of a packed sequence.**  The byte at offset `k` lies in the
page listed at `k / page_bytes`; from `k % page_bytes` on that page holds the
log from `k` on, up to its write offset. -/
theorem Packed.page_at_offset (hk : Packed kv held log) {s k : Nat}
    (hlt : k < (log s).length) :
    ∃ id page, (kv.ids s)[k / kv.pageBytes]? = some id ∧
      pageAt kv.pages id = some page ∧ page.allocated = true ∧
      k % kv.pageBytes < page.writeOffset ∧
      ∀ c, c ≤ (log s).length - k → c ≤ kv.pageBytes - k % kv.pageBytes →
        (page.data.drop (k % kv.pageBytes)).take c = ((log s).drop k).take c := by
  have hflat := hk.logged s
  obtain ⟨block, hblock, hin, hfullOrLast, hdrop⟩ := dense_drop (hk.dense s)
    (show k < (kv.blocks s).flatten.length by rw [hflat]; exact hlt)
  rw [hflat] at hdrop
  simp only [blocks, List.getElem?_map, Option.map_eq_some_iff] at hblock
  obtain ⟨id, hid, rfl⟩ := hblock
  obtain ⟨page, hpage, halloc⟩ := hk.listed (List.mem_of_getElem? hid)
  have hlen := hk.stored_length hpage
  refine ⟨id, page, hid, hpage, halloc, by omega, ?_⟩
  intro c hc hfit
  -- the chunk ends within the written part of the page
  have hwithin : c ≤ page.writeOffset - k % kv.pageBytes := by
    rcases hfullOrLast with hfull | hlast
    · omega
    · have hlogLen := congrArg List.length hdrop
      rw [hlast, List.flatten_nil, List.append_nil, List.length_drop, List.length_drop] at hlogLen
      omega
  have hlenBlock : ((stored kv.pages id).drop (k % kv.pageBytes)).length =
      page.writeOffset - k % kv.pageBytes := by
    rw [List.length_drop, hlen]
  rw [hdrop, List.take_append_of_le_length (by omega), stored_of_pageAt hpage, List.drop_take,
    List.take_take, Nat.min_eq_left hwithin]

/-- **One turn of `read`.**  While bytes are missing, the next chunk of the
log is copied behind what has been copied before. -/
theorem Packed.readTurn (hk : Packed kv held log) {s off n copied : Nat} (out : List UInt8)
    (hn : off + n ≤ (log s).length) (hcopied : copied < n) :
    ∃ c, 0 < c ∧ copied + c ≤ n ∧
      kv.readTurn s off n (copied, memcpy out 0 (((log s).drop off).take copied)) =
        .again (copied + c, memcpy out 0 (((log s).drop off).take (copied + c))) := by
  obtain ⟨id, page, hid, hpage, _, hin, hslice⟩ :=
    hk.page_at_offset (show off + copied < (log s).length by omega)
  have hmod := Nat.mod_lt (off + copied) hk.bytesPos
  refine ⟨min (n - copied) (kv.pageBytes - (off + copied) % kv.pageBytes),
    by omega, by omega, ?_⟩
  have hfirst : (((log s).drop off).take copied).length = copied := by
    rw [List.length_take, List.length_drop]
    omega
  have hchunk := hslice (min (n - copied) (kv.pageBytes - (off + copied) % kv.pageBytes))
    (by omega) (by omega)
  have hcopy := memcpy_memcpy out (((log s).drop off).take copied)
    (((log s).drop (off + copied)).take
      (min (n - copied) (kv.pageBytes - (off + copied) % kv.pageBytes)))
  rw [hfirst, ← List.drop_drop, ← List.take_add, List.drop_drop] at hcopy
  simp only [PagedKV.readTurn, if_pos hcopied, hid, hpage, hchunk, hcopy]

/-- The read loop copies exactly the requested slice of the log. -/
theorem Packed.readLoop (hk : Packed kv held log) (s off n : Nat) (out : List UInt8)
    (hn : off + n ≤ (log s).length) :
    run (kv.readTurn s off n) (n + 1) (0, out) =
      some (.returned (n, memcpy out 0 (((log s).drop off).take n))) := by
  let inv : Nat × List UInt8 → Prop := fun st =>
    st.1 ≤ n ∧ st.2 = memcpy out 0 (((log s).drop off).take st.1)
  have hagain : ∀ st st', inv st → kv.readTurn s off n st = .again st' →
      inv st' ∧ n - st'.1 < n - st.1 := by
    intro st st' hinv hturn
    obtain ⟨copied, dst⟩ := st
    obtain ⟨hle, hdst⟩ := hinv
    simp only at hle hdst
    subst hdst
    by_cases hlt : copied < n
    · obtain ⟨c, hpos, hfit, hnext⟩ := hk.readTurn out hn hlt
      rw [hnext] at hturn
      cases hturn
      refine ⟨⟨hfit, rfl⟩, ?_⟩
      show n - (copied + c) < n - copied
      omega
    · simp [PagedKV.readTurn, hlt] at hturn
  have hleave : ∀ st r, inv st → kv.readTurn s off n st = .leave r →
      r = .returned (n, memcpy out 0 (((log s).drop off).take n)) := by
    intro st r hinv hturn
    obtain ⟨copied, dst⟩ := st
    obtain ⟨hle, hdst⟩ := hinv
    simp only at hle hdst
    subst hdst
    by_cases hlt : copied < n
    · obtain ⟨c, _, _, hnext⟩ := hk.readTurn out hn hlt
      rw [hnext] at hturn
      cases hturn
    · simp only [PagedKV.readTurn, if_neg hlt] at hturn
      cases hturn
      have hdone : copied = n := by omega
      rw [hdone]
  obtain ⟨r, hrun, rfl⟩ := run_total inv _ (fun st => n - st.1) hagain hleave
    (n + 1) (0, out) (by simp) ⟨Nat.zero_le n, by simp [memcpy_nil]⟩
  exact hrun

/-- **`read` on a packed cache.**  It returns the number of log bytes from
the offset on, at most `n`, and writes exactly these to the output. -/
theorem Packed.read (hk : Packed kv held log) (s off : Nat) (out : List UInt8) {n : Nat}
    (hn : 0 < n) :
    kv.read s off (some out) n =
      .returned (min n ((log s).length - off), memcpy out 0 (((log s).drop off).take n)) := by
  have hcount : kv.sequenceBytes.getD s 0 = (log s).length := by
    rw [hk.counted, hk.logged]
  have hpast : (kv.sequenceBytes.length ≤ s ∨ kv.sequenceBytes.getD s 0 ≤ off) ↔
      (log s).length ≤ off := by
    rw [past_end_iff, hcount]
  have hne : ¬ n = 0 := by omega
  by_cases hoff : (log s).length ≤ off
  · simp only [PagedKV.read, if_neg hne, if_pos (hpast.mpr hoff)]
    rw [List.drop_of_length_le hoff, List.take_nil, memcpy_nil, Nat.sub_eq_zero_of_le hoff,
      Nat.min_zero]
  · have hloop := hk.readLoop s off (min n ((log s).length - off)) out (by omega)
    have hslice : ((log s).drop off).take (min n ((log s).length - off)) =
        ((log s).drop off).take n := by
      rw [← List.length_drop, ← List.take_eq_take_min]
    rw [PagedKV.read, if_neg hne, if_neg (mt hpast.mp hoff)]
    simp only [hcount, hloop, hslice, Option.getD_some]

end PagedKV

end Gpuforge

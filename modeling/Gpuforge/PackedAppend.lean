import Gpuforge.PackedSequences

/-!
# `append` is all or nothing

The preflight counts the free bytes of the tail and the free pages; the copy
loop finds its pages by its own scan.  On a packed cache the two agree: a
buffer passes the preflight exactly when tail and free pages have room for it,
and then the loop copies all of it.  A refused buffer leaves only empty rows
in the sequence tables behind, which no observer can tell from no rows.
-/

namespace Gpuforge

open BoundedLoop LabelledRun ListTable DenseBlocks

/-- Appending nothing changes no log. -/
theorem extendLog_nil (log : Nat → List UInt8) (s : Nat) : extendLog log s [] = log := by
  funext s'
  by_cases h : s' = s
  · simp [extendLog, h]
  · simp [extendLog, h]

/-- Two chunks appended in turn are one chunk. -/
theorem extendLog_extendLog (log : Nat → List UInt8) (s : Nat) (a b : List UInt8) :
    extendLog (extendLog log s a) s b = extendLog log s (a ++ b) := by
  funext s'
  by_cases h : s' = s
  · simp [extendLog, h]
  · simp [extendLog, h]

namespace PagedKV

variable {kv : PagedKV} {held : List Int} {log : Nat → List UInt8}

/-! ## The copy loop on a packed cache -/

/-- What holds between two turns: the part of the buffer already copied is in
the log, and the cache has room for the rest. -/
def Copying (kv : PagedKV) (held : List Int) (log : Nat → List UInt8) (s : Nat)
    (data : List UInt8) (st : PagedKV × List UInt8) : Prop :=
  (∃ done, data = done ++ st.2 ∧ Packed st.1 held (extendLog log s done)) ∧
  Frame s held kv st.1 ∧ s < st.1.sequences.length ∧
  st.2.length ≤ st.1.tailSlack s + st.1.freePages * st.1.pageBytes

/-- With a full tail there are no free bytes in it. -/
theorem tailSlack_of_tailFull {s : Nat} (h : TailFull kv s) : kv.tailSlack s = 0 := by
  unfold tailSlack
  split
  · rfl
  · rename_i id htail
    split
    · rfl
    · rename_i page hpage
      have := h id htail page hpage
      omega

/-- The free bytes of a tail page that exists. -/
theorem tailSlack_eq {s : Nat} {id : Int} {page : Page}
    (htail : (kv.ids s).getLast? = some id) (hpage : pageAt kv.pages id = some page) :
    kv.tailSlack s = kv.pageBytes - page.writeOffset := by
  simp [tailSlack, htail, hpage]

/-- **One turn of the copy loop.**  While data is left the loop goes round
again, and the invariant holds with one chunk more in the log. -/
theorem Copying.turn {s : Nat} {data : List UInt8} {kv₁ : PagedKV} {left : List UInt8}
    (h : Copying kv held log s data (kv₁, left)) (hleft : left ≠ []) :
    ∃ st, appendTurn s (kv₁, left) = .again st ∧ Copying kv held log s data st := by
  obtain ⟨⟨done, hdata, hk⟩, hframe, hs, hroom⟩ := h
  simp only at hdata hk hframe hs hroom
  have hpos : 0 < left.length := List.length_pos_iff.mpr hleft
  have hsplit : ∀ n, data = (done ++ left.take n) ++ left.drop n := by
    intro n
    rw [List.append_assoc, List.take_append_drop]
    exact hdata
  rcases appendTurn_cases hk.toExclusive hk.narrow (s := s) hleft with
    ⟨id, page, htail, hpage, hlt, hturn⟩ | ⟨hfull, i, page, hpage, hfree, hturn⟩ |
    ⟨hfull, hnone, hturn⟩
  · refine ⟨_, hturn, ⟨_, hsplit _, ?_⟩, ?_, hs, ?_⟩
    · rw [← extendLog_extendLog]
      apply hk.extendTail hs htail hpage
      rw [List.length_take]
      omega
    · exact hframe.trans (hk.store_frame (List.mem_of_getLast? htail) _)
    · rw [tailSlack_eq htail hpage] at hroom
      rw [freePages_store, List.length_drop]
      show _ ≤ _ + kv₁.freePages * kv₁.pageBytes
      omega
  · refine ⟨_, hturn, ⟨_, hsplit _, ?_⟩, ?_, ?_, ?_⟩
    · rw [← extendLog_extendLog]
      apply hk.pushPage hs hfull hpage hfree
      · have hbytes := hk.bytesPos
        rw [List.length_take]
        omega
      · rw [List.length_take]
        omega
    · have hids : (kv₁.claimed s i).ids s = kv₁.ids s ++ [(i : Int)] := row_set_self hs
      exact (hframe.trans (hk.claimed_frame hpage hfree)).trans
        ((hk.toExclusive.claimed hs hpage hfree).store_frame (by simp [hids]) _)
    · simpa [PagedKV.store, PagedKV.claimed] using hs
    · have hcount := freePages_claimed (s := s) hpage hfree
      rw [tailSlack_of_tailFull hfull, ← hcount, Nat.add_mul] at hroom
      rw [freePages_store, List.length_drop]
      show _ ≤ _ + (kv₁.claimed s i).freePages * kv₁.pageBytes
      omega
  · rw [tailSlack_of_tailFull hfull, hnone] at hroom
    omega

/-- **The copy loop.**  On a packed cache with room for the buffer the loop
returns, with the whole buffer appended to the sequence. -/
theorem Packed.appendLoop (hk : Packed kv held log) {s : Nat}
    (hs : s < kv.sequences.length) (data : List UInt8)
    (hroom : data.length ≤ kv.tailSlack s + kv.freePages * kv.pageBytes) :
    ∃ kv', kv.appendLoop s data = .returned kv' ∧
      Packed kv' held (extendLog log s data) ∧ Frame s held kv kv' := by
  have hagain : ∀ st st', Copying kv held log s data st → appendTurn s st = .again st' →
      Copying kv held log s data st' ∧
      st'.2.length + st'.1.freePages < st.2.length + st.1.freePages := by
    intro st st' hst hturn
    obtain ⟨kv₁, left⟩ := st
    refine ⟨?_, appendTurn_decreases hturn⟩
    by_cases hleft : left = []
    · simp [appendTurn, hleft] at hturn
    · obtain ⟨st, hst', hcopying⟩ := hst.turn hleft
      rw [hst'] at hturn
      cases hturn
      exact hcopying
  have hleave : ∀ st r, Copying kv held log s data st → appendTurn s st = .leave r →
      ∃ kv', r = .returned kv' ∧ Packed kv' held (extendLog log s data) ∧
        Frame s held kv kv' := by
    intro st r hst hturn
    obtain ⟨kv₁, left⟩ := st
    by_cases hleft : left = []
    · simp only [appendTurn, hleft, if_pos] at hturn
      cases hturn
      obtain ⟨⟨done, hdata, hk₁⟩, hframe, _, _⟩ := hst
      rw [hleft, List.append_nil] at hdata
      exact ⟨kv₁, rfl, hdata ▸ hk₁, hframe⟩
    · obtain ⟨st, hst', _⟩ := hst.turn hleft
      rw [hst'] at hturn
      cases hturn
  have hstart : Copying kv held log s data (kv, data) :=
    ⟨⟨[], rfl, by rw [extendLog_nil]; exact hk⟩, Frame.refl s held kv, hs, hroom⟩
  obtain ⟨r, hrun, kv', rfl, hpost⟩ := run_total _ _
    (fun st => st.2.length + st.1.freePages) hagain hleave
    (data.length + kv.freePages + 1) (kv, data) (Nat.lt_succ_self _) hstart
  exact ⟨kv', by rw [PagedKV.appendLoop, hrun]; rfl, hpost⟩

/-! ## Growth of the tables and the preflight -/

/-- Below the largest `size_t` the tables grow to include the sequence. -/
theorem lt_length_ensureSequence (kv : PagedKV) {s : Nat} (hs : s < 2 ^ 64 - 1) :
    s < (kv.ensureSequence s).sequences.length := by
  unfold ensureSequence
  split
  · rw [length_resize, Nat.mod_eq_of_lt (by omega)]
    exact Nat.lt_succ_self s
  · omega

/-- Growing the tables keeps the representation. -/
theorem Packed.ensureSequence (hk : Packed kv held log) {s : Nat}
    (hs : s < (kv.ensureSequence s).sequences.length) :
    Packed (kv.ensureSequence s) held log := by
  have hlisted : ∀ id, id ∈ kv.sequences.flatten →
      id ∈ (kv.ensureSequence s).sequences.flatten := by
    intro id hid
    obtain ⟨s', hs'⟩ := mem_flatten_iff.mp hid
    have hmem : id ∈ (kv.ensureSequence s).ids s' := by
      rw [ids_ensureSequence hs]
      exact hs'
    exact mem_flatten_of_mem_ids hmem
  refine hk.of_listed (hk.toExclusive.ensureSequence s) (by simp) (by simp)
    (ids_ensureSequence hs) (hk.counts_ensureSequence hs) (by simp) (by simpa using hk.sized) ?_
  intro id page hpage halloc
  rw [pages_ensureSequence] at hpage
  rcases List.mem_append.mp (hk.noLeak id page hpage halloc) with hheld | hid
  · exact List.mem_append_left _ hheld
  · exact List.mem_append_right _ (hlisted id hid)

/-- The preflight asks for more pages than there are exactly when the buffer
is longer than the free bytes of the tail and the free pages together. -/
theorem freePages_lt_needed (kv : PagedKV) {s left : Nat} (hbytes : 0 < kv.pageBytes)
    (hleft : left + kv.pageBytes < 2 ^ 64) :
    kv.freePages < kv.neededPages left (kv.tailSlack s) ↔
      kv.tailSlack s + kv.freePages * kv.pageBytes < left := by
  unfold neededPages
  split
  · constructor
    · intro h
      omega
    · intro h
      have := Nat.zero_le (kv.freePages * kv.pageBytes)
      omega
  · rw [Nat.mod_eq_of_lt (by omega), Nat.lt_iff_add_one_le, Nat.le_div_iff_mul_le hbytes,
      Nat.add_mul]
    omega

/-- **What `append` does on a packed cache.**  Either the buffer is too long
and only the tables have grown, or all of it is appended. -/
theorem Packed.append (hk : Packed kv held log) {s : Nat} (hs : s < 2 ^ 64 - 1)
    {data : List UInt8} (hn : data.length + kv.pageBytes < 2 ^ 64) :
    (kv.tailSlack s + kv.freePages * kv.pageBytes < data.length ∧
      kv.append s (.buffer data) = .threw .badAlloc (kv.ensureSequence s)) ∨
    (data.length ≤ kv.tailSlack s + kv.freePages * kv.pageBytes ∧
      ∃ kv', (kv.ensureSequence s).appendLoop s data = .returned kv' ∧
        kv.append s (.buffer data) = .returned kv' ∧
        Packed kv' held (extendLog log s data) ∧ Frame s held kv kv') := by
  have hlt := lt_length_ensureSequence kv hs
  have hk₁ := hk.ensureSequence hlt
  have hslack : (kv.ensureSequence s).tailSlack s = kv.tailSlack s := by
    simp [tailSlack, ids_ensureSequence hlt]
  have hfree : (kv.ensureSequence s).freePages = kv.freePages := by
    simp [freePages]
  have hbytes := pageBytes_ensureSequence kv s
  have hpreflight := freePages_lt_needed (kv.ensureSequence s) (s := s)
    (by rw [hbytes]; exact hk.bytesPos) (by rw [hbytes]; exact hn)
  rw [hslack, hfree, hbytes] at hpreflight
  have happend : kv.append s (.buffer data) =
      if kv.freePages < (kv.ensureSequence s).neededPages data.length (kv.tailSlack s) then
        .threw .badAlloc (kv.ensureSequence s)
      else (kv.ensureSequence s).appendLoop s data := by
    rw [PagedKV.append, appendReady, if_neg (Nat.not_le.mpr hlt), hk₁.tailFree_eq s, hslack,
      hfree]
  by_cases hlong : kv.tailSlack s + kv.freePages * kv.pageBytes < data.length
  · exact Or.inl ⟨hlong, by rw [happend, if_pos (hpreflight.mpr hlong)]⟩
  · obtain ⟨kv', hloop, hk', hframe⟩ := hk₁.appendLoop hlt data
      (by rw [hslack, hfree, hbytes]; omega)
    have hpass := mt hpreflight.mp hlong
    exact Or.inr ⟨by omega, kv', hloop, by rw [happend, if_neg hpass, hloop], hk',
      (hk.ensureSequence_frame hlt).trans hframe⟩

end PagedKV

end Gpuforge

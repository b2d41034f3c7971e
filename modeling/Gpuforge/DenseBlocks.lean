import Mathlib.Data.List.Basic

/-!
# Sequences cut into blocks of one size

A sequence of items may be stored as a list of blocks: every block but the
last holds exactly `size` items and the last holds at least one.  The stored
sequence is the concatenation of the blocks.  This file has the arithmetic of
that layout:

* `dense_concat_iff` — the shape at the tail, where a writer works: either
  the last block grows, or a new last block follows full ones;
* `dense_length` — the number of blocks is the ceiling of the item count
  over the block size;
* `dense_drop` — the item at offset `k` stands in block `k / size` at
  position `k % size`, and what follows it is the rest of that block and
  then the later blocks.
-/

namespace DenseBlocks

universe u

variable {α : Type u} {size : Nat}

/-- Every block but the last is full; the last one holds between one item
and a full block. -/
structure Dense (size : Nat) (blocks : List (List α)) : Prop where
  full : ∀ block ∈ blocks.dropLast, block.length = size
  last : ∀ block ∈ blocks.getLast?, 0 < block.length ∧ block.length ≤ size

/-- No blocks at all is the layout of the empty sequence. -/
theorem dense_nil : Dense size ([] : List (List α)) :=
  ⟨by simp, by simp⟩

/-- The layout read off at its last block. -/
theorem dense_concat_iff {init : List (List α)} {block : List α} :
    Dense size (init ++ [block]) ↔
      (∀ b ∈ init, b.length = size) ∧ 0 < block.length ∧ block.length ≤ size := by
  constructor
  · intro hboth
    obtain ⟨hfull, hlast⟩ := hboth
    exact ⟨by simpa using hfull, by simpa using hlast⟩
  · intro hboth
    obtain ⟨hfull, hlast⟩ := hboth
    exact ⟨by simpa using hfull, by simpa using hlast⟩

/-- Full blocks concatenate to a multiple of the block size. -/
theorem flatten_length_of_full {blocks : List (List α)}
    (hfull : ∀ b ∈ blocks, b.length = size) :
    blocks.flatten.length = blocks.length * size := by
  induction blocks with
  | nil => simp
  | cons b rest ih =>
      have hb : b.length = size := hfull b List.mem_cons_self
      have hrest := ih (fun c hc => hfull c (List.mem_cons_of_mem _ hc))
      simp only [List.flatten_cons, List.length_append, List.length_cons]
      rw [hb, hrest, Nat.add_mul]
      omega

/-- A nonempty dense layout is full blocks followed by one last block. -/
theorem Dense.split_last {blocks : List (List α)} (h : Dense size blocks)
    (hne : blocks ≠ []) :
    ∃ init block, blocks = init ++ [block] ∧
      (∀ b ∈ init, b.length = size) ∧ 0 < block.length ∧ block.length ≤ size := by
  rcases List.eq_nil_or_concat blocks with hnil | ⟨init, block, hcat⟩
  · exact absurd hnil hne
  · rw [List.concat_eq_append] at hcat
    subst hcat
    exact ⟨init, block, rfl, dense_concat_iff.mp h⟩

/-- The number of items in terms of the last block. -/
theorem Dense.flatten_length {init : List (List α)} {block : List α}
    (h : Dense size (init ++ [block])) :
    (init ++ [block]).flatten.length = init.length * size + block.length := by
  simp [flatten_length_of_full (dense_concat_iff.mp h).1]

/-- A dense layout of nothing has no blocks. -/
theorem Dense.eq_nil {blocks : List (List α)} (h : Dense size blocks)
    (hempty : blocks.flatten.length = 0) : blocks = [] := by
  by_contra hne
  obtain ⟨init, block, rfl, _, hpos, _⟩ := h.split_last hne
  rw [h.flatten_length] at hempty
  omega

/-- No layout holds more than its blocks have room for. -/
theorem Dense.flatten_length_le {blocks : List (List α)} (h : Dense size blocks) :
    blocks.flatten.length ≤ blocks.length * size := by
  by_cases hne : blocks = []
  · simp [hne]
  · obtain ⟨init, block, rfl, _, _, hle⟩ := h.split_last hne
    rw [h.flatten_length, List.length_append, List.length_singleton, Nat.add_mul]
    omega

/-- **Block count.**  The number of blocks is the ceiling of the number of
items over the block size. -/
theorem dense_length {blocks : List (List α)} (hsize : 0 < size)
    (h : Dense size blocks) :
    blocks.length = (blocks.flatten.length + size - 1) / size := by
  by_cases hne : blocks = []
  · subst hne
    simp [Nat.div_eq_of_lt (Nat.sub_lt hsize Nat.one_pos)]
  · obtain ⟨init, block, rfl, _, hpos, hle⟩ := h.split_last hne
    rw [h.flatten_length, List.length_append, List.length_singleton]
    have harith : init.length * size + block.length + size - 1 =
        (block.length - 1) + (init.length + 1) * size := by
      rw [Nat.add_mul]
      omega
    rw [harith, Nat.add_mul_div_right _ _ hsize, Nat.div_eq_of_lt (by omega)]
    omega

/-- Dropping whole full blocks from the concatenation drops them from the
block list. -/
theorem drop_full_blocks {front : List (List α)}
    (hfull : ∀ b ∈ front, b.length = size) (back : List (List α)) (r : Nat) :
    (front ++ back).flatten.drop (front.length * size + r) =
      back.flatten.drop r := by
  rw [List.flatten_append, ← flatten_length_of_full hfull, List.drop_append,
    List.drop_of_length_le (by omega), List.nil_append]
  congr 1
  omega

/-- **Addressing.**  The item at offset `k` stands in block `k / size` at
position `k % size`; from there on the sequence is the rest of that block
followed by the later blocks, of which there are none unless the block is
full. -/
theorem dense_drop {blocks : List (List α)} {k : Nat}
    (h : Dense size blocks) (hk : k < blocks.flatten.length) :
    ∃ block, blocks[k / size]? = some block ∧ k % size < block.length ∧
      (block.length = size ∨ blocks.drop (k / size + 1) = []) ∧
      blocks.flatten.drop k =
        block.drop (k % size) ++ (blocks.drop (k / size + 1)).flatten := by
  have hne : blocks ≠ [] := by
    rintro rfl
    simp at hk
  obtain ⟨init, last, rfl, hfull, hpos, hle⟩ := h.split_last hne
  rw [h.flatten_length] at hk
  have hsize : 0 < size := by omega
  have hdm : size * (k / size) + k % size = k := Nat.div_add_mod k size
  have hmod : k % size < size := Nat.mod_lt k hsize
  -- the block lies either among the full ones or at the end
  by_cases hin : k / size < init.length
  · have hb : (init[k / size]).length = size := hfull _ (List.getElem_mem hin)
    have hsplit : init = init.take (k / size) ++ init[k / size] :: init.drop (k / size + 1) := by
      rw [← List.drop_eq_getElem_cons hin, List.take_append_drop]
    refine ⟨init[k / size], ?_, by omega, Or.inl hb, ?_⟩
    · rw [List.getElem?_append_left hin, List.getElem?_eq_getElem hin]
    · have hlen : (init.take (k / size)).length = k / size := by
        rw [List.length_take]
        omega
      have htake : ∀ b ∈ init.take (k / size), b.length = size :=
        fun b hb => hfull b (List.mem_of_mem_take hb)
      have hdrop := drop_full_blocks htake
        ((init[k / size] :: init.drop (k / size + 1)) ++ [last]) (k % size)
      rw [hlen, ← List.append_assoc, ← hsplit, Nat.mul_comm, hdm] at hdrop
      rw [hdrop, List.cons_append, List.flatten_cons, List.drop_append_of_le_length (by omega),
        List.drop_append_of_le_length (by omega)]
  · have hlt : k / size < init.length + 1 := by
      apply (Nat.div_lt_iff_lt_mul hsize).mpr
      rw [Nat.add_mul]
      omega
    have hidx : k / size = init.length := by omega
    refine ⟨last, by simp [hidx], ?_, ?_⟩
    · rw [hidx, Nat.mul_comm] at hdm
      omega
    · have hdrop := drop_full_blocks hfull [last] (k % size)
      rw [← hidx, Nat.mul_comm, hdm] at hdrop
      have hrest : (init ++ [last]).drop (k / size + 1) = [] :=
        List.drop_of_length_le (by simp [hidx])
      rw [hdrop, hrest]
      simp

end DenseBlocks

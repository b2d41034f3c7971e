import Mathlib.Data.List.Perm.Basic

/-!
# The smallest elements of a growing list

A list that is sorted and cut to a limit after every element that comes in.  Among equal
elements the sort is free to keep any.  What is kept are smallest elements of all that
came in (`Keeps.insert`): an element that was cut is no smaller than the ones that pushed
it out, and those only make room for smaller ones.

`minElement` goes through a list once, for a comparison that says which element comes
strictly before which.
-/

namespace SmallestKept

variable {α : Type*}

section keeping

variable {le : α → α → Prop} {limit : Nat} {kept all : List α} {sort : List α → List α}

/-- `kept` is in order and has, up to the limit, the smallest elements of `all`. -/
structure Keeps (le : α → α → Prop) (limit : Nat) (kept all : List α) : Prop where
  ordered : kept.Pairwise le
  length : kept.length = min limit all.length
  smallest : ∃ dropped, (kept ++ dropped).Perm all ∧ ∀ a ∈ kept, ∀ b ∈ dropped, le a b

/-- Nothing of nothing. -/
theorem keeps_nil (le : α → α → Prop) (limit : Nat) : Keeps le limit [] [] where
  ordered := List.Pairwise.nil
  length := by rw [List.length_nil, Nat.min_zero]
  smallest := ⟨[], List.Perm.nil, by simp⟩

/-- What is kept has come in. -/
theorem Keeps.mem (h : Keeps le limit kept all) {a : α} (ha : a ∈ kept) : a ∈ all := by
  obtain ⟨dropped, hperm, _⟩ := h.smallest
  exact hperm.mem_iff.mp (List.mem_append_left _ ha)

/-- Something that was dropped says that the limit is reached. -/
theorem Keeps.full (h : Keeps le limit kept all) {dropped : List α}
    (hperm : (kept ++ dropped).Perm all) {b : α} (hb : b ∈ dropped) : kept.length = limit := by
  have hcount := hperm.length_eq
  have hpos : 0 < dropped.length := List.length_pos_of_mem hb
  have hlength := h.length
  rw [List.length_append] at hcount
  omega

/-- Over the limit, what stays of one element more is no larger than what was larger than
everything before: the one that is cut was kept before, or else it is the new one. -/
theorem le_of_cut (htrans : ∀ a b c, le a b → le b c → le a c) {stay : List α} {cut x b : α}
    (hperm : (stay ++ [cut]).Perm (kept ++ [x])) (hcut : ∀ a ∈ stay, le a cut)
    (hold : ∀ a ∈ kept, le a b) : ∀ a ∈ stay, le a b := by
  intro a ha
  have hmem : cut ∈ kept ++ [x] := hperm.mem_iff.mp (by simp)
  rcases List.mem_append.mp hmem with hkept | hnew
  · exact htrans a cut b (hcut a ha) (hold cut hkept)
  · rw [List.mem_singleton.mp hnew] at hperm
    exact hold a (((List.perm_append_right_iff [x]).mp hperm).mem_iff.mp ha)

/-- **One element more.**  Sorting it in and cutting to the limit keeps smallest elements
of everything. -/
theorem Keeps.insert (htrans : ∀ a b c, le a b → le b c → le a c)
    (hperm : ∀ xs, (sort xs).Perm xs) (hordered : ∀ xs, (sort xs).Pairwise le)
    (h : Keeps le limit kept all) (x : α) :
    Keeps le limit ((sort (kept ++ [x])).take limit) (all ++ [x]) := by
  have hsorted := hordered (kept ++ [x])
  have hsame := hperm (kept ++ [x])
  have hcount := hsame.length_eq
  have hlength := h.length
  rw [List.length_append, List.length_singleton] at hcount
  obtain ⟨dropped, hall, hold⟩ := h.smallest
  generalize sort (kept ++ [x]) = sorted at hsorted hsame hcount ⊢
  rw [← List.take_append_drop limit sorted] at hsorted hsame
  have hcut := (List.pairwise_append.mp hsorted).2.2
  refine ⟨(List.pairwise_append.mp hsorted).1, ?_, sorted.drop limit ++ dropped, ?_, ?_⟩
  · rw [List.length_take, List.length_append, List.length_singleton]
    omega
  · rw [← List.append_assoc]
    refine (hsame.append_right dropped).trans ?_
    rw [List.append_assoc]
    refine (List.perm_append_comm.append_left kept).trans ?_
    rw [← List.append_assoc]
    exact hall.append_right [x]
  · intro a ha b hb
    rcases List.mem_append.mp hb with hnow | hbefore
    · exact hcut a ha b hnow
    · have hfull := h.full hall hbefore
      have hone : (sorted.drop limit).length = 1 := by
        rw [List.length_drop]
        omega
      obtain ⟨cut, hcutEq⟩ := List.length_eq_one_iff.mp hone
      rw [hcutEq] at hsame hcut
      exact le_of_cut htrans hsame (fun c hc => hcut c hc cut (by simp))
        (fun c hc => hold c hc b hbefore) a ha

/-- The first element that is kept is no larger than any that came in. -/
theorem Keeps.head_le {first : α} {rest : List α} (hrefl : ∀ a, le a a)
    (h : Keeps le limit (first :: rest) all) {x : α} (hx : x ∈ all) : le first x := by
  obtain ⟨dropped, hperm, hold⟩ := h.smallest
  rcases List.mem_append.mp (hperm.mem_iff.mpr hx) with hkept | hdropped
  · rcases List.mem_cons.mp hkept with heq | hrest
    · rw [heq]
      exact hrefl first
    · exact (List.pairwise_cons.mp h.ordered).1 x hrest
  · exact hold first List.mem_cons_self x hdropped

end keeping

/-! ## The smallest element -/

section smallest

variable {before : α → α → Bool}

/-- `std::min_element`: the first element that no other one comes before. -/
def minElement (before : α → α → Bool) : List α → Option α
  | [] => none
  | first :: rest =>
      some (rest.foldl (fun smallest x => if before x smallest then x else smallest) first)

/-- A comparison of a strict weak order. -/
structure StrictWeak (before : α → α → Bool) : Prop where
  asymm : ∀ a b, before a b = true → before b a = false
  trans : ∀ a b c, before a b = false → before b c = false → before a c = false

/-- Nothing comes before itself. -/
theorem StrictWeak.irrefl (h : StrictWeak before) (a : α) : before a a = false := by
  cases hself : before a a with
  | false => rfl
  | true => exact hself.symm.trans (h.asymm a a hself)

/-- The loop ends at an element of the list that none of it comes before. -/
theorem foldl_least (h : StrictWeak before) (rest : List α) (smallest : α) :
    ∃ least ∈ smallest :: rest,
      rest.foldl (fun smallest x => if before x smallest then x else smallest) smallest = least ∧
        ∀ y ∈ smallest :: rest, before y least = false := by
  induction rest generalizing smallest with
  | nil =>
      refine ⟨smallest, List.mem_cons_self, rfl, ?_⟩
      intro y hy
      rw [List.mem_singleton.mp hy]
      exact h.irrefl smallest
  | cons x rest ih =>
      rw [List.foldl_cons]
      cases hx : before x smallest with
      | true =>
          obtain ⟨least, hmem, hfold, hleast⟩ := ih x
          refine ⟨least, List.mem_cons_of_mem _ hmem, hfold, ?_⟩
          intro y hy
          rcases List.mem_cons.mp hy with heq | hrest
          · rw [heq]
            exact h.trans _ x _ (h.asymm x smallest hx) (hleast x List.mem_cons_self)
          · exact hleast y hrest
      | false =>
          obtain ⟨least, hmem, hfold, hleast⟩ := ih smallest
          have hsmallest := hleast smallest List.mem_cons_self
          refine ⟨least, ?_, hfold, ?_⟩
          · rcases List.mem_cons.mp hmem with heq | hrest
            · rw [heq]
              exact List.mem_cons_self
            · exact List.mem_cons_of_mem _ (List.mem_cons_of_mem _ hrest)
          · intro y hy
            rcases List.mem_cons.mp hy with heq | htail
            · rw [heq]
              exact hsmallest
            · rcases List.mem_cons.mp htail with heq | hrest
              · rw [heq]
                exact h.trans x smallest _ hx hsmallest
              · exact hleast y (List.mem_cons_of_mem _ hrest)

/-- **The smallest element** of a list that has one is in it, and none comes before it. -/
theorem minElement_least (h : StrictWeak before) {xs : List α} (hxs : xs ≠ []) :
    ∃ least ∈ xs, minElement before xs = some least ∧ ∀ y ∈ xs, before y least = false := by
  cases xs with
  | nil => exact absurd rfl hxs
  | cons first rest =>
      obtain ⟨least, hmem, hfold, hleast⟩ := foldl_least h rest first
      exact ⟨least, hmem, by rw [minElement, hfold], hleast⟩

end smallest

end SmallestKept

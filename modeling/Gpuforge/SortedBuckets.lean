import Mathlib.Data.List.Perm.Basic
import Mathlib.Data.List.Nodup
import Mathlib.Order.Lattice

/-!
# Stacks under sorted keys

An ordered map from keys to stacks, where a key is present while its stack is
not empty.  `push` puts an item on the stack of its key, `erase` takes an item
out of a stack, and `lowerBound` finds the top of the first stack whose key is
not below a bound.

The content is a list of pairs of a key and an item.  What the operations do to
it, up to order, is all their users need.
-/

namespace SortedBuckets

universe u v

/-- Stacks under strictly increasing keys, none of them empty. -/
structure Buckets (κ : Type u) [LinearOrder κ] (α : Type v) where
  entries : List (κ × List α)
  sorted : entries.Pairwise fun e e' => e.1 < e'.1
  nonempty : ∀ e ∈ entries, e.2 ≠ []

variable {κ : Type u} {α : Type v}

/-- The pairs of a key and an item on its stack. -/
def pairs (entries : List (κ × List α)) : List (κ × α) :=
  entries.flatMap fun e => e.2.map fun x => (e.1, x)

@[simp] theorem pairs_nil : pairs ([] : List (κ × List α)) = [] := rfl

@[simp] theorem pairs_cons (j : κ) (xs : List α) (rest : List (κ × List α)) :
    pairs ((j, xs) :: rest) = xs.map (fun x => (j, x)) ++ pairs rest :=
  List.flatMap_cons

theorem mem_pairs {k : κ} {x : α} {entries : List (κ × List α)} :
    (k, x) ∈ pairs entries ↔ ∃ xs, (k, xs) ∈ entries ∧ x ∈ xs := by
  constructor
  · intro h
    obtain ⟨⟨j, xs⟩, he, hx⟩ := List.mem_flatMap.mp h
    obtain ⟨y, hy, heq⟩ := List.mem_map.mp hx
    cases heq
    exact ⟨xs, he, hy⟩
  · intro h
    obtain ⟨xs, he, hx⟩ := h
    exact List.mem_flatMap.mpr ⟨(k, xs), he, List.mem_map.mpr ⟨x, hx, rfl⟩⟩

variable [LinearOrder κ]

/-- Put an item on the stack of its key. -/
def pushEntry (k : κ) (x : α) : List (κ × List α) → List (κ × List α)
  | [] => [(k, [x])]
  | (j, xs) :: rest =>
      if k < j then (k, [x]) :: (j, xs) :: rest
      else if k = j then (j, x :: xs) :: rest
      else (j, xs) :: pushEntry k x rest

/-- Take an item out of the stack of its key; an empty stack goes with its key. -/
def eraseEntry [DecidableEq α] (k : κ) (x : α) : List (κ × List α) → List (κ × List α)
  | [] => []
  | (j, xs) :: rest =>
      if k = j then
        if xs.erase x = [] then rest else (j, xs.erase x) :: rest
      else (j, xs) :: eraseEntry k x rest

/-! ## Keys -/

/-- Keys after a push: the old ones and perhaps the key pushed at. -/
theorem key_of_mem_pushEntry {k : κ} {x : α} {entries : List (κ × List α)} {e : κ × List α}
    (h : e ∈ pushEntry k x entries) : e.1 = k ∨ ∃ e' ∈ entries, e'.1 = e.1 := by
  induction entries with
  | nil =>
      rw [pushEntry, List.mem_singleton] at h
      exact .inl (h ▸ rfl)
  | cons head rest ih =>
      obtain ⟨j, xs⟩ := head
      simp only [pushEntry] at h
      split at h
      · obtain rfl | h := List.mem_cons.mp h
        · exact .inl rfl
        · exact .inr ⟨e, h, rfl⟩
      · split at h
        · next hkj =>
          obtain rfl | h := List.mem_cons.mp h
          · exact .inl hkj.symm
          · exact .inr ⟨e, List.mem_cons_of_mem _ h, rfl⟩
        · obtain rfl | h := List.mem_cons.mp h
          · exact .inr ⟨_, List.mem_cons_self, rfl⟩
          · obtain hk | ⟨e', he', hkey⟩ := ih h
            · exact .inl hk
            · exact .inr ⟨e', List.mem_cons_of_mem _ he', hkey⟩

theorem sorted_pushEntry (k : κ) (x : α) {entries : List (κ × List α)}
    (h : entries.Pairwise fun e e' => e.1 < e'.1) :
    (pushEntry k x entries).Pairwise fun e e' => e.1 < e'.1 := by
  induction entries with
  | nil => exact List.pairwise_singleton _ _
  | cons head rest ih =>
      obtain ⟨j, xs⟩ := head
      obtain ⟨hhead, hrest⟩ := List.pairwise_cons.mp h
      simp only [pushEntry]
      split
      · next hkj =>
        refine List.pairwise_cons.mpr ⟨?_, h⟩
        intro e he
        obtain rfl | he := List.mem_cons.mp he
        · exact hkj
        · exact lt_trans hkj (hhead e he)
      · next hnlt =>
        split
        · exact List.pairwise_cons.mpr ⟨hhead, hrest⟩
        · next hne =>
          refine List.pairwise_cons.mpr ⟨?_, ih hrest⟩
          intro e he
          obtain hk | ⟨e', he', hkey⟩ := key_of_mem_pushEntry he
          · rw [hk]
            exact lt_of_le_of_ne (not_lt.mp hnlt) (Ne.symm hne)
          · rw [← hkey]
            exact hhead e' he'

theorem nonempty_pushEntry (k : κ) (x : α) {entries : List (κ × List α)}
    (h : ∀ e ∈ entries, e.2 ≠ []) : ∀ e ∈ pushEntry k x entries, e.2 ≠ [] := by
  induction entries with
  | nil => simp [pushEntry]
  | cons head rest ih =>
      obtain ⟨j, xs⟩ := head
      obtain ⟨hhead, hrest⟩ := List.forall_mem_cons.mp h
      simp only [pushEntry]
      split
      · exact List.forall_mem_cons.mpr ⟨List.cons_ne_nil _ _, h⟩
      · split
        · exact List.forall_mem_cons.mpr ⟨List.cons_ne_nil _ _, hrest⟩
        · exact List.forall_mem_cons.mpr ⟨hhead, ih hrest⟩

section Erase

variable [DecidableEq α]

/-- Keys after an erasure are old keys. -/
theorem key_of_mem_eraseEntry {k : κ} {x : α} {entries : List (κ × List α)} {e : κ × List α}
    (h : e ∈ eraseEntry k x entries) : ∃ e' ∈ entries, e'.1 = e.1 := by
  induction entries with
  | nil => cases h
  | cons head rest ih =>
      obtain ⟨j, xs⟩ := head
      simp only [eraseEntry] at h
      split at h
      · split at h
        · exact ⟨e, List.mem_cons_of_mem _ h, rfl⟩
        · obtain rfl | h := List.mem_cons.mp h
          · exact ⟨_, List.mem_cons_self, rfl⟩
          · exact ⟨e, List.mem_cons_of_mem _ h, rfl⟩
      · obtain rfl | h := List.mem_cons.mp h
        · exact ⟨_, List.mem_cons_self, rfl⟩
        · obtain ⟨e', he', hkey⟩ := ih h
          exact ⟨e', List.mem_cons_of_mem _ he', hkey⟩

theorem sorted_eraseEntry (k : κ) (x : α) {entries : List (κ × List α)}
    (h : entries.Pairwise fun e e' => e.1 < e'.1) :
    (eraseEntry k x entries).Pairwise fun e e' => e.1 < e'.1 := by
  induction entries with
  | nil => exact List.Pairwise.nil
  | cons head rest ih =>
      obtain ⟨j, xs⟩ := head
      obtain ⟨hhead, hrest⟩ := List.pairwise_cons.mp h
      simp only [eraseEntry]
      split
      · split
        · exact hrest
        · exact List.pairwise_cons.mpr ⟨hhead, hrest⟩
      · refine List.pairwise_cons.mpr ⟨?_, ih hrest⟩
        intro e he
        obtain ⟨e', he', hkey⟩ := key_of_mem_eraseEntry he
        rw [← hkey]
        exact hhead e' he'

theorem nonempty_eraseEntry (k : κ) (x : α) {entries : List (κ × List α)}
    (h : ∀ e ∈ entries, e.2 ≠ []) : ∀ e ∈ eraseEntry k x entries, e.2 ≠ [] := by
  induction entries with
  | nil => simp [eraseEntry]
  | cons head rest ih =>
      obtain ⟨j, xs⟩ := head
      obtain ⟨hhead, hrest⟩ := List.forall_mem_cons.mp h
      simp only [eraseEntry]
      split
      · split
        · exact hrest
        · next hne => exact List.forall_mem_cons.mpr ⟨hne, hrest⟩
      · exact List.forall_mem_cons.mpr ⟨hhead, ih hrest⟩

end Erase

/-! ## Pairs -/

theorem pairs_pushEntry (k : κ) (x : α) (entries : List (κ × List α)) :
    (pairs (pushEntry k x entries)).Perm ((k, x) :: pairs entries) := by
  induction entries with
  | nil => exact .refl _
  | cons head rest ih =>
      obtain ⟨j, xs⟩ := head
      simp only [pushEntry]
      split
      · exact .refl _
      · split
        · next h =>
          rw [h]
          exact .refl _
        · rw [pairs_cons, pairs_cons]
          exact (ih.append_left _).trans List.perm_middle

/-- A key of the first entry is no key of the others. -/
theorem not_mem_pairs_of_sorted {k : κ} {x : α} {xs : List α} {rest : List (κ × List α)}
    (h : ((k, xs) :: rest).Pairwise fun e e' => e.1 < e'.1) : (k, x) ∉ pairs rest := by
  intro hmem
  obtain ⟨ys, hys, _⟩ := mem_pairs.mp hmem
  exact lt_irrefl k ((List.pairwise_cons.mp h).1 (k, ys) hys)

theorem mem_lookup {k : κ} {x : α} {entries : List (κ × List α)}
    (h : entries.Pairwise fun e e' => e.1 < e'.1) :
    x ∈ (entries.lookup k).getD [] ↔ (k, x) ∈ pairs entries := by
  induction entries with
  | nil => simp
  | cons head rest ih =>
      obtain ⟨j, xs⟩ := head
      rw [List.lookup_cons, pairs_cons, List.mem_append, List.mem_map]
      by_cases hk : k = j
      · subst hk
        simp [not_mem_pairs_of_sorted h]
      · have hbeq : (k == j) = false := beq_eq_false_iff_ne.mpr hk
        rw [hbeq]
        simp only [ih (List.pairwise_cons.mp h).2]
        constructor
        · exact fun h => .inr h
        · intro h
          obtain ⟨y, _, heq⟩ | h := h
          · exact absurd (Prod.mk.inj heq).1.symm hk
          · exact h

theorem pairs_eraseEntry [DecidableEq α] {k : κ} {x : α} {entries : List (κ × List α)}
    (hsorted : entries.Pairwise fun e e' => e.1 < e'.1) (h : (k, x) ∈ pairs entries) :
    (pairs entries).Perm ((k, x) :: pairs (eraseEntry k x entries)) := by
  induction entries with
  | nil => cases h
  | cons head rest ih =>
      obtain ⟨j, xs⟩ := head
      simp only [eraseEntry]
      rw [pairs_cons, List.mem_append, List.mem_map] at h
      split
      · next hk =>
        subst hk
        have hx : x ∈ xs := by
          obtain ⟨y, hy, heq⟩ | h := h
          · exact (Prod.mk.inj heq).2 ▸ hy
          · exact absurd h (not_mem_pairs_of_sorted hsorted)
        have hxs : (xs.map fun y => (k, y)).Perm
            ((k, x) :: (xs.erase x).map fun y => (k, y)) :=
          (List.perm_cons_erase hx).map _
        have hall := hxs.append_right (pairs rest)
        split
        · next hnil =>
          rw [hnil] at hall
          simpa using hall
        · simpa using hall
      · next hk =>
        have hmem : (k, x) ∈ pairs rest := by
          obtain ⟨y, _, heq⟩ | h := h
          · exact absurd (Prod.mk.inj heq).1.symm hk
          · exact h
        rw [pairs_cons, pairs_cons]
        exact ((ih (List.pairwise_cons.mp hsorted).2 hmem).append_left _).trans List.perm_middle

/-! ## The map -/

namespace Buckets

/-- No stacks. -/
def empty : Buckets κ α where
  entries := []
  sorted := .nil
  nonempty := fun _ he => nomatch he

/-- Put an item on the stack of its key. -/
def push (b : Buckets κ α) (k : κ) (x : α) : Buckets κ α where
  entries := pushEntry k x b.entries
  sorted := sorted_pushEntry k x b.sorted
  nonempty := nonempty_pushEntry k x b.nonempty

/-- Take an item out of the stack of its key. -/
def erase [DecidableEq α] (b : Buckets κ α) (k : κ) (x : α) : Buckets κ α where
  entries := eraseEntry k x b.entries
  sorted := sorted_eraseEntry k x b.sorted
  nonempty := nonempty_eraseEntry k x b.nonempty

/-- The stack of a key; empty where the key is absent. -/
def stack (b : Buckets κ α) (k : κ) : List α := (b.entries.lookup k).getD []

/-- The first key that is not below a bound, and the top of its stack. -/
def lowerBound (b : Buckets κ α) (k : κ) : Option (κ × α) :=
  (b.entries.find? fun e => k ≤ e.1).bind fun e => e.2.head?.map fun x => (e.1, x)

/-- All pairs of a key and an item. -/
def content (b : Buckets κ α) : List (κ × α) := pairs b.entries

variable {b : Buckets κ α} {k j : κ} {x y : α}

@[simp] theorem content_empty : (empty : Buckets κ α).content = [] := rfl

/-- A push adds its pair. -/
theorem content_push : (b.push k x).content.Perm ((k, x) :: b.content) :=
  pairs_pushEntry k x b.entries

theorem mem_push : (j, y) ∈ (b.push k x).content ↔ (j = k ∧ y = x) ∨ (j, y) ∈ b.content := by
  rw [content_push.mem_iff, List.mem_cons, Prod.mk.injEq]

/-- The content of a stack. -/
theorem mem_stack : x ∈ b.stack k ↔ (k, x) ∈ b.content :=
  mem_lookup b.sorted

/-- An erasure takes the pair away. -/
theorem content_erase [DecidableEq α] (h : (k, x) ∈ b.content) :
    b.content.Perm ((k, x) :: (b.erase k x).content) :=
  pairs_eraseEntry b.sorted h

/-- Without duplicates, an erased pair is gone and the others stay. -/
theorem mem_erase [DecidableEq α] (hnodup : b.content.Nodup) (h : (k, x) ∈ b.content) :
    (j, y) ∈ (b.erase k x).content ↔ (j, y) ≠ (k, x) ∧ (j, y) ∈ b.content := by
  have hperm := content_erase h
  have hnot : (k, x) ∉ (b.erase k x).content :=
    (List.nodup_cons.mp (hperm.nodup_iff.mp hnodup)).1
  rw [hperm.mem_iff, List.mem_cons]
  constructor
  · intro hmem
    exact ⟨fun heq => hnot (heq ▸ hmem), .inr hmem⟩
  · intro hmem
    exact hmem.2.resolve_left hmem.1

theorem nodup_erase [DecidableEq α] (hnodup : b.content.Nodup) (h : (k, x) ∈ b.content) :
    (b.erase k x).content.Nodup :=
  (List.nodup_cons.mp ((content_erase h).nodup_iff.mp hnodup)).2

theorem nodup_push (hnodup : b.content.Nodup) (h : (k, x) ∉ b.content) :
    (b.push k x).content.Nodup :=
  content_push.nodup_iff.mpr (List.nodup_cons.mpr ⟨h, hnodup⟩)

/-- What a lower bound finds is there, and is under the least key from the bound on. -/
theorem lowerBound_eq_some (h : b.lowerBound k = some (j, x)) :
    k ≤ j ∧ (j, x) ∈ b.content ∧ ∀ i y, (i, y) ∈ b.content → k ≤ i → j ≤ i := by
  obtain ⟨⟨j, xs⟩, hfind, hhead⟩ := Option.bind_eq_some_iff.mp h
  obtain ⟨y, hy, heq⟩ := Option.map_eq_some_iff.mp hhead
  cases heq
  obtain ⟨hle, before, after, hentries, hbefore⟩ := List.find?_eq_some_iff_append.mp hfind
  have hmem : (j, xs) ∈ b.entries := hentries ▸ List.mem_append_right _ List.mem_cons_self
  refine ⟨of_decide_eq_true hle, mem_pairs.mpr ⟨xs, hmem, List.mem_of_mem_head? hy⟩, ?_⟩
  intro i y hi hki
  obtain ⟨ys, hys, _⟩ := mem_pairs.mp hi
  have hsorted := b.sorted
  rw [hentries, List.pairwise_append] at hsorted
  rw [hentries] at hys
  obtain hys | hys := List.mem_append.mp hys
  · have hnot := hbefore _ hys
    simp [hki] at hnot
  · obtain heq | hys := List.mem_cons.mp hys
    · exact (congrArg Prod.fst heq).ge
    · exact ((List.pairwise_cons.mp hsorted.2.1).1 _ hys).le

/-- Where a lower bound finds nothing, all keys are below the bound. -/
theorem lowerBound_eq_none (h : b.lowerBound k = none) (hmem : (j, x) ∈ b.content) : j < k := by
  obtain ⟨xs, hxs, _⟩ := mem_pairs.mp hmem
  by_contra hle
  unfold lowerBound at h
  cases hfind : b.entries.find? fun e => k ≤ e.1 with
  | none =>
      have hnot := List.find?_eq_none.mp hfind _ hxs
      simp only [decide_eq_true_eq] at hnot
      exact hle (not_le.mp hnot)
  | some e =>
      rw [hfind, Option.bind_some, Option.map_eq_none_iff, List.head?_eq_none_iff] at h
      exact b.nonempty e (List.mem_of_find?_eq_some hfind) h

end Buckets

end SortedBuckets

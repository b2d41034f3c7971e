import Mathlib.Algebra.Order.Ring.Nat
import Gpuforge.ObjectTable

/-!
# Segments and their owners

A segment is a run of consecutive numbers.  Segments live in a table of
objects; a second table says of each number which object's segment it is in.
The tables agree when this is exact.

Since a number has one owner, agreement alone makes segments disjoint, and the
owner of the number after a segment's end is a segment that starts there.
Creating, deleting, cutting and joining segments keep the agreement, each with
the owners written that changed.
-/

namespace SegmentTable

open ObjectTable

universe u

/-- The numbers from `first` on, `count` of them. -/
structure Segment where
  first : ℕ
  count : ℕ
  deriving DecidableEq, Repr

/-- Being in a segment. -/
def Segment.Holds (g : Segment) (p : ℕ) : Prop := g.first ≤ p ∧ p < g.first + g.count

instance (g : Segment) (p : ℕ) : Decidable (g.Holds p) :=
  inferInstanceAs (Decidable (_ ∧ _))

/-- Having no number in common. -/
def Segment.Apart (g h : Segment) : Prop :=
  g.first + g.count ≤ h.first ∨ h.first + h.count ≤ g.first

theorem Segment.Apart.symm {g h : Segment} (hapart : g.Apart h) : h.Apart g := Or.symm hapart

/-- Segments with no common number are apart. -/
theorem Segment.apart_of_disjoint {g h : Segment} (hg : 0 < g.count) (hh : 0 < h.count)
    (hdisj : ∀ p, g.Holds p → ¬ h.Holds p) : g.Apart h := by
  by_contra hnot
  simp only [Segment.Apart, not_or, not_le] at hnot
  refine hdisj (max g.first h.first) ?_ ?_
  · unfold Segment.Holds
    omega
  · unfold Segment.Holds
    omega

/-- Write the owner of all numbers of a segment. -/
def paint {ι : Type u} (owner : ℕ → Option ι) (g : Segment) (v : Option ι) : ℕ → Option ι :=
  fun p => if g.Holds p then v else owner p

variable {ι : Type u} {owner : ℕ → Option ι} {g h : Segment} {v : Option ι} {p : ℕ}

theorem paint_of_holds (hp : g.Holds p) : paint owner g v p = v := if_pos hp

theorem paint_of_not_holds (hp : ¬ g.Holds p) : paint owner g v p = owner p := if_neg hp

/-- Writing an owner takes none away. -/
theorem exists_owner_paint {i j : ι} (h : owner p = some i) :
    ∃ k, paint owner g (some j) p = some k := by
  by_cases hp : g.Holds p
  · exact ⟨j, paint_of_holds hp⟩
  · exact ⟨i, (paint_of_not_holds hp).trans h⟩

/-! ## Agreement -/

variable {σ : Type u} (seg : σ → Segment) (owner : ℕ → Option ℕ) (o : Objects σ)

/-- **The tables agree.**  No segment is empty, and the owner of a number is the
object whose segment it is in. -/
structure Exact : Prop where
  pos : ∀ i s, o.get i = some s → 0 < (seg s).count
  owns : ∀ i s p, o.get i = some s → (seg s).Holds p → owner p = some i
  owned : ∀ p i, owner p = some i → ∃ s, o.get i = some s ∧ (seg s).Holds p

variable {seg} {owner} {o} {i j : ℕ} {s t : σ} {f : σ → σ}

theorem exact_empty : Exact seg (fun _ => none) Objects.empty where
  pos := fun _ _ h => nomatch h
  owns := fun _ _ _ h => nomatch h
  owned := fun _ _ h => nomatch h

/-- Different objects have disjoint segments. -/
theorem Exact.apart (hex : Exact seg owner o) (hs : o.get i = some s) (ht : o.get j = some t)
    (hij : i ≠ j) : (seg s).Apart (seg t) := by
  refine Segment.apart_of_disjoint (hex.pos i s hs) (hex.pos j t ht) ?_
  intro p hp hp'
  have hi := hex.owns i s p hs hp
  rw [hex.owns j t p ht hp'] at hi
  exact hij (Option.some.inj hi).symm

/-- The owner of a position outside of a segment lies apart from it. -/
theorem Exact.outside (hex : Exact seg owner o) (hs : o.get i = some s) (ht : o.get j = some t)
    {p : ℕ} (hp : owner p = some j) (hout : ¬ (seg s).Holds p) :
    (seg t).Holds p ∧ (seg s).Apart (seg t) := by
  obtain ⟨t', ht', hholds⟩ := hex.owned _ _ hp
  obtain rfl : t = t' := Option.some.inj (ht.symm.trans ht')
  refine ⟨hholds, hex.apart hs ht ?_⟩
  intro hij
  subst hij
  obtain rfl : s = t := Option.some.inj (hs.symm.trans ht)
  exact hout hholds

/-- The segment after a segment starts at its end. -/
theorem Exact.after (hex : Exact seg owner o) (hs : o.get i = some s) (ht : o.get j = some t)
    (hj : owner ((seg s).first + (seg s).count) = some j) :
    (seg t).first = (seg s).first + (seg s).count := by
  have hpos := hex.pos i s hs
  obtain ⟨hholds, hapart⟩ := hex.outside hs ht hj fun h => Nat.lt_irrefl _ h.2
  unfold Segment.Holds at hholds
  unfold Segment.Apart at hapart
  omega

/-- The segment before a segment ends at its start. -/
theorem Exact.before (hex : Exact seg owner o) (hs : o.get i = some s) (ht : o.get j = some t)
    (hfirst : 0 < (seg s).first) (hj : owner ((seg s).first - 1) = some j) :
    (seg t).first + (seg t).count = (seg s).first := by
  have hpos := hex.pos i s hs
  obtain ⟨hholds, hapart⟩ := hex.outside hs ht hj fun h => by
    have hle := h.1
    omega
  unfold Segment.Holds at hholds
  unfold Segment.Apart at hapart
  omega

/-- A write that leaves the segment alone keeps the agreement. -/
theorem Exact.modify (hex : Exact seg owner o) (hf : ∀ s, seg (f s) = seg s) :
    Exact seg owner (o.modify i f) := by
  have hget : ∀ k t, (o.modify i f).get k = some t → ∃ t', o.get k = some t' ∧ seg t = seg t' := by
    intro k t hk
    by_cases hki : k = i
    · rw [hki, get_modify_self] at hk
      obtain ⟨t', ht', rfl⟩ := Option.map_eq_some_iff.mp hk
      exact ⟨t', hki ▸ ht', hf t'⟩
    · rw [get_modify_ne hki] at hk
      exact ⟨t, hk, rfl⟩
  refine ⟨?_, ?_, ?_⟩
  · intro k t hk
    obtain ⟨t', ht', heq⟩ := hget k t hk
    exact heq ▸ hex.pos k t' ht'
  · intro k t p hk hp
    obtain ⟨t', ht', heq⟩ := hget k t hk
    exact hex.owns k t' p ht' (heq ▸ hp)
  · intro p k hp
    obtain ⟨t, ht, hholds⟩ := hex.owned p k hp
    by_cases hki : k = i
    · subst hki
      exact ⟨f t, get_modify_of_some ht, (hf t).symm ▸ hholds⟩
    · exact ⟨t, by rw [get_modify_ne hki, ht], hholds⟩

/-- A new object on numbers that had no owner. -/
theorem Exact.new (hex : Exact seg owner o) (hpos : 0 < (seg s).count)
    (hfree : ∀ p, (seg s).Holds p → owner p = none) :
    Exact seg (paint owner (seg s) (some o.next)) (o.new s) := by
  refine ⟨?_, ?_, ?_⟩
  · intro k t hk
    obtain ⟨_, rfl⟩ | hk := get_new_eq_some.mp hk
    · exact hpos
    · exact hex.pos k t hk
  · intro k t p hk hp
    obtain ⟨rfl, rfl⟩ | hk := get_new_eq_some.mp hk
    · exact paint_of_holds hp
    · have howner := hex.owns k t p hk hp
      rw [paint_of_not_holds, howner]
      intro hs
      rw [hfree p hs] at howner
      cases howner
  · intro p k hp
    by_cases hs : (seg s).Holds p
    · rw [paint_of_holds hs] at hp
      obtain rfl := Option.some.inj hp
      exact ⟨s, get_new_self, hs⟩
    · rw [paint_of_not_holds hs] at hp
      obtain ⟨t, ht, hholds⟩ := hex.owned p k hp
      exact ⟨t, get_new_of_some ht, hholds⟩

/-- A deleted object leaves its numbers without an owner. -/
theorem Exact.delete (hex : Exact seg owner o) (hs : o.get i = some s) :
    Exact seg (paint owner (seg s) none) (o.delete i) := by
  refine ⟨?_, ?_, ?_⟩
  · intro k t hk
    exact hex.pos k t (get_delete_eq_some.mp hk).2
  · intro k t p hk hp
    obtain ⟨hki, hk⟩ := get_delete_eq_some.mp hk
    have howner := hex.owns k t p hk hp
    rw [paint_of_not_holds, howner]
    intro hsp
    rw [hex.owns i s p hs hsp] at howner
    exact hki (Option.some.inj howner).symm
  · intro p k hp
    by_cases hsp : (seg s).Holds p
    · rw [paint_of_holds hsp] at hp
      cases hp
    · rw [paint_of_not_holds hsp] at hp
      obtain ⟨t, ht, hholds⟩ := hex.owned p k hp
      have hki : k ≠ i := by
        intro heq
        subst heq
        obtain rfl : s = t := Option.some.inj (hs.symm.trans ht)
        exact hsp hholds
      exact ⟨t, by rw [get_delete_ne hki, ht], hholds⟩

/-- A segment shortened at its end: a new object takes the rest. -/
theorem Exact.cut (hex : Exact seg owner o) (hs : o.get i = some s)
    (hfirst : (seg (f s)).first = (seg s).first) (hcount : 0 < (seg (f s)).count)
    (hrest : seg t = ⟨(seg s).first + (seg (f s)).count, (seg s).count - (seg (f s)).count⟩)
    (hlt : (seg (f s)).count < (seg s).count) :
    Exact seg (paint (paint owner (seg t) (some o.next)) (seg (f s)) (some i))
      ((o.new t).modify i f) := by
  have hne : i ≠ o.next := (Objects.lt_next hs).ne
  have hnew : (o.new t).get i = some s := get_new_of_some hs
  have hin : ∀ p, (seg s).Holds p ↔ (seg (f s)).Holds p ∨ (seg t).Holds p := by
    intro p
    simp only [Segment.Holds, hrest, hfirst]
    omega
  have hout : ∀ p, (seg t).Holds p → ¬ (seg (f s)).Holds p := by
    intro p
    simp only [Segment.Holds, hrest, hfirst]
    omega
  refine ⟨?_, ?_, ?_⟩
  · intro k r hk
    obtain ⟨_, rfl⟩ | ⟨_, hk⟩ := (get_modify_eq_some hnew).mp hk
    · exact hcount
    · obtain ⟨_, rfl⟩ | hk := get_new_eq_some.mp hk
      · rw [hrest]
        exact Nat.sub_pos_of_lt hlt
      · exact hex.pos k r hk
  · intro k r p hk hp
    obtain ⟨rfl, rfl⟩ | ⟨hki, hk⟩ := (get_modify_eq_some hnew).mp hk
    · exact paint_of_holds hp
    · obtain ⟨rfl, rfl⟩ | hk := get_new_eq_some.mp hk
      · rw [paint_of_not_holds (hout p hp), paint_of_holds hp]
      · have howner := hex.owns k r p hk hp
        have hsp : ¬ (seg s).Holds p := by
          intro hsp
          rw [hex.owns i s p hs hsp] at howner
          exact hki (Option.some.inj howner).symm
        rw [hin, not_or] at hsp
        rw [paint_of_not_holds hsp.1, paint_of_not_holds hsp.2, howner]
  · intro p k hp
    by_cases hfs : (seg (f s)).Holds p
    · rw [paint_of_holds hfs] at hp
      obtain rfl := Option.some.inj hp
      exact ⟨f s, get_modify_of_some hnew, hfs⟩
    · rw [paint_of_not_holds hfs] at hp
      by_cases ht : (seg t).Holds p
      · rw [paint_of_holds ht] at hp
        obtain rfl := Option.some.inj hp
        exact ⟨t, by rw [get_modify_ne hne.symm, get_new_self], ht⟩
      · rw [paint_of_not_holds ht] at hp
        obtain ⟨r, hr, hholds⟩ := hex.owned p k hp
        have hki : k ≠ i := by
          intro heq
          subst heq
          obtain rfl : s = r := Option.some.inj (hs.symm.trans hr)
          obtain h | h := (hin p).mp hholds
          · exact hfs h
          · exact ht h
        exact ⟨r, by rw [get_modify_ne hki, get_new_of_some hr], hholds⟩

/-- A segment that takes in the one after it. -/
theorem Exact.join (hex : Exact seg owner o) (hs : o.get i = some s) (ht : o.get j = some t)
    (hij : i ≠ j) (hnext : (seg t).first = (seg s).first + (seg s).count)
    (hjoined : seg (f s) = ⟨(seg s).first, (seg s).count + (seg t).count⟩) :
    Exact seg (paint owner (seg t) (some i)) ((o.modify i f).delete j) := by
  have hin : ∀ p, (seg (f s)).Holds p ↔ (seg s).Holds p ∨ (seg t).Holds p := by
    intro p
    simp only [Segment.Holds, hjoined, hnext]
    omega
  have hget : ∀ k r, ((o.modify i f).delete j).get k = some r ↔
      (k = i ∧ f s = r) ∨ (k ≠ i ∧ k ≠ j ∧ o.get k = some r) :=
    fun _ _ => get_modify_delete_eq_some hs hij
  refine ⟨?_, ?_, ?_⟩
  · intro k r hk
    obtain ⟨_, rfl⟩ | ⟨_, _, hk⟩ := (hget k r).mp hk
    · rw [hjoined]
      exact Nat.add_pos_left (hex.pos i s hs) _
    · exact hex.pos k r hk
  · intro k r p hk hp
    obtain ⟨rfl, rfl⟩ | ⟨hki, hkj, hk⟩ := (hget k r).mp hk
    · by_cases htp : (seg t).Holds p
      · exact paint_of_holds htp
      · rw [paint_of_not_holds htp]
        exact hex.owns _ s p hs (((hin p).mp hp).resolve_right htp)
    · have howner := hex.owns k r p hk hp
      rw [paint_of_not_holds, howner]
      intro htp
      rw [hex.owns j t p ht htp] at howner
      exact hkj (Option.some.inj howner).symm
  · intro p k hp
    by_cases htp : (seg t).Holds p
    · rw [paint_of_holds htp] at hp
      obtain rfl := Option.some.inj hp
      exact ⟨f s, (hget _ _).mpr (.inl ⟨rfl, rfl⟩), (hin p).mpr (.inr htp)⟩
    · rw [paint_of_not_holds htp] at hp
      obtain ⟨r, hr, hholds⟩ := hex.owned p k hp
      by_cases hki : k = i
      · subst hki
        obtain rfl : s = r := Option.some.inj (hs.symm.trans hr)
        exact ⟨f s, (hget _ _).mpr (.inl ⟨rfl, rfl⟩), (hin p).mpr (.inl hholds)⟩
      · have hkj : k ≠ j := by
          intro heq
          subst heq
          obtain rfl : t = r := Option.some.inj (ht.symm.trans hr)
          exact htp hholds
        exact ⟨r, (hget k r).mpr (.inr ⟨hki, hkj, hr⟩), hholds⟩

end SegmentTable

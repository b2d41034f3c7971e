import Mathlib.Data.List.Nodup
import Mathlib.Data.List.Perm.Basic

/-!
# Things that are in one place

A family of lists says what is at each of a set of places.  It is exclusive when
nothing is at two places, or twice at one.  Moving some things from one place to
another keeps this, and what is somewhere is the same before and after.

An account adds what there is to be found, and which things may be at which
place.  Its rules are the four ways to change the lists: things move, things are
added at an empty place, things go, or only what may be where changes.
-/

namespace ExclusivePlaces

universe u v

variable {P : Type u} {α : Type v}

/-- Nothing is twice at a place, or at two places. -/
structure Exclusive (content : P → List α) : Prop where
  nodup : ∀ p, (content p).Nodup
  unique : ∀ p q x, x ∈ content p → x ∈ content q → p = q

/-- `moved` goes from `p` to `q`; the other places are left alone. -/
structure Moves (content content' : P → List α) (p q : P) (moved : List α) : Prop where
  ne : p ≠ q
  source : (content p).Perm (moved ++ content' p)
  target : (content' q).Perm (moved ++ content q)
  others : ∀ r, r ≠ p → r ≠ q → content' r = content r

variable {content content' : P → List α} {p q r : P} {moved : List α} {x : α}

/-- Where things are after a move. -/
theorem Moves.mem_iff (h : Moves content content' p q moved) (hex : Exclusive content) :
    x ∈ content' r ↔ (x ∈ moved ∧ r = q) ∨ (x ∉ moved ∧ x ∈ content r) := by
  have hsource : ∀ y, y ∈ content p ↔ y ∈ moved ∨ y ∈ content' p := by
    intro y
    rw [h.source.mem_iff, List.mem_append]
  have hnodup := h.source.nodup_iff.mp (hex.nodup p)
  have hdisj : ∀ y, y ∈ moved → y ∉ content' p :=
    fun y hy => (List.disjoint_of_nodup_append hnodup) hy
  have hmoved : ∀ y, y ∈ moved → y ∈ content p := fun y hy => (hsource y).mpr (.inl hy)
  by_cases hrp : r = p
  · subst hrp
    have hne := h.ne
    constructor
    · intro hx
      exact .inr ⟨fun hm => hdisj x hm hx, (hsource x).mpr (.inr hx)⟩
    · intro hx
      obtain hx | hx := hx
      · exact absurd hx.2 hne
      · exact ((hsource x).mp hx.2).resolve_left hx.1
  · by_cases hrq : r = q
    · subst hrq
      rw [h.target.mem_iff, List.mem_append]
      constructor
      · intro hx
        obtain hx | hx := hx
        · exact .inl ⟨hx, rfl⟩
        · refine .inr ⟨?_, hx⟩
          intro hm
          exact hrp (hex.unique _ _ x hx (hmoved x hm))
      · intro hx
        obtain hx | hx := hx
        · exact .inl hx.1
        · exact .inr hx.2
    · rw [h.others r hrp hrq]
      constructor
      · intro hx
        refine .inr ⟨?_, hx⟩
        intro hm
        exact hrp (hex.unique _ _ x hx (hmoved x hm))
      · intro hx
        obtain hx | hx := hx
        · exact absurd hx.2 hrq
        · exact hx.2

/-- **Moves keep exclusivity.** -/
theorem Exclusive.move (hex : Exclusive content) (h : Moves content content' p q moved) :
    Exclusive content' where
  nodup := by
    intro r
    by_cases hrp : r = p
    · subst hrp
      exact (List.nodup_append.mp (h.source.nodup_iff.mp (hex.nodup r))).2.1
    · by_cases hrq : r = q
      · subst hrq
        have hmoved : moved.Nodup :=
          (List.nodup_append.mp (h.source.nodup_iff.mp (hex.nodup p))).1
        refine h.target.nodup_iff.mpr (List.Nodup.append hmoved (hex.nodup r) ?_)
        intro y hy hy'
        have hyp : y ∈ content p := h.source.mem_iff.mpr (List.mem_append_left _ hy)
        exact h.ne (hex.unique _ _ y hyp hy')
      · rw [h.others r hrp hrq]
        exact hex.nodup r
  unique := by
    intro r r' x hx hx'
    rw [h.mem_iff hex] at hx hx'
    obtain ⟨hm, hr⟩ | ⟨hm, hr⟩ := hx
    · obtain ⟨_, hr'⟩ | ⟨hm', _⟩ := hx'
      · rw [hr, hr']
      · exact absurd hm hm'
    · obtain ⟨hm', _⟩ | ⟨_, hr'⟩ := hx'
      · exact absurd hm' hm
      · exact hex.unique r r' x hr hr'

/-- A move loses nothing and makes nothing. -/
theorem Moves.exists_iff (h : Moves content content' p q moved) (hex : Exclusive content) :
    (∃ r, x ∈ content' r) ↔ ∃ r, x ∈ content r := by
  constructor
  · intro hx
    obtain ⟨r, hr⟩ := hx
    obtain ⟨hm, _⟩ | ⟨_, hr⟩ := (h.mem_iff hex).mp hr
    · exact ⟨p, h.source.mem_iff.mpr (List.mem_append_left _ hm)⟩
    · exact ⟨r, hr⟩
  · intro hx
    obtain ⟨r, hr⟩ := hx
    by_cases hm : x ∈ moved
    · exact ⟨q, (h.mem_iff hex).mpr (.inl ⟨hm, rfl⟩)⟩
    · exact ⟨r, (h.mem_iff hex).mpr (.inr ⟨hm, hr⟩)⟩

/-- New things at one place. -/
theorem Exclusive.add (hex : Exclusive content) (hnodup : (content' p).Nodup)
    (hfresh : ∀ x, x ∈ content' p → ∀ r, r ≠ p → x ∉ content r)
    (hothers : ∀ r, r ≠ p → content' r = content r) : Exclusive content' where
  nodup := by
    intro r
    by_cases hrp : r = p
    · exact hrp ▸ hnodup
    · rw [hothers r hrp]
      exact hex.nodup r
  unique := by
    intro r r' x hx hx'
    by_cases hrp : r = p
    · by_cases hrp' : r' = p
      · rw [hrp, hrp']
      · rw [hothers r' hrp'] at hx'
        exact absurd hx' (hfresh x (hrp ▸ hx) r' hrp')
    · rw [hothers r hrp] at hx
      by_cases hrp' : r' = p
      · exact absurd hx (hfresh x (hrp' ▸ hx') r hrp)
      · rw [hothers r' hrp'] at hx'
        exact hex.unique r r' x hx hx'

/-- Less at each place. -/
theorem Exclusive.sub (hex : Exclusive content)
    (hnodup : ∀ r, (content' r).Nodup) (hsub : ∀ r x, x ∈ content' r → x ∈ content r) :
    Exclusive content' :=
  ⟨hnodup, fun p q x hp hq => hex.unique p q x (hsub p x hp) (hsub q x hq)⟩

/-! ## Accounts -/

/-- What is at the places is what there is, each thing where it may be. -/
structure Accounts (there : α → Prop) (may : P → α → Prop) (content : P → List α) : Prop
    extends Exclusive content where
  allowed : ∀ p x, x ∈ content p → may p x
  complete : ∀ x, there x ↔ ∃ p, x ∈ content p

variable {there there' : α → Prop} {may may' : P → α → Prop}

theorem Accounts.move (hacc : Accounts there may content)
    (h : Moves content content' p q moved) (hthere : ∀ x, there' x ↔ there x)
    (hmoved : ∀ x ∈ moved, may' q x)
    (hkeep : ∀ r x, x ∈ content r → x ∉ moved → may r x → may' r x) :
    Accounts there' may' content' where
  toExclusive := hacc.toExclusive.move h
  allowed := by
    intro r x hx
    obtain ⟨hm, rfl⟩ | ⟨hm, hx⟩ := (h.mem_iff hacc.toExclusive).mp hx
    · exact hmoved x hm
    · exact hkeep r x hx hm (hacc.allowed r x hx)
  complete := fun x =>
    ((hthere x).trans (hacc.complete x)).trans (h.exists_iff hacc.toExclusive).symm

/-- Nothing is moved, but other things may be at the places. -/
theorem Accounts.congr (hacc : Accounts there may content)
    (hcontent : ∀ r, content' r = content r) (hthere : ∀ x, there' x ↔ there x)
    (hkeep : ∀ r x, x ∈ content r → may r x → may' r x) : Accounts there' may' content' := by
  obtain rfl : content' = content := funext hcontent
  exact ⟨hacc.toExclusive, fun r x hx => hkeep r x hx (hacc.allowed r x hx),
    fun x => (hthere x).trans (hacc.complete x)⟩

/-- New things at one place. -/
theorem Accounts.add (hacc : Accounts there may content) {new : List α} (hnodup : new.Nodup)
    (hfresh : ∀ x ∈ new, ¬ there x) (hnew : (content' p).Perm (new ++ content p))
    (hothers : ∀ r, r ≠ p → content' r = content r) (hthere : ∀ x, there' x ↔ x ∈ new ∨ there x)
    (hmay : ∀ x ∈ new, may' p x) (hkeep : ∀ r x, x ∈ content r → may r x → may' r x) :
    Accounts there' may' content' := by
  have hmem : ∀ x, x ∈ content' p ↔ x ∈ new ∨ x ∈ content p := by
    intro x
    rw [hnew.mem_iff, List.mem_append]
  have habsent : ∀ x ∈ new, ∀ r, x ∉ content r :=
    fun x hx r hr => hfresh x hx ((hacc.complete x).mpr ⟨r, hr⟩)
  refine ⟨hacc.toExclusive.add ?_ ?_ hothers, ?_, ?_⟩
  · exact hnew.nodup_iff.mpr (hnodup.append (hacc.nodup p) fun x hx hx' => habsent x hx p hx')
  · intro x hx r hr hxr
    obtain hx | hx := (hmem x).mp hx
    · exact habsent x hx r hxr
    · exact hr (hacc.unique r p x hxr hx)
  · intro r x hx
    by_cases hr : r = p
    · subst hr
      obtain hx | hx := (hmem x).mp hx
      · exact hmay x hx
      · exact hkeep r x hx (hacc.allowed r x hx)
    · rw [hothers r hr] at hx
      exact hkeep r x hx (hacc.allowed r x hx)
  · intro x
    rw [hthere, hacc.complete]
    constructor
    · intro hx
      obtain hx | ⟨r, hr⟩ := hx
      · exact ⟨p, (hmem x).mpr (.inl hx)⟩
      · by_cases hrp : r = p
        · exact ⟨p, (hmem x).mpr (.inr (hrp ▸ hr))⟩
        · exact ⟨r, (hothers r hrp).symm ▸ hr⟩
    · intro hx
      obtain ⟨r, hr⟩ := hx
      by_cases hrp : r = p
      · subst hrp
        exact ((hmem x).mp hr).imp_right fun hx => ⟨r, hx⟩
      · exact .inr ⟨r, hothers r hrp ▸ hr⟩

/-- Things are gone. -/
theorem Accounts.remove (hacc : Accounts there may content) (gone : List α)
    (hnodup : ∀ r, (content' r).Nodup)
    (hmem : ∀ r x, x ∈ content' r ↔ x ∈ content r ∧ x ∉ gone)
    (hthere : ∀ x, there' x ↔ there x ∧ x ∉ gone)
    (hkeep : ∀ r x, x ∈ content r → x ∉ gone → may r x → may' r x) :
    Accounts there' may' content' where
  toExclusive := hacc.toExclusive.sub hnodup fun r x hx => ((hmem r x).mp hx).1
  allowed := by
    intro r x hx
    obtain ⟨hx, hgone⟩ := (hmem r x).mp hx
    exact hkeep r x hx hgone (hacc.allowed r x hx)
  complete := by
    intro x
    rw [hthere, hacc.complete]
    constructor
    · intro hx
      obtain ⟨⟨r, hr⟩, hgone⟩ := hx
      exact ⟨r, (hmem r x).mpr ⟨hr, hgone⟩⟩
    · intro hx
      obtain ⟨r, hr⟩ := hx
      obtain ⟨hr, hgone⟩ := (hmem r x).mp hr
      exact ⟨⟨r, hr⟩, hgone⟩

end ExclusivePlaces

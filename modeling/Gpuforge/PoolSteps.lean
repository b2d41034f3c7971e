import Gpuforge.PoolInvariant

/-!
# The steps keep every block in its place

For each step of the process, a lemma that says which blocks it moves and from
where to where, and that the invariant holds after it.
-/

namespace Gpuforge.Kama

open ExclusivePlaces

variable {pf : Platform}

namespace Heap

variable {h : Heap} {i j : SpanId} {a b n m index : ℕ}

/-- A large block finds its span. -/
theorem Sound.find_large (hs : h.Sound pf) (hlarge : h.Large i a n) :
    0 < a ∧ h.pages.findSpan pf a = some i := by
  obtain ⟨s, hused, _, rfl, _⟩ := hlarge
  have hplaced := hs.pages.placed i s hused.1
  have hnonnull := (hs.pages.pages _ hplaced.origin).nonnull
  have hstart := hplaced.start
  have hpos := hs.pages.bytes_pos hused.1
  simp only at hnonnull
  refine ⟨by omega, ?_⟩
  rw [PageCache.findSpan, if_neg (by omega)]
  exact hs.pages.find_iff.mpr ⟨s, hused.1, le_refl _, Nat.lt_add_of_pos_right hpos⟩

theorem Sound.large_unique (hs : h.Sound pf) (ha : h.Large i a n) (hb : h.Large j a m) :
    i = j ∧ n = m := by
  have hfind := (hs.find_large ha).2
  rw [(hs.find_large hb).2] at hfind
  obtain rfl := Option.some.inj hfind
  obtain ⟨s, hused, _, _, rfl⟩ := ha
  obtain ⟨t, hused', _, _, rfl⟩ := hb
  exact ⟨rfl, by rw [hused.unique hused']⟩

/-- A large block is no block of a class. -/
theorem Sound.large_ne_block (hs : h.Sound pf) (ha : h.Large i a n) (hb : h.Block j index b) :
    a ≠ b := by
  intro hab
  subst hab
  have hfind := (hs.find_large ha).2
  rw [hs.find_block hb] at hfind
  obtain rfl := Option.some.inj hfind
  obtain ⟨s, hused, hlarge, _⟩ := ha
  obtain ⟨t, hused', hsmall, _⟩ := hb
  rw [hused.unique hused', hsmall] at hlarge
  cases hlarge

theorem SameBlocks.has {h' : Heap} (hsame : SameBlocks h' h) : h'.Has a ↔ h.Has a :=
  exists_congr fun j => exists_congr fun c => hsame.block j c a

end Heap

namespace Pool

variable {T : Type} {st : Pool T}

theorem sound_start : (start : Pool T).Sound pf where
  heap := Heap.sound_new
  settled := by
    intro id s hs
    cases hs.1
  blocks := by
    have hcontent : ∀ p, (start : Pool T).content p = [] := by
      intro p
      cases p <;> rfl
    refine ⟨⟨?_, ?_⟩, ?_, ?_⟩
    · intro p
      rw [hcontent]
      exact .nil
    · intro p q a ha
      rw [hcontent] at ha
      cases ha
    · intro p a ha
      rw [hcontent] at ha
      cases ha
    · intro a
      constructor
      · intro h
        obtain ⟨id, index, s, hs, _⟩ := h
        cases hs.1
      · intro h
        obtain ⟨p, hp⟩ := h
        rw [hcontent] at hp
        cases hp
  sized := by
    intro b hb
    cases hb
  large := by
    intro a n
    constructor
    · intro h
      cases h
    · intro h
      obtain ⟨id, s, hs, _⟩ := h
      cases hs.1
  large_nodup := .nil
  counted := fun _ => ThreadCache.counted_new
  busy := fun _ => trivial

/-- The counters are not part of the invariant. -/
theorem Sound.withStats (hs : st.Sound pf) (stats : Stats) : { st with stats := stats }.Sound pf :=
  ⟨hs.heap, hs.settled, hs.blocks, hs.sized, hs.large, hs.large_nodup, hs.counted, hs.busy⟩

theorem Sound.recordFree (hs : st.Sound pf) (freed : Option Bool) :
    (st.recordFree freed).Sound pf := by
  cases freed with
  | none => exact hs
  | some sized => exact hs.withStats _

variable [DecidableEq T] {t : T} {tc : ThreadCache} {ptr size index request : ℕ}

/-! ## Thread caches -/

theorem counted_setCache (hall : ∀ u, (st.caches u).Counted) (htc : tc.Counted) (u : T) :
    ((st.setCache t tc).caches u).Counted := by
  by_cases hu : u = t
  · simpa [setCache, hu] using htc
  · simpa [setCache, hu] using hall u

theorem busy_setCache (hall : ∀ u, Busy (st.caches u) (st.doing u)) (hidle : st.doing t = .idle)
    (u : T) : Busy ((st.setCache t tc).caches u) (st.doing u) := by
  by_cases hu : u = t
  · rw [hu, hidle]
    trivial
  · simpa [setCache, hu] using hall u

theorem busy_setDoing {a : Activity} (hall : ∀ u, Busy (st.caches u) (st.doing u))
    (ha : Busy (st.caches t) a) (u : T) :
    Busy (st.caches u) ((st.setDoing t a).doing u) := by
  by_cases hu : u = t
  · simpa [setDoing, hu] using ha
  · simpa [setDoing, hu] using hall u

/-- **A request served from the cache** moves a block to a caller. -/
theorem Sound.pop (hs : st.Sound pf) (hidle : st.doing t = .idle) (hpos : 0 < size)
    (hsize : size ≤ maxBytes) (hpop : (st.caches t).pop (getIndex size) = some (ptr, tc)) :
    ((st.setCache t tc).grantSmall request size ptr).Sound pf := by
  cases hlist : (st.caches t).freeList (getIndex size) with
  | nil =>
      rw [ThreadCache.pop, hlist] at hpop
      cases hpop
  | cons first rest =>
      rw [ThreadCache.pop, hlist] at hpop
      obtain ⟨rfl, rfl⟩ := Prod.mk.inj (Option.some.inj hpop)
      have hsizes := (hs.counted t).size (getIndex size)
      have hbound := (hs.counted t).bounded (getIndex size)
      rw [hlist, List.length_cons] at hsizes hbound
      have hmoves : ExclusivePlaces.Moves st.content
          ((st.setCache t ((st.caches t).setList (getIndex size) rest
            ((st.caches t).freeListSize (getIndex size) - 1))).grantSmall request size
              first).content
          (.cache t (getIndex size)) .callers [first] := by
        refine ⟨by simp, ?_, List.Perm.refl _, ?_⟩
        · simp [content, hlist, grantSmall, setCache, ThreadCache.setList]
        · intro r hr hrc
          cases r with
          | span id => rfl
          | hand u => rfl
          | callers => exact absurd rfl hrc
          | cache u i =>
              simp only [content, grantSmall, setCache]
              by_cases hu : u = t
              · subst hu
                rw [if_pos rfl]
                exact ThreadCache.setList_ne fun hi => hr (hi ▸ rfl)
              · rw [if_neg hu]
      obtain ⟨id, hblock⟩ : ∃ id, st.heap.Block id (getIndex size) first :=
        hs.blocks.allowed (.cache t (getIndex size)) first
          (by simp only [content, hlist]; exact List.mem_cons_self)
      refine ⟨hs.heap, hs.settled, hs.blocks.move hmoves (fun _ => Iff.rfl)
        (fun _ _ => trivial) ?_, ?_, hs.large, hs.large_nodup, counted_setCache hs.counted ((hs.counted t).setList ?_ ?_),
        busy_setCache hs.busy hidle⟩
      · intro r a _ _ hmay
        cases r <;> exact hmay
      · intro b hb
        obtain rfl | hb := List.mem_cons.mp hb
        · exact ⟨hpos, hsize, id, hblock⟩
        · exact hs.sized b hb
      · omega
      · omega

/-! ## Calls that fetch -/

/-- A thread starts or ends a loop with nothing in hand. -/
theorem Sound.empty_hand {a : Activity} (hs : st.Sound pf) (hbefore : (st.doing t).blocks = [])
    (hafter : a.blocks = []) (ha : Busy (st.caches t) a) : (st.setDoing t a).Sound pf := by
  have hcontent : ∀ r, (st.setDoing t a).content r = st.content r := by
    intro r
    cases r with
    | span id => rfl
    | cache u i => rfl
    | callers => rfl
    | hand u =>
        simp only [content, setDoing]
        split
        · next hu => rw [hu, hafter, hbefore]
        · rfl
  refine ⟨hs.heap, hs.settled, hs.blocks.congr hcontent (fun _ => Iff.rfl) ?_, hs.sized,
    hs.large, hs.large_nodup, hs.counted, busy_setDoing hs.busy ha⟩
  intro r b hb hmay
  cases r with
  | span id => exact hmay
  | cache u i => exact hmay
  | callers => trivial
  | hand u =>
      by_cases hu : u = t
      · rw [hu, content, hbefore] at hb
        cases hb
      · simpa [May, setDoing, hu] using hmay

/-- **A turn of `fetchRange`** moves a block from a span to a thread's hand; the
span may be new, with all its blocks. -/
theorem Sound.fetched {got : List ℕ} {obj : ℕ} {heap : Heap} (hs : st.Sound pf)
    (hdoing : st.doing t = .fetching request size got)
    (hroom : got.length < getBatchNum (getSize (getIndex size)))
    (hturn : Heap.Fetched pf st.heap (getIndex size) obj heap) :
    ((st.setHeap heap).setDoing t (.fetching request size (got ++ [obj]))).Sound pf := by
  obtain ⟨id, h₁, hblock, htook, hsound₁, hadded⟩ := hturn.turn
  have hbusy := hs.busy t
  rw [hdoing] at hbusy
  -- the blocks of a new span are on its list before one is taken
  have hmid : Accounts h₁.Has (st.setHeap h₁).May (st.setHeap h₁).content ∧
      (∀ b, Sized st.heap b → Sized h₁ b) ∧
      (∀ j a n, h₁.Large j a n ↔ st.heap.Large j a n) := by
    obtain rfl | ⟨new, hadded⟩ := hadded
    · exact ⟨hs.blocks, fun _ hb => hb, fun _ _ _ => Iff.rfl⟩
    · have hkeep : ∀ {j c a}, st.heap.Block j c a → h₁.Block j c a :=
        fun h => (hadded.block _ _ _).mpr (.inr h)
      refine ⟨?_, ?_, hadded.large⟩
      · have hothers : ∀ r, r ≠ .span id → (st.setHeap h₁).content r = st.content r := by
          intro r hr
          cases r with
          | cache u i => rfl
          | hand u => rfl
          | callers => rfl
          | span j => exact hadded.others j fun hj => hr (hj ▸ rfl)
        have hempty : st.content (.span id) = [] := hadded.before
        have hnew : ((st.setHeap h₁).content (.span id)).Perm (new ++ st.content (.span id)) := by
          rw [hempty, List.append_nil]
          exact List.Perm.of_eq hadded.free
        refine hs.blocks.add hadded.nodup ?_ hnew hothers ?_ ?_ ?_
        · intro a ha hhas
          obtain ⟨j, c, h⟩ := hhas
          exact hadded.fresh a ha j c h
        · intro a
          constructor
          · intro hhas
            obtain ⟨j, c, h⟩ := hhas
            obtain ⟨_, _, ha⟩ | h := (hadded.block j c a).mp h
            · exact .inl ha
            · exact .inr ⟨j, c, h⟩
          · intro ha
            obtain ha | ⟨j, c, h⟩ := ha
            · exact ⟨id, getIndex size, (hadded.block _ _ _).mpr (.inl ⟨rfl, rfl, ha⟩)⟩
            · exact ⟨j, c, hkeep h⟩
        · exact fun a ha => ⟨getIndex size, (hadded.block _ _ _).mpr (.inl ⟨rfl, rfl, ha⟩)⟩
        · intro r a _ hmay
          cases r with
          | span j => exact hmay.imp fun _ => hkeep
          | cache u i => exact hmay.imp fun _ => hkeep
          | hand u => exact hmay.imp fun _ => hkeep
          | callers => trivial
      · exact fun b hb => ⟨hb.1, hb.2.1, hb.2.2.imp fun _ => hkeep⟩
  obtain ⟨hblocks, hsized, hlarge⟩ := hmid
  have hsame := htook.same.block
  have hmoves : ExclusivePlaces.Moves (st.setHeap h₁).content
      ((st.setHeap heap).setDoing t (.fetching request size (got ++ [obj]))).content
      (.span id) (.hand t) [obj] := by
    refine ⟨by simp, ?_, ?_, ?_⟩
    · simp only [content, setHeap, setDoing, htook.free]
      exact List.Perm.refl _
    · simp only [content, setHeap, setDoing, if_true, hdoing]
      exact List.perm_append_comm
    · intro r hr hrt
      cases r with
      | cache u i => rfl
      | callers => rfl
      | span j => exact htook.others j fun hj => hr (hj ▸ rfl)
      | hand u =>
          have hu : u ≠ t := fun hu => hrt (hu ▸ rfl)
          simp [content, setHeap, setDoing, hu]
  refine ⟨hturn.sound, hturn.settled, ?_, ?_, ?_, hs.large_nodup, hs.counted,
    busy_setDoing hs.busy ⟨hbusy.1, hbusy.2.1, hbusy.2.2.1, ?_⟩⟩
  · refine hblocks.move hmoves (fun _ => htook.same.has) ?_ ?_
    · intro a ha
      obtain rfl := List.mem_singleton.mp ha
      refine ⟨id, ?_⟩
      simpa [setDoing, setHeap] using (hsame _ _ _).mpr hblock
    · intro r a _ _ hmay
      cases r with
      | span j => exact hmay.imp fun _ h => (hsame _ _ _).mpr h
      | cache u i => exact hmay.imp fun _ h => (hsame _ _ _).mpr h
      | callers => trivial
      | hand u =>
          refine hmay.imp fun j h => (hsame _ _ _).mpr ?_
          by_cases hu : u = t
          · subst hu
            simpa [setDoing, setHeap, hdoing] using h
          · simpa [setDoing, setHeap, hu] using h
  · intro b hb
    obtain ⟨hpos, hsize, j, h⟩ := hsized b (hs.sized b hb)
    exact ⟨hpos, hsize, j, (hsame _ _ _).mpr h⟩
  · intro a n
    refine (hs.large a n).trans (exists_congr fun j => ?_)
    exact (hlarge j a n).symm.trans (htook.same.large j a n).symm
  · rw [List.length_append, List.length_singleton]
    omega

theorem setCache_self : st.setCache t (st.caches t) = st := by
  have hsame : (fun u => if u = t then st.caches t else st.caches u) = st.caches := by
    funext u
    split
    · next hu => rw [hu]
    · rfl
  rw [setCache, hsame]

/-- **The end of a fetch** gives one block to the caller and the others to the
thread's cache. -/
theorem Sound.finish {got : List ℕ} (hs : st.Sound pf)
    (hdoing : st.doing t = .fetching request size got) :
    (st.finish t request size got).Sound pf := by
  have hbusy := hs.busy t
  rw [hdoing] at hbusy
  obtain ⟨hpos, hsize, hempty, hlength⟩ := hbusy
  cases got with
  | nil =>
      unfold Pool.finish
      simp only [ThreadCache.refill, if_true, setCache_self]
      exact hs.empty_hand (by rw [hdoing]; rfl) rfl trivial
  | cons ptr rest =>
      let tc := (st.caches t).setList (getIndex size) rest
        ((st.caches t).freeListSize (getIndex size) + rest.length)
      let st₁ := (st.setDoing t (.fetching request size rest)).grantSmall request size ptr
      let st₂ := ((st.setCache t tc).setDoing t .idle).grantSmall request size ptr
      have hfinish : st.finish t request size (ptr :: rest) =
          { st₂ with
            stats :=
              (st.stats.recordCentralRefill (rest.length + 1)).recordAllocation request } := rfl
      rw [hfinish]
      refine Sound.withStats ?_ _
      have hsizes := (hs.counted t).size (getIndex size)
      rw [hempty, List.length_nil] at hsizes
      have hbatch := getBatchNum_le (getSize (getIndex size))
      rw [List.length_cons] at hlength
      -- first the caller's block leaves the hand, then the others
      have hgrant : ExclusivePlaces.Moves st.content st₁.content (.hand t) .callers [ptr] := by
        refine ⟨by simp, ?_, List.Perm.refl _, ?_⟩
        · simp [st₁, content, hdoing, grantSmall, setDoing]
        · intro r hr hrc
          cases r with
          | span id => rfl
          | cache u i => rfl
          | callers => exact absurd rfl hrc
          | hand u =>
              have hu : u ≠ t := fun hu => hr (hu ▸ rfl)
              simp [st₁, content, grantSmall, setDoing, hu]
      have hkeep : ExclusivePlaces.Moves st₁.content st₂.content (.hand t)
          (.cache t (getIndex size)) rest := by
        refine ⟨by simp, ?_, ?_, ?_⟩
        · simp [st₁, st₂, content, grantSmall, setDoing, setCache]
        · simp [st₁, st₂, tc, content, grantSmall, setDoing, setCache, ThreadCache.setList, hempty]
        · intro r hr hrc
          cases r with
          | span id => rfl
          | callers => rfl
          | hand u =>
              have hu : u ≠ t := fun hu => hr (hu ▸ rfl)
              simp [st₁, st₂, content, grantSmall, setDoing, setCache, hu]
          | cache u i =>
              simp only [st₁, st₂, content, grantSmall, setDoing, setCache]
              by_cases hu : u = t
              · subst hu
                rw [if_pos rfl]
                exact ThreadCache.setList_ne fun hi => hrc (hi ▸ rfl)
              · rw [if_neg hu]
      have hhand : ∀ a ∈ ptr :: rest, ∃ id, st.heap.Block id (getIndex size) a := by
        intro a ha
        have hmay := hs.blocks.allowed (.hand t) a (by simpa [content, hdoing] using ha)
        simpa [May, hdoing] using hmay
      have hmid : Accounts st.heap.Has st₁.May st₁.content := by
        refine hs.blocks.move hgrant (fun _ => Iff.rfl) (fun _ _ => trivial) ?_
        intro r a _ _ hmay
        cases r with
        | span id => exact hmay
        | cache u i => exact hmay
        | callers => trivial
        | hand u =>
            by_cases hu : u = t
            · subst hu
              simpa [st₁, May, setDoing, grantSmall, hdoing] using hmay
            · simpa [st₁, May, setDoing, grantSmall, hu] using hmay
      refine ⟨hs.heap, hs.settled, hmid.move hkeep (fun _ => Iff.rfl) ?_ ?_, ?_, hs.large,
        hs.large_nodup, counted_setCache hs.counted ((hs.counted t).setList ?_ ?_), ?_⟩
      · exact fun a ha => hhand a (List.mem_cons_of_mem _ ha)
      · intro r a ha hrest hmay
        cases r with
        | span id => exact hmay
        | cache u i => exact hmay
        | callers => trivial
        | hand u =>
            by_cases hu : u = t
            · refine absurd ?_ hrest
              simpa [st₁, content, grantSmall, setDoing, hu] using ha
            · simpa [st₁, st₂, May, setDoing, grantSmall, setCache, hu] using hmay
      · intro b hb
        obtain rfl | hb := List.mem_cons.mp hb
        · exact ⟨hpos, hsize, hhand ptr List.mem_cons_self⟩
        · exact hs.sized b hb
      · omega
      · omega
      · intro u
        by_cases hu : u = t
        · simp [st₂, grantSmall, setDoing, setCache, hu, Busy]
        · simpa [st₂, grantSmall, setDoing, setCache, hu] using hs.busy u

/-! ## Calls that give back -/

theorem setDoing_self : st.setDoing t (st.doing t) = st := by
  have hsame : (fun u => if u = t then st.doing t else st.doing u) = st.doing := by
    funext u
    split
    · next hu => rw [hu]
    · rfl
  rw [setDoing, hsame]

omit [DecidableEq T] in
/-- A caller's block is in the observer's list once. -/
theorem Sound.dropSmall_eq {n : ℕ} (hs : st.Sound pf) (hmem : (ptr, n) ∈ st.small) :
    (st.dropSmall ptr).small = st.small.erase (ptr, n) := by
  refine PageCache.eraseP_eq_erase ?_
  intro b hb
  rw [decide_eq_true_iff]
  constructor
  · exact List.inj_on_of_nodup_map (hs.blocks.nodup .callers) hb hmem
  · exact fun heq => heq ▸ rfl

/-- **A small block given up** goes from the caller to the thread's cache, and
what the cache gives back to the thread's hand. -/
theorem Sound.putBack {n : ℕ} {chain : List ℕ} {a : Activity} (hs : st.Sound pf)
    (hidle : st.doing t = .idle) (hmem : (ptr, n) ∈ st.small)
    (hgave : ThreadCache.GaveUp (st.caches t) (getIndex n) ptr chain tc)
    (ha : a.blocks = chain) (hindex : a.index = getIndex n ∨ chain = [])
    (hbusy : Busy tc a) :
    (((st.setCache t tc).dropSmall ptr).setDoing t a).Sound pf := by
  let st₁ := (st.setCache t ((st.caches t).push (getIndex n) ptr)).dropSmall ptr
  let st₂ := ((st.setCache t tc).dropSmall ptr).setDoing t a
  have hsmall : (st.dropSmall ptr).small = st.small.erase (ptr, n) := hs.dropSmall_eq hmem
  have hpush : ExclusivePlaces.Moves st.content st₁.content .callers
      (.cache t (getIndex n)) [ptr] := by
    refine ⟨by simp, ?_, ?_, ?_⟩
    · show (st.small.map Prod.fst).Perm (ptr :: (st.dropSmall ptr).small.map Prod.fst)
      rw [hsmall]
      exact (List.perm_cons_erase hmem).map Prod.fst
    · simp [st₁, content, dropSmall, setCache, ThreadCache.push, ThreadCache.setList]
    · intro r hr hrc
      cases r with
      | span id => rfl
      | hand u => rfl
      | callers => exact absurd rfl hr
      | cache u i =>
          simp only [st₁, content, dropSmall, setCache]
          by_cases hu : u = t
          · subst hu
            rw [if_pos rfl]
            exact ThreadCache.setList_ne fun hi => hrc (hi ▸ rfl)
          · rw [if_neg hu]
  have hcut : ExclusivePlaces.Moves st₁.content st₂.content (.cache t (getIndex n))
      (.hand t) chain := by
    refine ⟨by simp, ?_, ?_, ?_⟩
    · have hlist : st₁.content (.cache t (getIndex n)) = ptr :: (st.caches t).freeList
          (getIndex n) := by
        simp [st₁, content, dropSmall, setCache, ThreadCache.push, ThreadCache.setList]
      have hlist' : st₂.content (.cache t (getIndex n)) = tc.freeList (getIndex n) := by
        simp [st₂, content, dropSmall, setCache, setDoing]
      rw [hlist, hlist', hgave.split]
      exact List.perm_append_comm
    · simp [st₁, st₂, content, dropSmall, setCache, setDoing, hidle, ha]
    · intro r hr hrh
      cases r with
      | span id => rfl
      | callers => rfl
      | hand u =>
          have hu : u ≠ t := fun hu => hrh (hu ▸ rfl)
          simp [st₁, st₂, content, dropSmall, setCache, setDoing, hu]
      | cache u i =>
          simp only [st₁, st₂, content, dropSmall, setCache, setDoing]
          by_cases hu : u = t
          · subst hu
            rw [if_pos rfl, if_pos rfl]
            have hi : i ≠ getIndex n := fun hi => hr (hi ▸ rfl)
            exact (hgave.others i hi).trans (ThreadCache.setList_ne hi).symm
          · rw [if_neg hu, if_neg hu]
  obtain ⟨_, _, hblock⟩ := hs.sized _ hmem
  have hmid : Accounts st.heap.Has st₁.May st₁.content := by
    refine hs.blocks.move hpush (fun _ => Iff.rfl) ?_ ?_
    · intro b hb
      obtain rfl := List.mem_singleton.mp hb
      exact hblock
    · intro r b _ _ hmay
      cases r <;> exact hmay
  refine ⟨hs.heap, hs.settled, hmid.move hcut (fun _ => Iff.rfl) ?_ ?_, ?_, hs.large,
    hs.large_nodup, counted_setCache hs.counted hgave.counted, ?_⟩
  · intro b hb
    obtain hindex | hnil := hindex
    · have hmay := hmid.allowed (.cache t (getIndex n)) b
        (hcut.source.mem_iff.mpr (List.mem_append_left _ hb))
      simpa [st₁, st₂, May, setDoing, dropSmall, setCache, hindex] using hmay
    · rw [hnil] at hb
      cases hb
  · intro r b hb _ hmay
    cases r with
    | span id => exact hmay
    | cache u i => exact hmay
    | callers => trivial
    | hand u =>
        by_cases hu : u = t
        · simp [st₁, content, dropSmall, setCache, hu, hidle] at hb
        · simpa [st₁, st₂, May, setDoing, dropSmall, setCache, hu] using hmay
  · intro b hb
    have hb : b ∈ (st.dropSmall ptr).small := hb
    exact hs.sized b (List.mem_of_mem_erase (hsmall ▸ hb))
  · intro u
    by_cases hu : u = t
    · simpa [st₂, setDoing, dropSmall, setCache, hu] using hbusy
    · simpa [st₂, setDoing, dropSmall, setCache, hu] using hs.busy u

theorem Sound.giveUp {n : ℕ} (hs : st.Sound pf) (hidle : st.doing t = .idle)
    (hmem : (ptr, n) ∈ st.small) (sized : Bool) :
    (st.giveUp t (getIndex n) ptr sized).Sound pf := by
  have hgave := (hs.counted t).giveUp (getIndex n) ptr
  unfold Pool.giveUp
  dsimp only
  split
  · next hnil =>
    have hsound := hs.putBack hidle hmem hgave (a := .idle) hnil.symm (.inr hnil) trivial
    refine Sound.recordFree ?_ _
    have hsame : ((st.setCache t ((st.caches t).giveUp (getIndex n) ptr).2).dropSmall ptr).doing t =
        .idle := hidle
    rwa [← hsame, setDoing_self] at hsound
  · exact (hs.putBack hidle hmem hgave (a := .returning _ _ _) rfl (.inl rfl) trivial).withStats _

/-- **A flush** takes a list of the thread's cache into its hand. -/
theorem Sound.flush (hs : st.Sound pf) (hidle : st.doing t = .idle) (index : ℕ) :
    (st.flush t index).Sound pf := by
  unfold Pool.flush
  dsimp only
  split
  · let st₁ := (st.setCache t ((st.caches t).setList index [] 0)).setDoing t
      (.returning index ((st.caches t).freeList index) none)
    have hmoves : ExclusivePlaces.Moves st.content st₁.content (.cache t index) (.hand t)
        ((st.caches t).freeList index) := by
      refine ⟨by simp, ?_, ?_, ?_⟩
      · simp [st₁, content, setCache, setDoing, ThreadCache.setList]
      · simp [st₁, content, setCache, setDoing, hidle]
      · intro r hr hrh
        cases r with
        | span id => rfl
        | callers => rfl
        | hand u =>
            have hu : u ≠ t := fun hu => hrh (hu ▸ rfl)
            simp [st₁, content, setCache, setDoing, hu]
        | cache u i =>
            simp only [st₁, content, setCache, setDoing]
            by_cases hu : u = t
            · subst hu
              rw [if_pos rfl]
              exact ThreadCache.setList_ne fun hi => hr (hi ▸ rfl)
            · rw [if_neg hu]
    refine ⟨hs.heap, hs.settled, hs.blocks.move hmoves (fun _ => Iff.rfl) ?_ ?_, hs.sized,
      hs.large, hs.large_nodup,
      counted_setCache hs.counted ((hs.counted t).setList rfl (Nat.zero_le _)), ?_⟩
    · intro b hb
      have hmay := hs.blocks.allowed (.cache t index) b hb
      simpa [May, setDoing, setCache] using hmay
    · intro r b hb _ hmay
      cases r with
      | span id => exact hmay
      | cache u i => exact hmay
      | callers => trivial
      | hand u =>
          by_cases hu : u = t
          · simp [content, hu, hidle] at hb
          · simpa [May, setDoing, setCache, hu] using hmay
    · intro u
      by_cases hu : u = t
      · simp [setDoing, setCache, hu, Busy]
      · simpa [setDoing, setCache, hu] using hs.busy u
  · exact hs

/-- **A turn of `returnRange`** moves a block from a thread's hand to its span;
when the span has all its blocks, they are gone. -/
theorem Sound.gaveBack {cur : ℕ} {chain : List ℕ} {freed : Option Bool} (hs : st.Sound pf)
    (hdoing : st.doing t = .returning index (cur :: chain) freed) :
    ∃ heap, st.heap.returnTurn pf index cur = some heap ∧
      ((st.setHeap heap).setDoing t (.returning index chain freed)).Sound pf := by
  have hcur : cur ∈ st.content (.hand t) := by simp [content, hdoing]
  obtain ⟨id, hblock⟩ : ∃ id, st.heap.Block id index cur := by
    have hmay := hs.blocks.allowed (.hand t) cur hcur
    simpa [May, hdoing] using hmay
  obtain ⟨heap, hcall, hreturned⟩ := hs.heap.returnTurn hblock (hs.settled id)
  let st' := (st.setHeap heap).setDoing t (.returning index chain freed)
  have hsettled : ∀ j, heap.Settled j := by
    intro j
    by_cases hj : j = id
    · exact hj ▸ hreturned.settled
    · exact hreturned.keeps j hj (hs.settled j)
  have hbusy : ∀ u, Busy (st'.caches u) (st'.doing u) := by
    intro u
    by_cases hu : u = t
    · simp [st', setDoing, hu, Busy]
    · simpa [st', setDoing, setHeap, hu] using hs.busy u
  have hhand : st.content (.hand t) = cur :: st'.content (.hand t) := by
    simp [st', content, setDoing, hdoing]
  have hspan : ∀ j, j ≠ id → st'.content (.span j) = st.content (.span j) := hreturned.others
  have hothers : ∀ r, r ≠ .hand t → r ≠ .span id → st'.content r = st.content r := by
    intro r hr hrs
    cases r with
    | callers => rfl
    | cache u i => rfl
    | span j => exact hspan j fun hj => hrs (hj ▸ rfl)
    | hand u =>
        have hu : u ≠ t := fun hu => hr (hu ▸ rfl)
        simp [st', content, setHeap, setDoing, hu]
  -- a block that is there after the turn may be where it was
  have hmay : ∀ {r a}, a ∈ st.content r → (∀ j c, st.heap.Block j c a → heap.Block j c a) →
      st.May r a → st'.May r a := by
    intro r a ha hkeep hmay
    cases r with
    | callers => trivial
    | cache u i => exact hmay.imp fun _ h => hkeep _ _ h
    | span j => exact hmay.imp fun _ h => hkeep _ _ h
    | hand u =>
        refine hmay.imp fun j h => hkeep _ _ ?_
        by_cases hu : u = t
        · simpa [st', setDoing, hu, hdoing] using h
        · simpa [st', setDoing, setHeap, hu] using h
  refine ⟨heap, hcall, ?_⟩
  obtain hput | ⟨hdropped, s, hused, hsmall, hall⟩ := hreturned.turn
  · have hmoves : ExclusivePlaces.Moves st.content st'.content (.hand t) (.span id) [cur] := by
      refine ⟨by simp, hhand ▸ List.Perm.refl _, ?_, hothers⟩
      show (heap.free id).Perm _
      rw [hput.free]
      exact List.Perm.refl _
    refine ⟨hreturned.sound, hsettled, hs.blocks.move hmoves (fun _ => hput.same.has) ?_ ?_, ?_, ?_,
      hs.large_nodup, hs.counted, hbusy⟩
    · intro a ha
      obtain rfl := List.mem_singleton.mp ha
      exact ⟨index, (hput.same.block _ _ _).mpr hblock⟩
    · exact fun r a ha _ => hmay ha fun j c => (hput.same.block j c a).mpr
    · intro b hb
      obtain ⟨hpos, hsize, j, h⟩ := hs.sized b hb
      exact ⟨hpos, hsize, j, (hput.same.block _ _ _).mpr h⟩
    · intro a n
      exact (hs.large a n).trans (exists_congr fun j => (hput.same.large j a n).symm)
  · -- all blocks of the span are on its list or the one in hand
    have hgone : ∀ a, a ∈ cur :: st.heap.free id ↔ ∃ c, st.heap.Block id c a := by
      have hcarved := hs.heap.small id s hused hsmall
      have hfree : st.heap.free id = s.freeList := Heap.free_of_used hused hsmall
      have hnot : cur ∉ st.heap.free id := by
        intro hmem
        have hsame := hs.blocks.unique (.hand t) (.span id) cur hcur hmem
        cases hsame
      have hsub : ∀ a, a ∈ cur :: st.heap.free id → a ∈ s.blocks := by
        intro a ha
        obtain rfl | ha := List.mem_cons.mp ha
        · obtain ⟨s', hused', _, _, ha⟩ := hblock
          exact hused.unique hused' ▸ ha
        · exact hcarved.sub a (hfree ▸ ha)
      have hperm : (cur :: st.heap.free id).Perm s.blocks := by
        refine (List.subperm_of_subset (List.nodup_cons.mpr ⟨hnot, hs.blocks.nodup (.span id)⟩)
          hsub).perm_of_length_le ?_
        rw [Span.blocks, Heap.length_blocksFrom, List.length_cons, hall]
      intro a
      rw [hperm.mem_iff]
      constructor
      · exact fun ha => ⟨s.sizeClass, s, hused, hsmall, rfl, ha⟩
      · intro h
        obtain ⟨c, s', hused', _, _, ha⟩ := h
        exact hused.unique hused' ▸ ha
    have hstays : ∀ {j c a}, st.heap.Block j c a → a ∉ cur :: st.heap.free id →
        heap.Block j c a := by
      intro j c a h ha
      refine (hdropped.block j c a).mpr ⟨?_, h⟩
      intro hj
      exact ha ((hgone a).mpr ⟨c, hj ▸ h⟩)
    -- nothing of the span is anywhere else
    have hplace : ∀ {r a}, a ∈ st.content r → r ≠ .hand t → r ≠ .span id →
        a ∉ cur :: st.heap.free id := by
      intro r a ha hr hrs hmem
      obtain rfl | hmem := List.mem_cons.mp hmem
      · exact hr (hs.blocks.unique _ _ _ ha hcur)
      · exact hrs (hs.blocks.unique _ _ _ ha hmem)
    have hnodup := hs.blocks.nodup (.hand t)
    rw [hhand] at hnodup
    have hmem : ∀ r a, a ∈ st'.content r ↔ a ∈ st.content r ∧ a ∉ cur :: st.heap.free id := by
      intro r a
      by_cases hr : r = .hand t
      · subst hr
        rw [hhand, List.mem_cons]
        constructor
        · intro ha
          refine ⟨.inr ha, ?_⟩
          intro hgone
          obtain rfl | hgone := List.mem_cons.mp hgone
          · exact (List.nodup_cons.mp hnodup).1 ha
          · have hsame := hs.blocks.unique (.hand t) (.span id) a
              (hhand ▸ List.mem_cons_of_mem _ ha) hgone
            cases hsame
        · intro ha
          obtain ⟨rfl | ha, hnot⟩ := ha
          · exact absurd List.mem_cons_self hnot
          · exact ha
      · by_cases hrs : r = .span id
        · subst hrs
          have hnil : st'.content (.span id) = [] := hdropped.free
          rw [hnil]
          constructor
          · intro ha
            cases ha
          · exact fun ha => absurd (List.mem_cons_of_mem cur ha.1) ha.2
        · rw [hothers r hr hrs]
          exact ⟨fun ha => ⟨ha, hplace ha hr hrs⟩, fun ha => ha.1⟩
    refine ⟨hreturned.sound, hsettled, hs.blocks.remove (cur :: st.heap.free id) ?_ hmem
      ?_ ?_, ?_, ?_, hs.large_nodup, hs.counted, hbusy⟩
    · intro r
      by_cases hr : r = .hand t
      · subst hr
        exact (List.nodup_cons.mp hnodup).2
      · by_cases hrs : r = .span id
        · subst hrs
          have hnil : st'.content (.span id) = [] := hdropped.free
          rw [hnil]
          exact .nil
        · rw [hothers r hr hrs]
          exact hs.blocks.nodup r
    · intro a
      constructor
      · intro h
        obtain ⟨j, c, h⟩ := h
        obtain ⟨hj, h⟩ := (hdropped.block j c a).mp h
        refine ⟨⟨j, c, h⟩, ?_⟩
        intro ha
        obtain ⟨c', h'⟩ := (hgone a).mp ha
        exact hj (hs.heap.block_unique h h').1
      · intro h
        obtain ⟨⟨j, c, h⟩, ha⟩ := h
        exact ⟨j, c, hstays h ha⟩
    · exact fun r a ha hnot => hmay ha fun j c h => hstays h hnot
    · intro b hb
      obtain ⟨hpos, hsize, j, h⟩ := hs.sized b hb
      refine ⟨hpos, hsize, j, hstays h (hplace (r := .callers) ?_ (by simp) (by simp))⟩
      exact List.mem_map_of_mem hb
    · intro a n
      exact (hs.large a n).trans (exists_congr fun j => (hdropped.large j a n).symm)

/-! ## Large requests -/

omit [DecidableEq T] in
theorem Sound.allocatedLarge {heap : Heap} (hs : st.Sound pf)
    (hgrant : Heap.GrantedLarge pf st.heap ptr size heap) :
    ((st.setHeap heap).grantLarge request size ptr).Sound pf := by
  let st' := (st.setHeap heap).grantLarge request size ptr
  have hcontent : ∀ r, st'.content r = st.content r := by
    intro r
    cases r with
    | span j => exact hgrant.free j
    | cache u i => rfl
    | hand u => rfl
    | callers => rfl
  obtain ⟨id, hfresh, hlarge⟩ := hgrant.large
  have hnew : ∀ n, (ptr, n) ∉ st.large := by
    intro n hmem
    obtain ⟨j, hj⟩ := (hs.large ptr n).mp hmem
    have hid : heap.Large id ptr size := (hlarge _ _ _).mpr (.inl ⟨rfl, rfl, rfl⟩)
    obtain ⟨rfl, _⟩ := hgrant.sound.large_unique hid ((hlarge j ptr n).mpr (.inr hj))
    exact hfresh _ _ hj
  refine ⟨hgrant.sound, fun j => hgrant.settled j (hs.settled j),
    hs.blocks.congr hcontent ?_ ?_, ?_, ?_, List.nodup_cons.mpr ⟨hnew size, hs.large_nodup⟩,
    hs.counted, hs.busy⟩
  · exact fun a => exists_congr fun j => exists_congr fun c => hgrant.block j c a
  · intro r a _ hmay
    cases r with
    | span j => exact hmay.imp fun _ h => (hgrant.block _ _ _).mpr h
    | cache u i => exact hmay.imp fun _ h => (hgrant.block _ _ _).mpr h
    | hand u => exact hmay.imp fun _ h => (hgrant.block _ _ _).mpr h
    | callers => trivial
  · intro b hb
    obtain ⟨hpos, hsize, j, h⟩ := hs.sized b hb
    exact ⟨hpos, hsize, j, (hgrant.block _ _ _).mpr h⟩
  · intro a n
    have hmem : (a, n) ∈ st'.large ↔ (a = ptr ∧ n = size) ∨ (a, n) ∈ st.large := by
      refine List.mem_cons.trans (or_congr ?_ Iff.rfl)
      exact Prod.mk_inj
    rw [hmem, hs.large]
    constructor
    · intro h
      obtain h | ⟨j, h⟩ := h
      · exact ⟨id, (hlarge _ _ _).mpr (.inl ⟨rfl, h⟩)⟩
      · exact ⟨j, (hlarge _ _ _).mpr (.inr h)⟩
    · intro h
      obtain ⟨j, h⟩ := h
      obtain ⟨_, h⟩ | h := (hlarge _ _ _).mp h
      · exact .inl h
      · exact .inr ⟨j, h⟩

omit [DecidableEq T] in
/-- A large block is in the observer's list once. -/
theorem Sound.dropLarge_eq {n : ℕ} (hs : st.Sound pf) (hmem : (ptr, n) ∈ st.large) :
    (st.dropLarge ptr).large = st.large.erase (ptr, n) := by
  refine PageCache.eraseP_eq_erase ?_
  intro b hb
  rw [decide_eq_true_iff]
  constructor
  · intro haddr
    obtain ⟨a, m⟩ := b
    obtain rfl : a = ptr := haddr
    obtain ⟨i, hi⟩ := (hs.large a n).mp hmem
    obtain ⟨j, hj⟩ := (hs.large a m).mp hb
    rw [(hs.heap.large_unique hj hi).2]
  · exact fun heq => heq ▸ rfl

omit [DecidableEq T] in
theorem Sound.deallocatedLarge {heap : Heap} {id : SpanId} {n : ℕ} (hs : st.Sound pf)
    (hlarge : st.heap.Large id ptr n) (hreturn : Heap.ReturnedLarge pf st.heap id heap) :
    ((st.setHeap heap).dropLarge ptr).Sound pf := by
  let st' := (st.setHeap heap).dropLarge ptr
  have hmem : (ptr, n) ∈ st.large := (hs.large ptr n).mpr ⟨id, hlarge⟩
  have herase : st'.large = st.large.erase (ptr, n) := hs.dropLarge_eq hmem
  have hcontent : ∀ r, st'.content r = st.content r := by
    intro r
    cases r with
    | span j => exact hreturn.free j
    | cache u i => rfl
    | hand u => rfl
    | callers => rfl
  refine ⟨hreturn.sound, fun j => hreturn.settled j (hs.settled j),
    hs.blocks.congr hcontent ?_ ?_, ?_, ?_, herase ▸ hs.large_nodup.erase _, hs.counted, hs.busy⟩
  · exact fun a => exists_congr fun j => exists_congr fun c => hreturn.block j c a
  · intro r a _ hmay
    cases r with
    | span j => exact hmay.imp fun _ h => (hreturn.block _ _ _).mpr h
    | cache u i => exact hmay.imp fun _ h => (hreturn.block _ _ _).mpr h
    | hand u => exact hmay.imp fun _ h => (hreturn.block _ _ _).mpr h
    | callers => trivial
  · intro b hb
    obtain ⟨hpos, hsize, j, h⟩ := hs.sized b hb
    exact ⟨hpos, hsize, j, (hreturn.block _ _ _).mpr h⟩
  · intro a m
    rw [herase, hs.large_nodup.mem_erase_iff, hs.large]
    constructor
    · intro h
      obtain ⟨hne, j, h⟩ := h
      refine ⟨j, (hreturn.large _ _ _).mpr ⟨?_, h⟩⟩
      intro hj
      subst hj
      obtain ⟨s, hused, _, rfl, rfl⟩ := h
      obtain ⟨s', hused', _, rfl, rfl⟩ := hlarge
      exact hne (by rw [hused.unique hused'])
    · intro h
      obtain ⟨j, hj⟩ := h
      obtain ⟨hne, hbefore⟩ := (hreturn.large _ _ _).mp hj
      refine ⟨?_, j, hbefore⟩
      intro heq
      obtain ⟨rfl, rfl⟩ := Prod.mk.inj heq
      exact hne (hs.heap.large_unique hbefore hlarge).1

/-! ## Whole steps -/

theorem neededBytes_pos (size : ℕ) : 0 < neededBytes size := by
  unfold neededBytes
  split
  · decide
  · omega

/-- **A request**, up to its first loop. -/
theorem Sound.allocate {need answer : ℕ} (hs : st.Sound pf) (hidle : st.doing t = .idle)
    (hsystem : PageCache.SystemGrants pf st.heap.pages answer (largeAsked pf need)) :
    ∃ st', st.allocate pf t request need answer = some st' ∧ st'.Sound pf := by
  unfold Pool.allocate
  dsimp only
  split
  · next hlarge =>
    obtain ⟨ptr, heap, hcall, hgrant⟩ | ⟨hcall, _⟩ := hs.heap.allocateLarge hlarge hsystem
    · rw [hcall]
      refine ⟨_, rfl, ?_⟩
      dsimp only
      rw [if_neg hgrant.nonnull]
      exact hs.allocatedLarge hgrant
    · rw [hcall]
      exact ⟨_, rfl, hs⟩
  · next hsmall =>
    have hpos := neededBytes_pos need
    cases hpop : (st.caches t).pop (getIndex (neededBytes need)) with
    | some popped => exact ⟨_, rfl, hs.pop hidle hpos (not_lt.mp hsmall) hpop⟩
    | none =>
        have hempty : (st.caches t).freeList (getIndex (neededBytes need)) = [] := by
          rw [ThreadCache.pop] at hpop
          split at hpop
          · next hnil => exact hnil
          · cases hpop
        refine ⟨_, rfl, hs.empty_hand (by rw [hidle]; rfl) rfl ?_⟩
        exact ⟨hpos, not_lt.mp hsmall, hempty, Nat.zero_le _⟩

theorem getIndex_lt (hsize : size ≤ maxBytes) : getIndex size < classCount :=
  (leastClass_getIndex hsize).1

theorem Sound.fetch {answer : ℕ} {got : List ℕ} (hs : st.Sound pf)
    (hdoing : st.doing t = .fetching request size got)
    (hsystem : PageCache.SystemGrants pf st.heap.pages answer (spanAsked pf (getIndex size))) :
    ∃ st', st.fetch pf t answer = some st' ∧ st'.Sound pf := by
  have hbusy := hs.busy t
  rw [hdoing] at hbusy
  unfold Pool.fetch
  simp only [hdoing]
  split
  · next hroom =>
    obtain ⟨obj, heap, hcall, hturn⟩ | ⟨hcall, _⟩ :=
      hs.heap.fetchTurn hs.settled (getIndex_lt hbusy.2.1) hsystem
    · exact ⟨_, by rw [hcall]; rfl, hs.fetched hdoing hroom hturn⟩
    · exact ⟨_, by rw [hcall]; rfl, hs.finish hdoing⟩
  · exact ⟨_, rfl, hs.finish hdoing⟩

/-- A small block is found by its address, and given up. -/
theorem Sound.deallocate_small {n : ℕ} (hs : st.Sound pf) (hmem : (ptr, n) ∈ st.small)
    (sized : Bool) :
    st.deallocate pf t ptr sized = some (st.giveUp t (getIndex n) ptr sized) := by
  obtain ⟨_, hsize, id, hblock⟩ := hs.sized _ hmem
  unfold Pool.deallocate
  rw [hs.heap.find_block hblock]
  obtain ⟨s, hused, hnotlarge, hclass, _⟩ := hblock
  have hlt : ¬ classCount ≤ s.sizeClass := hclass ▸ not_le.mpr (getIndex_lt hsize)
  simp only [hused.1, hnotlarge, if_neg hlt, Bool.false_eq_true, if_false]
  rw [hclass]

/-- A large block is found by its address, and its span given up. -/
theorem Sound.deallocate_large {n : ℕ} (hs : st.Sound pf) (hmem : (ptr, n) ∈ st.large)
    (sized : Bool) :
    ∃ heap id, st.heap.Large id ptr n ∧ Heap.ReturnedLarge pf st.heap id heap ∧
      st.deallocate pf t ptr sized =
        some (((st.setHeap heap).dropLarge ptr).recordFree (some sized)) := by
  obtain ⟨id, hlarge⟩ := (hs.large ptr n).mp hmem
  have hspan := hlarge
  obtain ⟨s, hused, hislarge, _⟩ := hspan
  obtain ⟨pages, hcall, hreturn⟩ := hs.heap.deallocateLarge hused hislarge
  refine ⟨_, id, hlarge, hreturn, ?_⟩
  unfold Pool.deallocate
  rw [(hs.heap.find_large hlarge).2]
  simp only [hused.1, hislarge, hcall]
  rfl

/-- **A block that a caller holds** can be given up. -/
theorem Sound.deallocate {n : ℕ} (hs : st.Sound pf) (hidle : st.doing t = .idle)
    (hmem : (ptr, n) ∈ st.live) (sized : Bool) :
    ∃ st', st.deallocate pf t ptr sized = some st' ∧ st'.Sound pf := by
  obtain hsmall | hlarge := List.mem_append.mp hmem
  · exact ⟨_, hs.deallocate_small hsmall sized, hs.giveUp hidle hsmall sized⟩
  · obtain ⟨heap, id, hspan, hreturn, hcall⟩ := hs.deallocate_large hlarge sized
    exact ⟨_, hcall, (hs.deallocatedLarge hspan hreturn).recordFree _⟩

/-- **What a caller says about the size** is enough to find the class: the block
goes where a lookup would have put it. -/
theorem Sound.deallocateSized_eq {n : ℕ} (hs : st.Sound pf) (hmem : (ptr, n) ∈ st.live)
    (hclass : getIndex (neededBytes size) = getIndex n) :
    st.deallocateSized pf t ptr size = st.deallocate pf t ptr true := by
  unfold Pool.deallocateSized
  split
  · next hnull =>
    unfold Pool.deallocate
    rw [PageCache.findSpan, if_pos hnull]
  · split
    · rfl
    · next hfits =>
      have hfits := not_lt.mp hfits
      have hlt := getIndex_lt hfits
      rw [getIndex_roundUp hfits, if_neg (not_le.mpr hlt), hclass]
      obtain hsmall | hlarge := List.mem_append.mp hmem
      · exact (hs.deallocate_small hsmall true).symm
      · obtain ⟨id, s, hused, hislarge, _, rfl⟩ := (hs.large ptr n).mp hlarge
        rw [hclass, getIndex_large (hs.heap.large id s hused hislarge).1] at hlt
        exact absurd hlt (lt_irrefl _)

/-- **No step is undefined**, and each keeps the invariant. -/
theorem Sound.exec {e : Event T} (hs : st.Sound pf) (henabled : st.Enabled pf e) :
    ∃ st', st.exec pf e = some st' ∧ st'.Sound pf := by
  cases e with
  | allocate t size answer => exact hs.allocate henabled.1 henabled.2
  | allocateAligned t size align answer =>
      simp only [Pool.exec]
      cases hneed : alignedBytes size align with
      | none => exact ⟨st, rfl, hs⟩
      | some need => exact hs.allocate henabled.1 (henabled.2 need hneed)
  | fetch t answer =>
      obtain ⟨request, size, got, hdoing, hsystem⟩ := henabled
      exact hs.fetch hdoing hsystem
  | deallocate t ptr =>
      simp only [Pool.exec]
      obtain ⟨hidle, hnull | ⟨size, hmem⟩⟩ := henabled
      · exact ⟨st, if_pos hnull, hs⟩
      · split
        · exact ⟨st, rfl, hs⟩
        · exact hs.deallocate hidle hmem false
  | deallocateSized t ptr size =>
      obtain ⟨hidle, hnull | ⟨need, hmem, hclass⟩⟩ := henabled
      · exact ⟨st, if_pos hnull, hs⟩
      · simp only [Pool.exec, hs.deallocateSized_eq hmem hclass]
        exact hs.deallocate hidle hmem true
  | giveBack t =>
      obtain ⟨index, chain, freed, hdoing⟩ := henabled
      cases chain with
      | nil =>
          simp only [Pool.exec, Pool.giveBack, hdoing]
          refine ⟨_, rfl, Sound.recordFree ?_ _⟩
          exact hs.empty_hand (by rw [hdoing]; rfl) rfl trivial
      | cons cur chain =>
          obtain ⟨heap, hcall, hsound⟩ := hs.gaveBack hdoing
          refine ⟨_, ?_, hsound⟩
          simp only [Pool.exec, Pool.giveBack, hdoing, hcall]
          rfl
  | flush t index => exact ⟨_, rfl, hs.flush henabled.1 index⟩

end Pool

end Gpuforge.Kama

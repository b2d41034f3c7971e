import Gpuforge.BackedPools
import Gpuforge.ExclusivePlaces

/-!
# The vendored pool is a sound backend

A `MemoryPool` relies on its backend: an answer is null or a pointer that is not
outstanding.  The vendored pool keeps this promise to any number of `MemoryPool`s
at once, whose calls overlap.  What carries the proof is an account of the
vendored pool's blocks: a block that is out belongs to one `MemoryPool`, which
knows it by its address and asked for no more bytes than it has.
-/

namespace Gpuforge

open LabelledRun Kama

namespace MemoryPool

/-- The backend is asked for nothing, or for the bytes of the call. -/
theorem allocate_calls (pool : MemoryPool) (n a : ℕ) :
    (pool.allocate n a 0).2.2 =
      if n = 0 ∨ pool.capacity - min pool.capacity pool.usedBytes < n then []
      else [if 8 < a then .allocateAligned n a else .allocate n] := by
  unfold MemoryPool.allocate
  by_cases hn : n = 0
  · simp [hn]
  · by_cases hroom : pool.capacity - min pool.capacity pool.usedBytes < n
    · simp [hn, hroom]
    · simp [hn, hroom]

end MemoryPool

namespace PoolLedger

variable {st : PoolLedger} {n a ptr : ℕ}

/-- An allocation that gets nothing changes nothing. -/
theorem exec_null (st : PoolLedger) (n a : ℕ) :
    (st.exec (.allocate n a 0)).pool = st.pool ∧
      (st.exec (.allocate n a 0)).outstanding = st.outstanding := by
  simp only [PoolLedger.exec, MemoryPool.allocate]
  by_cases hn : n = 0
  · simp [hn]
  · by_cases hroom : st.pool.capacity - min st.pool.capacity st.pool.usedBytes < n
    · simp [hn, hroom]
    · simp [hn, hroom]

/-- An allocation that gets a block is outstanding. -/
theorem Accounts.exec_granted (h : Accounts st) (hn : 0 < n)
    (hroom : n ≤ st.pool.capacity - st.pool.used) (hptr : ptr ≠ 0) (hnew : ¬ st.Outstanding ptr) :
    (st.exec (.allocate n a ptr)).outstanding = (ptr, n) :: st.outstanding := by
  obtain ⟨call, _, heq⟩ := h.allocate_ok hn hroom hptr hnew (a := a)
  simp only [PoolLedger.exec, heq, if_neg hptr]

/-- A pointer that is not outstanding can be released to no effect. -/
theorem Accounts.exec_foreign (h : Accounts st) (hptr : ¬ st.Outstanding ptr) :
    (st.exec (.release ptr)).pool = st.pool ∧
      (st.exec (.release ptr)).outstanding = st.outstanding := by
  refine ⟨by rw [PoolLedger.exec, h.release_foreign hptr], ?_⟩
  refine List.filter_eq_self.mpr ?_
  intro b hb
  rw [decide_eq_true_iff]
  intro hbptr
  exact hptr (List.mem_map.mpr ⟨b, hb, hbptr⟩)

end PoolLedger

namespace BackedPools

variable {P T : Type} {pf : Platform} {st st' : BackedPools P T} {t : T} {p : P}
  {n a ptr size need : ℕ}

/-! ## Whose block it is -/

/-- The pointers a pool has given out. -/
def content (st : BackedPools P T) (p : P) : List ℕ := (st.ledgers p).outstanding.map Prod.fst

/-- The vendored pool has given out the pointer. -/
def There (st : BackedPools P T) (ptr : ℕ) : Prop := ptr ∈ st.backend.live.map Prod.fst

/-- The vendored pool has given out all the bytes that the pool asked for. -/
def Backs (st : BackedPools P T) (p : P) (ptr : ℕ) : Prop :=
  ∀ n, (ptr, n) ∈ (st.ledgers p).outstanding → ∃ need, n ≤ need ∧ (ptr, need) ∈ st.backend.live

/-- Each block that is out belongs to one pool. -/
abbrev Owned (st : BackedPools P T) : Prop :=
  ExclusivePlaces.Accounts st.There st.Backs st.content

theorem Owned.same (h : st.Owned)
    (hledgers : ∀ p, (st'.ledgers p).outstanding = (st.ledgers p).outstanding)
    (hlive : st'.backend.live = st.backend.live) : st'.Owned := by
  refine h.congr (fun p => by rw [content, hledgers, content]) ?_ ?_
  · intro ptr
    rw [There, hlive, There]
  · intro p ptr _ hbacks
    rwa [Backs, hledgers, hlive]

/-- A block given to a pool is its own. -/
theorem Owned.granted (h : st.Owned) (hnodup : (st'.backend.live.map Prod.fst).Nodup)
    (hlive : st'.backend.live.Perm ((ptr, size) :: st.backend.live)) (hle : n ≤ size)
    (hledger : (st'.ledgers p).outstanding = (ptr, n) :: (st.ledgers p).outstanding)
    (hothers : ∀ q, q ≠ p → (st'.ledgers q).outstanding = (st.ledgers q).outstanding) :
    st'.Owned := by
  have hfst : (st'.backend.live.map Prod.fst).Perm (ptr :: st.backend.live.map Prod.fst) :=
    hlive.map Prod.fst
  have hfresh := (List.nodup_cons.mp (hfst.nodup_iff.mp hnodup)).1
  refine h.add (List.nodup_singleton ptr) ?_ (p := p) ?_ ?_ ?_ ?_ ?_
  · intro x hx
    exact List.mem_singleton.mp hx ▸ hfresh
  · rw [content, hledger]
    exact List.Perm.refl _
  · intro q hq
    rw [content, hothers q hq, content]
  · intro x
    rw [There, hfst.mem_iff, List.mem_cons, List.mem_singleton, There]
  · intro x hx m hm
    obtain rfl := List.mem_singleton.mp hx
    rw [hledger] at hm
    obtain heq | hm := List.mem_cons.mp hm
    · obtain ⟨_, rfl⟩ := Prod.mk.inj heq
      exact ⟨size, hle, hlive.mem_iff.mpr List.mem_cons_self⟩
    · have hold : x ∈ st.content p := List.mem_map.mpr ⟨_, hm, rfl⟩
      exact absurd ((h.complete x).mpr ⟨p, hold⟩) hfresh
  · intro q x hx hbacks m hm
    have hne : x ≠ ptr := by
      intro hxp
      exact hfresh (hxp ▸ (h.complete x).mpr ⟨q, hx⟩)
    have hold : (x, m) ∈ (st.ledgers q).outstanding := by
      by_cases hq : q = p
      · subst hq
        rw [hledger] at hm
        obtain heq | hm := List.mem_cons.mp hm
        · exact absurd (Prod.mk.inj heq).1 hne
        · exact hm
      · rwa [hothers q hq] at hm
    obtain ⟨need, hle, hmem⟩ := hbacks m hold
    exact ⟨need, hle, hlive.mem_iff.mpr (List.mem_cons_of_mem _ hmem)⟩

/-- A block given back is no pool's. -/
theorem Owned.released (h : st.Owned) (hnodup : (st.backend.live.map Prod.fst).Nodup)
    (hlive : st.backend.live.Perm ((ptr, need) :: st'.backend.live)) (hptr : ptr ∈ st.content p)
    (hledger : (st'.ledgers p).outstanding =
      (st.ledgers p).outstanding.filter fun b => b.1 ≠ ptr)
    (hothers : ∀ q, q ≠ p → (st'.ledgers q).outstanding = (st.ledgers q).outstanding) :
    st'.Owned := by
  have hfst : (st.backend.live.map Prod.fst).Perm (ptr :: st'.backend.live.map Prod.fst) :=
    hlive.map Prod.fst
  have hgone := (List.nodup_cons.mp (hfst.nodup_iff.mp hnodup)).1
  have hmem : ∀ q x m, (x, m) ∈ (st'.ledgers q).outstanding ↔
      (x, m) ∈ (st.ledgers q).outstanding ∧ x ≠ ptr := by
    intro q x m
    by_cases hq : q = p
    · subst hq
      simp [hledger]
    · rw [hothers q hq]
      refine ⟨fun hm => ⟨hm, ?_⟩, fun hm => hm.1⟩
      intro hx
      subst hx
      exact hq (h.unique q p x (List.mem_map.mpr ⟨_, hm, rfl⟩) hptr)
  refine h.remove [ptr] ?_ ?_ ?_ ?_
  · intro q
    by_cases hq : q = p
    · subst hq
      rw [content, hledger]
      exact (h.nodup q).sublist (List.filter_sublist.map Prod.fst)
    · rw [content, hothers q hq]
      exact h.nodup q
  · intro q x
    simp [content, hmem]
  · intro x
    rw [There, There, hfst.mem_iff, List.mem_cons, List.mem_singleton]
    constructor
    · intro hx
      exact ⟨.inr hx, fun hxp => hgone (hxp ▸ hx)⟩
    · exact fun hx => hx.1.resolve_left hx.2
  · intro q x _ hx hbacks m hm
    have hne : x ≠ ptr := by simpa using hx
    obtain ⟨need', hle, hmem'⟩ := hbacks m ((hmem q x m).mp hm).1
    refine ⟨need', hle, (List.mem_cons.mp (hlive.mem_iff.mp hmem')).resolve_left ?_⟩
    intro heq
    exact hne (Prod.mk.inj heq).1

/-! ## The invariant -/

/-- What a thread is doing in the vendored pool is what its call is waiting for. -/
inductive Fits (ledgers : P → PoolLedger) : Option (P × PendingCall) → Activity → Prop
  | idle : Fits ledgers none .idle
  | flushing (index : ℕ) (chain : List ℕ) : Fits ledgers none (.returning index chain none)
  | allocating (p : P) (n a size : ℕ) (got : List ℕ) (hpos : 0 < n) (hle : n ≤ size)
      (hroom : n ≤ (ledgers p).pool.capacity - (ledgers p).pool.used) :
      Fits ledgers (some (p, .allocate n a)) (.fetching n size got)
  | releasing (p : P) (index : ℕ) (chain : List ℕ) (sized : Bool) :
      Fits ledgers (some (p, .release)) (.returning index chain (some sized))

/-- **The invariant of the process.** -/
structure Sound (pf : Platform) (st : BackedPools P T) : Prop where
  backend : st.backend.Sound pf
  accounts : ∀ p, (st.ledgers p).Accounts
  owned : st.Owned
  fits : ∀ t, Fits st.ledgers (st.calls t) (st.backend.doing t)
  mutex : ∀ t u p c d, st.calls t = some (p, c) → st.calls u = some (p, d) → t = u

/-- A pool takes a step of its own, or none. -/
def Advances (ledger ledger' : PoolLedger) : Prop :=
  ledger' = ledger ∨ ∃ label : Unit × PoolCall, PoolLedger.Moves ledger label ledger'

theorem Fits.congr {ledgers ledgers' : P → PoolLedger} {call : Option (P × PendingCall)}
    {act : Activity} (h : Fits ledgers call act)
    (hsame : ∀ p c, call = some (p, c) → (ledgers' p).pool = (ledgers p).pool) :
    Fits ledgers' call act := by
  cases h with
  | idle => exact .idle
  | flushing index chain => exact .flushing index chain
  | allocating p n a size got hpos hle hroom =>
      exact .allocating p n a size got hpos hle (by rw [hsame p _ rfl]; exact hroom)
  | releasing p index chain sized => exact .releasing p index chain sized

theorem sound_start {capacity : P → ℕ} (hcapacity : ∀ p, capacity p < 2 ^ 64) :
    Sound (T := T) pf (start capacity hcapacity) where
  backend := Pool.sound_start
  accounts := fun p => PoolLedger.accounts_start (capacity p) (hcapacity p)
  owned := by
    refine ⟨⟨fun _ => .nil, ?_⟩, ?_, ?_⟩
    · intro p q x hx
      cases hx
    · intro p x hx
      cases hx
    · intro x
      constructor
      · intro hx
        cases hx
      · intro hx
        obtain ⟨p, hx⟩ := hx
        cases hx
  fits := fun _ => .idle
  mutex := by
    intro t u p c d h
    cases h

/-- **One thread's step** keeps the invariant, if it leaves the pools alone that
other threads are waiting in, and takes no mutex that is taken. -/
theorem Sound.next (hs : st.Sound pf) (hbackend : st'.backend.Sound pf)
    (haccounts : ∀ q, (st'.ledgers q).Accounts) (howned : st'.Owned)
    (hcalls : ∀ u, u ≠ t → st'.calls u = st.calls u)
    (hdoing : ∀ u, u ≠ t → st'.backend.doing u = st.backend.doing u)
    (hfits : Fits st'.ledgers (st'.calls t) (st'.backend.doing t))
    (hkeep : ∀ u q c, u ≠ t → st.calls u = some (q, c) →
      (st'.ledgers q).pool = (st.ledgers q).pool)
    (hlock : ∀ u q c d, u ≠ t → st'.calls t = some (q, c) → st.calls u ≠ some (q, d)) :
    st'.Sound pf := by
  refine ⟨hbackend, haccounts, howned, ?_, ?_⟩
  · intro u
    by_cases hu : u = t
    · exact hu ▸ hfits
    · rw [hcalls u hu, hdoing u hu]
      exact (hs.fits u).congr fun q c hc => hkeep u q c hu hc
  · intro u v q c d hc hd
    by_cases hu : u = t
    · by_cases hv : v = t
      · rw [hu, hv]
      · rw [hcalls v hv] at hd
        exact absurd hd (hlock v q c d hv (hu ▸ hc))
    · rw [hcalls u hu] at hc
      by_cases hv : v = t
      · exact absurd hc (hlock u q d c hu (hv ▸ hd))
      · rw [hcalls v hv] at hd
        exact hs.mutex u v q c d hc hd

/-! ## Steps -/

variable [DecidableEq P] [DecidableEq T] {backend : Pool T}

omit [DecidableEq P] in
/-- A step that leaves all pools and all blocks alone. -/
theorem Sound.rests (hs : st.Sound pf) (hbackend : backend.Sound pf)
    (hlive : Pool.SameLive st.backend backend)
    (hdoing : ∀ u, u ≠ t → backend.doing u = st.backend.doing u)
    {pending : Option (P × PendingCall)} (hfits : Fits st.ledgers pending (backend.doing t))
    (hlock : ∀ u q c d, u ≠ t → pending = some (q, c) → st.calls u ≠ some (q, d)) :
    ((st.setCall t pending).setBackend backend).Sound pf := by
  have hself : ((st.setCall t pending).setBackend backend).calls t = pending := if_pos rfl
  refine hs.next hbackend hs.accounts (hs.owned.same (fun _ => rfl) hlive.live) ?_ hdoing ?_ ?_ ?_
  · exact fun u hu => if_neg hu
  · rw [hself]
    exact hfits
  · exact fun _ _ _ _ _ => rfl
  · intro u q c d hu hc
    exact hlock u q c d hu (hself ▸ hc)

/-- A step in which a pool's call takes effect. -/
theorem Sound.acts (hs : st.Sound pf) (hbackend : backend.Sound pf)
    (hdoing : ∀ u, u ≠ t → backend.doing u = st.backend.doing u)
    (hlock : ∀ u c, u ≠ t → st.calls u ≠ some (p, c)) {call : PoolCall}
    (hcall : (st.ledgers p).BackendSound call) {pending : Option (P × PendingCall)}
    (hpending : ∀ q c, pending = some (q, c) → q = p)
    (heq : st' = ((st.setLedger p ((st.ledgers p).exec call)).setCall t pending).setBackend backend)
    (howned : st'.Owned) (hfits : Fits st'.ledgers pending (backend.doing t)) :
    st'.Sound pf ∧ ∀ q, Advances (st.ledgers q) (st'.ledgers q) := by
  have hself : st'.ledgers p = (st.ledgers p).exec call := by
    rw [heq]
    exact if_pos rfl
  have hother : ∀ q, q ≠ p → st'.ledgers q = st.ledgers q := by
    intro q hq
    rw [heq]
    exact if_neg hq
  have hpend : st'.calls t = pending := by
    rw [heq]
    exact if_pos rfl
  have hback : st'.backend = backend := by rw [heq]; rfl
  constructor
  · refine hs.next (hback ▸ hbackend) ?_ howned ?_ ?_ ?_ ?_ ?_ (t := t)
    · intro q
      by_cases hq : q = p
      · rw [hq, hself]
        exact (hs.accounts p).exec hcall
      · rw [hother q hq]
        exact hs.accounts q
    · intro u hu
      rw [heq]
      exact if_neg hu
    · intro u hu
      rw [hback, hdoing u hu]
    · rw [hpend, hback]
      exact hfits
    · intro u q c hu hc
      rw [hother q]
      intro hq
      exact hlock u c hu (hq ▸ hc)
    · intro u q c d hu hc
      obtain rfl := hpending q c (hpend ▸ hc)
      exact hlock u d hu
  · intro q
    by_cases hq : q = p
    · subst hq
      exact .inr ⟨((), call), hcall, hself⟩
    · exact .inl (hother q hq)

omit [DecidableEq T] in
/-- A call that turns out to have no effect. -/
theorem Sound.quiet (hs : st.Sound pf) {call : PoolCall}
    (hcall : (st.ledgers p).BackendSound call)
    (hpool : ((st.ledgers p).exec call).pool = (st.ledgers p).pool)
    (hout : ((st.ledgers p).exec call).outstanding = (st.ledgers p).outstanding) (t : T) :
    (st.setLedger p ((st.ledgers p).exec call)).Sound pf ∧
      ∀ q, Advances (st.ledgers q) ((st.setLedger p ((st.ledgers p).exec call)).ledgers q) := by
  have hself : (st.setLedger p ((st.ledgers p).exec call)).ledgers p = (st.ledgers p).exec call :=
    if_pos rfl
  have hother : ∀ q, q ≠ p →
      (st.setLedger p ((st.ledgers p).exec call)).ledgers q = st.ledgers q := fun q hq => if_neg hq
  have hpools : ∀ q,
      ((st.setLedger p ((st.ledgers p).exec call)).ledgers q).pool = (st.ledgers q).pool := by
    intro q
    by_cases hq : q = p
    · rw [hq, hself, hpool]
    · rw [hother q hq]
  constructor
  · refine hs.next hs.backend ?_ (hs.owned.same ?_ rfl) (fun _ _ => rfl) (fun _ _ => rfl)
      ((hs.fits t).congr fun q _ _ => hpools q) (fun u q _ _ _ => hpools q) ?_
    · intro q
      by_cases hq : q = p
      · rw [hq, hself]
        exact (hs.accounts p).exec hcall
      · rw [hother q hq]
        exact hs.accounts q
    · intro q
      by_cases hq : q = p
      · rw [hq, hself, hout]
      · rw [hother q hq]
    · intro u q c d hu hc hd
      exact hu (hs.mutex u t q d c hd hc)
  · intro q
    by_cases hq : q = p
    · subst hq
      exact .inr ⟨((), call), hcall, hself⟩
    · exact .inl (hother q hq)

/-- **An allocation goes on.** -/
theorem Sound.resume_allocate (hs : st.Sound pf) (hbackend : backend.Sound pf)
    (hdoing : ∀ u, u ≠ t → backend.doing u = st.backend.doing u)
    (hlock : ∀ u c, u ≠ t → st.calls u ≠ some (p, c)) (hpos : 0 < n) (hle : n ≤ size)
    (hroom : n ≤ (st.ledgers p).pool.capacity - (st.ledgers p).pool.used)
    (hstep : Pool.Allocates st.backend backend t n size) :
    (st.resume t p (.allocate n a) backend).Sound pf ∧
      ∀ q, Advances (st.ledgers q) ((st.resume t p (.allocate n a) backend).ledgers q) := by
  cases hstep with
  | waits got doing live =>
      have heq : st.resume t p (.allocate n a) backend =
          (st.setCall t (some (p, .allocate n a))).setBackend backend :=
        if_neg (by rw [doing]; simp)
      rw [heq]
      refine ⟨hs.rests hbackend live hdoing ?_ ?_, fun _ => .inl rfl⟩
      · rw [doing]
        exact .allocating p n a size got hpos hle hroom
      · intro u q c d hu hc
        obtain ⟨rfl, _⟩ := Prod.mk.inj (Option.some.inj hc)
        exact hlock u d hu
  | fails doing live =>
      have heq : st.resume t p (.allocate n a) backend =
          ((st.setLedger p ((st.ledgers p).exec (.allocate n a 0))).setCall t none).setBackend
            backend := by
        rw [BackedPools.resume, if_pos doing]
        simp only [live.handedOver]
      obtain ⟨_, hout⟩ := (st.ledgers p).exec_null n a
      have hcall : (st.ledgers p).BackendSound (.allocate n a 0) := Or.inl rfl
      refine hs.acts hbackend hdoing hlock hcall (by simp) heq (hs.owned.same ?_ ?_) ?_
      · intro q
        rw [heq]
        by_cases hq : q = p
        · subst hq
          simpa [setBackend, setCall, setLedger] using hout
        · simp [setBackend, setCall, setLedger, hq]
      · rw [heq]
        exact live.live
      · rw [doing]
        exact .idle
  | returns ptr doing live =>
      have heq : st.resume t p (.allocate n a) backend =
          ((st.setLedger p ((st.ledgers p).exec (.allocate n a ptr))).setCall t none).setBackend
            backend := by
        rw [BackedPools.resume, if_pos doing]
        simp only [live.handedOver]
      have hlive := live.live
      have hnonnull : ptr ≠ 0 := hbackend.live_nonnull (hlive.mem_iff.mpr List.mem_cons_self)
      have hnodup := hbackend.live_nodup
      have hfresh := (List.nodup_cons.mp ((hlive.map Prod.fst).nodup_iff.mp hnodup)).1
      have hnew : ¬ (st.ledgers p).Outstanding ptr :=
        fun hout => hfresh ((hs.owned.complete ptr).mpr ⟨p, hout⟩)
      have hout := (hs.accounts p).exec_granted hpos hroom hnonnull hnew (a := a)
      have hcall : (st.ledgers p).BackendSound (.allocate n a ptr) := Or.inr hnew
      refine hs.acts hbackend hdoing hlock hcall (by simp) heq ?_ (doing ▸ .idle)
      refine hs.owned.granted ?_ (by rw [heq]; exact hlive) hle ?_ ?_ (p := p)
      · rw [heq]
        exact hnodup
      · rw [heq]
        simpa [setBackend, setCall, setLedger] using hout
      · intro q hq
        rw [heq]
        simp [setBackend, setCall, setLedger, hq]

/-- The first step of a call that reaches the vendored pool. -/
theorem allocates_first {answer : ℕ} {before after : Pool T} (hidle : before.doing t = .idle)
    (hpos : 0 < n) (hn : n < 2 ^ 64) (ha : a < 2 ^ 64)
    (hexec : before.exec pf
      (firstStep t answer (if 8 < a then .allocateAligned n a else .allocate n)) = some after) :
    ∃ size, n ≤ size ∧ Pool.Allocates before after t n size := by
  split at hexec
  · simp only [firstStep, Pool.exec] at hexec
    split at hexec
    · obtain rfl := Option.some.inj hexec
      exact ⟨n, le_refl _, .fails hidle ⟨rfl, rfl⟩⟩
    · next need hneed =>
      obtain ⟨_, _, hle, _⟩ := Pool.alignedBytes_spec hneed hpos hn ha
      exact ⟨_, hle, Pool.allocates_allocate hidle hexec⟩
  · have hneeded : neededBytes n = n := if_neg hpos.ne'
    exact ⟨_, hneeded.ge, Pool.allocates_allocate hidle hexec⟩

omit [DecidableEq T] in
theorem thread_firstStep (t : T) (answer : ℕ) (call : BackendCall) :
    (firstStep t answer call).thread = t := by
  cases call <;> rfl

omit [DecidableEq P] [DecidableEq T] in
theorem thread_nextStep (st : BackedPools P T) (t : T) (answer : ℕ) :
    (st.nextStep t answer).thread = t := by
  unfold nextStep
  split <;> rfl

/-- **`allocate` is called.** -/
theorem Sound.allocate {answer : ℕ} (hs : st.Sound pf)
    (henabled : st.Enabled pf (.allocate t p n a answer)) :
    ∃ st', st.exec pf (.allocate t p n a answer) = some st' ∧ st'.Sound pf ∧
      ∀ q, Advances (st.ledgers q) (st'.ledgers q) := by
  obtain ⟨hidle, hunlocked, ha, hcalls⟩ := henabled
  have haccounts := hs.accounts p
  have hwithin : (st.ledgers p).pool.usedBytes ≤ (st.ledgers p).pool.capacity := haccounts.within
  have hcapacity := (st.ledgers p).pool.capacity_lt
  have hasks := (st.ledgers p).pool.allocate_calls n a
  simp only [BackedPools.exec]
  split at hasks
  · rw [hasks]
    obtain ⟨hpool, hout⟩ := (st.ledgers p).exec_null n a
    have hcall : (st.ledgers p).BackendSound (.allocate n a 0) := Or.inl rfl
    exact ⟨_, rfl, hs.quiet hcall hpool hout t⟩
  · next hfits =>
    rw [hasks] at hcalls ⊢
    obtain ⟨hne, hroom⟩ := not_or.mp hfits
    rw [Nat.min_eq_right hwithin, not_lt] at hroom
    obtain ⟨backend, hexec, hbackend⟩ := hs.backend.exec (hcalls _ (List.mem_singleton_self _))
    obtain ⟨size, hle, hstep⟩ :=
      allocates_first hidle (Nat.pos_of_ne_zero hne) (by omega) ha hexec
    dsimp only
    rw [hexec]
    refine ⟨_, rfl, hs.resume_allocate hbackend ?_ ?_ (Nat.pos_of_ne_zero hne) hle
      hroom hstep⟩
    · intro u hu
      exact Pool.doing_exec hexec (by rw [thread_firstStep]; exact hu)
    · exact fun u c _ => hunlocked hne u c

/-- **A release goes on.** -/
theorem resume_release (st : BackedPools P T) (p : P) {sized : Bool}
    (hdoing : backend.doing t = .idle ∨
      ∃ index chain, backend.doing t = .returning index chain (some sized)) :
    ∃ pending : Option (P × PendingCall), (∀ q c, pending = some (q, c) → q = p) ∧
      st.resume t p .release backend = (st.setCall t pending).setBackend backend ∧
      ∀ ledgers, Fits ledgers pending (backend.doing t) := by
  obtain hidle | ⟨index, chain, hreturning⟩ := hdoing
  · refine ⟨none, by simp, if_pos hidle, ?_⟩
    intro ledgers
    rw [hidle]
    exact .idle
  · refine ⟨some (p, .release), ?_, if_neg (by rw [hreturning]; simp), ?_⟩
    · intro q c hc
      exact (Prod.mk.inj (Option.some.inj hc)).1.symm
    · intro ledgers
      rw [hreturning]
      exact .releasing p index chain sized

/-- **`release` is called**, with whatever pointer. -/
theorem Sound.release (hs : st.Sound pf) (henabled : st.Enabled pf (.release t p ptr)) :
    ∃ st', st.exec pf (.release t p ptr) = some st' ∧ st'.Sound pf ∧
      ∀ q, Advances (st.ledgers q) (st'.ledgers q) := by
  obtain ⟨hidle, hunlocked⟩ := henabled
  have haccounts := hs.accounts p
  simp only [BackedPools.exec]
  by_cases hout : (st.ledgers p).Outstanding ptr
  · have hne : ptr ≠ 0 := fun hzero => haccounts.nonnull (hzero ▸ hout)
    obtain ⟨_, _, _, hrelease⟩ := haccounts.release_outstanding hout
    have hcalls : ((st.ledgers p).pool.release ptr).2 = [.deallocate ptr] := by rw [hrelease]
    obtain ⟨⟨x, need⟩, hmem, hx⟩ := List.mem_map.mp ((hs.owned.complete ptr).mpr ⟨p, hout⟩)
    obtain rfl : x = ptr := hx
    have hfree : st.backend.Enabled pf (.deallocate t x) := ⟨hidle, .inr ⟨need, hmem⟩⟩
    obtain ⟨backend, hexec, hbackend⟩ := hs.backend.exec hfree
    have hdoing : ∀ u, u ≠ t → backend.doing u = st.backend.doing u :=
      fun u hu => Pool.doing_exec hexec hu
    rw [hcalls]
    simp only [firstStep]
    rw [hexec]
    refine ⟨_, rfl, ?_⟩
    rw [Pool.exec, if_neg hne] at hexec
    have htakes := hs.backend.takes_deallocate hidle hmem hexec
    obtain ⟨pending, hpending, heq, hfits⟩ := resume_release
      (st.setLedger p ((st.ledgers p).exec (.release x))) p htakes.doing
    have hcall : (st.ledgers p).BackendSound (.release x) := trivial
    refine hs.acts hbackend hdoing (fun u c _ => hunlocked hne u c) hcall hpending heq ?_ (hfits _)
    refine hs.owned.released hs.backend.live_nodup (by rw [heq]; exact htakes.live) hout ?_ ?_
    · rw [heq]
      simp [setBackend, setCall, setLedger, PoolLedger.exec]
    · intro q hq
      rw [heq]
      simp [setBackend, setCall, setLedger, hq]
  · obtain ⟨hpool, hsame⟩ := haccounts.exec_foreign hout
    rw [haccounts.release_foreign hout]
    have hcall : (st.ledgers p).BackendSound (.release ptr) := trivial
    exact ⟨_, rfl, hs.quiet hcall hpool hsame t⟩

omit [DecidableEq P] in
/-- A step of `flushAll`. -/
theorem Sound.flushes (hs : st.Sound pf) (hbackend : backend.Sound pf)
    (hdoing : ∀ u, u ≠ t → backend.doing u = st.backend.doing u) (hcall : st.calls t = none)
    (hlive : Pool.SameLive st.backend backend)
    (hafter : backend.doing t = .idle ∨
      ∃ index chain, backend.doing t = .returning index chain none) :
    (st.setBackend backend).Sound pf := by
  have hself : st.setBackend backend = (st.setCall t none).setBackend backend := by
    have hcalls : (fun u => if u = t then none else st.calls u) = st.calls := by
      funext u
      split
      · next hu => rw [hu, hcall]
      · rfl
    rw [setCall, hcalls]
  rw [hself]
  refine hs.rests hbackend hlive hdoing ?_ (by simp)
  obtain hidle | ⟨index, chain, hreturning⟩ := hafter
  · exact hidle ▸ .idle
  · exact hreturning ▸ .flushing index chain

/-- **The vendored pool goes on** with a thread's call, or with its `flushAll`. -/
theorem Sound.turn {answer : ℕ} (hs : st.Sound pf) (henabled : st.Enabled pf (.turn t answer)) :
    ∃ st', st.exec pf (.turn t answer) = some st' ∧ st'.Sound pf ∧
      ∀ q, Advances (st.ledgers q) (st'.ledgers q) := by
  obtain ⟨backend, hexec, hbackend⟩ := hs.backend.exec henabled
  have hdoing : ∀ u, u ≠ t → backend.doing u = st.backend.doing u :=
    fun u hu => Pool.doing_exec hexec (by rw [thread_nextStep]; exact hu)
  have hlock : ∀ {p c}, st.calls t = some (p, c) → ∀ u d, u ≠ t → st.calls u ≠ some (p, d) :=
    fun hc u d hu hd => hu (hs.mutex u t _ d _ hd hc)
  have hfits := hs.fits t
  simp only [BackedPools.exec, hexec]
  generalize hcall : st.calls t = call at hfits
  generalize hact : st.backend.doing t = act at hfits
  cases hfits with
  | idle =>
      obtain ⟨_, _, _, hreturning⟩ : st.backend.Enabled pf (.giveBack t) := by
        simpa [nextStep, hact, BackedPools.Enabled] using henabled
      rw [hact] at hreturning
      cases hreturning
  | flushing index chain =>
      simp only [nextStep, hact] at hexec
      obtain ⟨hlive, hafter⟩ := Pool.giveBack_outcome hact hexec
      exact ⟨_, rfl, hs.flushes hbackend hdoing hcall hlive
        (hafter.imp_right fun h => ⟨index, h⟩), fun _ => .inl rfl⟩
  | allocating p n a size got hpos hle hroom =>
      simp only [nextStep, hact] at hexec
      exact ⟨_, rfl, hs.resume_allocate hbackend hdoing (hlock hcall) hpos hle hroom
        (Pool.allocates_fetch hact hexec)⟩
  | releasing p index chain sized =>
      simp only [nextStep, hact] at hexec
      obtain ⟨hlive, hafter⟩ := Pool.giveBack_outcome hact hexec
      obtain ⟨pending, hpending, heq, hfits⟩ :=
        resume_release st p (hafter.imp_right fun h => ⟨index, h⟩)
      refine ⟨_, rfl, ?_, ?_⟩
      · rw [heq]
        refine hs.rests hbackend hlive hdoing (hfits _) ?_
        intro u q c d hu hc
        obtain rfl := hpending q c hc
        exact hlock hcall u d hu
      · intro q
        rw [heq]
        exact .inl rfl

/-- **Each step** is defined and keeps the invariant; the pools take steps of their
own, or none. -/
theorem Sound.exec {e : BackedStep P T} (hs : st.Sound pf) (henabled : st.Enabled pf e) :
    ∃ st', st.exec pf e = some st' ∧ st'.Sound pf ∧
      ∀ q, Advances (st.ledgers q) (st'.ledgers q) := by
  cases e with
  | allocate t p n a answer => exact hs.allocate henabled
  | release t p ptr => exact hs.release henabled
  | turn t answer => exact hs.turn henabled
  | flush t index =>
      have hflush : st.backend.Enabled pf (.flush t index) := henabled
      have hidle : st.backend.doing t = .idle := hflush.1
      obtain ⟨hlive, hafter⟩ := Pool.flush_outcome hidle index
      have hcall : st.calls t = none := by
        have hfits := hs.fits t
        rw [hidle] at hfits
        generalize st.calls t = call at hfits
        cases hfits
        rfl
      have hexec : st.backend.exec pf (.flush t index) = some (st.backend.flush t index) := rfl
      exact ⟨_, rfl, hs.flushes (hs.backend.flush hidle index) (fun u => Pool.doing_exec hexec)
        hcall hlive (hafter.imp_right fun h => ⟨index, h⟩), fun _ => .inl rfl⟩

/-- The invariant holds in every state of every run, and each pool has been through
a run of its own. -/
theorem run_sound {capacity : P → ℕ} {hcapacity : ∀ p, capacity p < 2 ^ 64}
    {labels : List (BackedStep P T)} (hrun : Run (Moves pf) (start capacity hcapacity) labels st) :
    st.Sound pf ∧ ∀ p, ∃ calls : List (Unit × PoolCall),
      Run PoolLedger.Moves (.start (capacity p) (hcapacity p)) calls (st.ledgers p) := by
  induction hrun with
  | start => exact ⟨sound_start hcapacity, fun p => ⟨[], .start⟩⟩
  | extend _ last ih =>
      obtain ⟨hs, hruns⟩ := ih
      obtain ⟨st', hexec, hs', hadvance⟩ := hs.exec last.1
      rw [last.2] at hexec
      obtain rfl := Option.some.inj hexec
      refine ⟨hs', ?_⟩
      intro p
      obtain ⟨calls, hcalls⟩ := hruns p
      obtain hsame | ⟨label, hmoves⟩ := hadvance p
      · exact ⟨calls, hsame ▸ hcalls⟩
      · exact ⟨calls ++ [label], .extend hcalls hmoves⟩

end BackedPools

end Gpuforge

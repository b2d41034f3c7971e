import Gpuforge.BackedSound
import Gpuforge.PageCacheRuns

/-!
# What memory pools promise their callers

For every interleaving of the calls of any threads to any `MemoryPool`s: each
pool is what it would be with a backend of its own that never errs, blocks have
no byte in common whichever pools they are from, and a call ends after a bounded
number of its own thread's steps, so that no mutex is held for ever.
-/

namespace Gpuforge

open LabelledRun Kama SegmentTable

namespace Kama

/-- The turns a thread's call can still take. -/
def Activity.left : Activity → ℕ
  | .idle => 0
  | .fetching _ size got => getBatchNum (getSize (getIndex size)) - got.length + 1
  | .returning _ chain _ => chain.length + 1

namespace Pool

variable {T : Type} [DecidableEq T] {pf : Platform} {st st' : Pool T} {t : T}

end Pool

end Kama

/-- The thread that takes a step. -/
def BackedStep.thread {P T : Type} : BackedStep P T → T
  | .allocate t _ _ _ _ => t
  | .release t _ _ => t
  | .turn t _ => t
  | .flush t _ => t

namespace BackedPools

variable {P T : Type} [DecidableEq P] [DecidableEq T] {pf : Platform} {st st' : BackedPools P T}
  {t : T}

/-! ## Calls end -/

/-- A call goes on with what the vendored pool is after the step. -/
theorem resume_backend {p : P} {call : PendingCall} {backend : Pool T} :
    (st.resume t p call backend).backend = backend := by
  unfold resume
  split
  · cases call <;> rfl
  · rfl

/-- A turn is a turn of the vendored pool. -/
theorem backend_turn {answer : ℕ} (hexec : st.exec pf (.turn t answer) = some st') :
    st.backend.exec pf (st.nextStep t answer) = some st'.backend := by
  simp only [BackedPools.exec] at hexec
  split at hexec
  · obtain ⟨backend, hback, rfl⟩ := Option.map_eq_some_iff.mp hexec
    rw [hback, resume_backend]
  · obtain ⟨backend, hback, rfl⟩ := Option.map_eq_some_iff.mp hexec
    exact hback

/-- What a thread is doing is its own business: the call of another one leaves it. -/
theorem doing_called {st₁ : BackedPools P T} {u : T} {answer : ℕ} {call : BackendCall} {p : P}
    {pending : PendingCall} (ht : u ≠ t)
    (hexec : (st.backend.exec pf (firstStep u answer call)).map (st₁.resume u p pending) =
      some st') : st'.backend.doing t = st.backend.doing t := by
  obtain ⟨backend, hback, rfl⟩ := Option.map_eq_some_iff.mp hexec
  rw [resume_backend]
  exact Pool.doing_exec hback (by rw [thread_firstStep]; exact ht.symm)

/-- So does every step of another one. -/
theorem doing_exec {e : BackedStep P T} (hexec : st.exec pf e = some st') (ht : e.thread ≠ t) :
    st'.backend.doing t = st.backend.doing t := by
  cases e with
  | allocate u p n a answer =>
      simp only [BackedPools.exec] at hexec
      split at hexec
      · obtain rfl := Option.some.inj hexec
        rfl
      · exact doing_called ht hexec
  | release u p ptr =>
      simp only [BackedPools.exec] at hexec
      split at hexec
      · obtain rfl := Option.some.inj hexec
        rfl
      · exact doing_called ht hexec
  | turn u answer =>
      exact Pool.doing_exec (backend_turn hexec) (by rw [thread_nextStep]; exact ht.symm)
  | flush u index =>
      simp only [BackedPools.exec] at hexec
      obtain ⟨backend, hback, rfl⟩ := Option.map_eq_some_iff.mp hexec
      exact Pool.doing_exec hback ht.symm

/-- A thread waits in one pool, whose mutex it holds, while another has a block from
the other pool. -/
theorem exists_backed : ∃ st : BackedPools Bool Bool,
    Run (Moves fourKibPages) (start (fun _ => 1000000) (fun _ => by omega))
      [.allocate true true 200000 8 0, .allocate false false 300000 4096 8388608] st ∧
    st.calls true = some (true, .allocate 200000 8) ∧
    (st.ledgers false).outstanding = [(8388608, 300000)] := by
  let st₀ : BackedPools Bool Bool := start (fun _ => 1000000) (fun _ => by omega)
  let st₁ : BackedPools Bool Bool := (st₀.setCall true (some (true, .allocate 200000 8))).setBackend
    (st₀.backend.setDoing true (.fetching 200000 200000 []))
  have hfirst : Moves fourKibPages st₀ (.allocate true true 200000 8 0) st₁ := by
    refine ⟨⟨rfl, fun _ _ _ => by simp [st₀, start], by decide, ?_⟩, rfl⟩
    intro call hcall
    obtain rfl : call = .allocate 200000 := List.mem_singleton.mp hcall
    exact ⟨rfl, .inl rfl⟩
  have hsecond : (st₁.exec fourKibPages (.allocate false false 300000 4096 8388608)).map
      (fun st => (st.calls true, (st.ledgers false).outstanding)) =
        some (some (true, .allocate 200000 8), [(8388608, 300000)]) := by
    decide +kernel
  obtain ⟨st, hexec, hstate⟩ := Option.map_eq_some_iff.mp hsecond
  refine ⟨st, .extend (.single hfirst) ⟨⟨rfl, ?_, by decide, ?_⟩, hexec⟩, Prod.mk.inj hstate⟩
  · intro _ t call
    cases t <;> simp [st₁, st₀, start, setCall, setBackend]
  · intro call hcall
    obtain rfl : call = .allocateAligned 300000 4096 := List.mem_singleton.mp hcall
    refine ⟨rfl, ?_⟩
    intro need _
    refine .inr ⟨by decide, ?_⟩
    intro r hr
    cases hr

variable {capacity : P → ℕ} {hcapacity : ∀ p, capacity p < 2 ^ 64}
  {before : List (BackedStep P T)}

/-- **Each pool has its own backend**, as far as it can tell: it has been through a
run of atomic calls with a backend that never errs, so that its accounts are exact.
And no step of the process that a thread may take is undefined. -/
theorem run_pools (hrun : Run (Moves pf) (start capacity hcapacity) before st) :
    (∀ e, st.Enabled pf e → ∃ st', st.exec pf e = some st') ∧
      ∀ p, (∃ calls : List (Unit × PoolCall),
          Run PoolLedger.Moves (.start (capacity p) (hcapacity p)) calls (st.ledgers p)) ∧
        (st.ledgers p).Exact (capacity p) := by
  obtain ⟨hs, hruns⟩ := run_sound hrun
  constructor
  · intro e henabled
    obtain ⟨st', hexec, _⟩ := hs.exec henabled
    exact ⟨st', hexec⟩
  · intro p
    refine ⟨hruns p, ?_⟩
    obtain ⟨calls, hcalls⟩ := hruns p
    have hkeep : (st.ledgers p).pool.capacity = capacity p := by
      refine hcalls.invariant (fun ledger => ledger.pool.capacity = capacity p) rfl ?_
      intro ledger label ledger' h hmoves
      rw [hmoves.2, PoolLedger.exec_capacity, h]
    exact hkeep ▸ (hs.accounts p).exact

theorem run_pools_two : ∃ st : BackedPools Bool Bool,
    (∀ e, st.Enabled fourKibPages e → ∃ st', st.exec fourKibPages e = some st') ∧
      (st.ledgers false).Exact 1000000 ∧
      (st.ledgers false).outstanding = [(8388608, 300000)] := by
  obtain ⟨st, hrun, _, hout⟩ := exists_backed
  obtain ⟨hdefined, hpools⟩ := run_pools hrun
  exact ⟨st, hdefined, (hpools false).2, hout⟩

/-- **Blocks are apart, whichever pool they are from.**  What callers hold of any
pools lies in mapped memory, and no two of them share a byte; and the vendored
pool has given out nothing that no pool knows of. -/
theorem run_pools_apart (hrun : Run (Moves pf) (start capacity hcapacity) before st) :
    (∀ p b, b ∈ (st.ledgers p).outstanding → ∃ r ∈ st.backend.heap.pages.mapped,
        0 < r.1 ∧ r.1 ≤ b.1 ∧ b.1 + b.2 ≤ r.1 + r.2) ∧
      (∀ p q b c, b ∈ (st.ledgers p).outstanding → c ∈ (st.ledgers q).outstanding →
        p ≠ q ∨ b ≠ c → (Pool.extent b).Apart (Pool.extent c)) ∧
      ∀ ptr need, (ptr, need) ∈ st.backend.live →
        ∃ p n, n ≤ need ∧ (ptr, n) ∈ (st.ledgers p).outstanding := by
  obtain ⟨hs, _⟩ := run_sound hrun
  have hback : ∀ {p b}, b ∈ (st.ledgers p).outstanding →
      ∃ need, b.2 ≤ need ∧ (b.1, need) ∈ st.backend.live := by
    intro p b hb
    exact hs.owned.allowed p b.1 (List.mem_map.mpr ⟨b, hb, rfl⟩) b.2 hb
  refine ⟨?_, ?_, ?_⟩
  · intro p b hb
    obtain ⟨need, hle, hmem⟩ := hback hb
    obtain ⟨r, hr, hpos, hstart, hstop⟩ := hs.backend.live_mapped hmem
    exact ⟨r, hr, hpos, hstart, by simp only at hstop; omega⟩
  · intro p q b c hb hc hne
    obtain ⟨need, hle, hmem⟩ := hback hb
    obtain ⟨need', hle', hmem'⟩ := hback hc
    have haddr : b.1 ≠ c.1 := by
      intro heq
      have hpq : p = q := hs.owned.unique p q b.1 (List.mem_map.mpr ⟨b, hb, rfl⟩)
        (List.mem_map.mpr ⟨c, hc, heq.symm⟩)
      subst hpq
      exact hne.resolve_left (not_not.mpr rfl)
        (List.inj_on_of_nodup_map (hs.owned.nodup p) hb hc heq)
    have hapart : (Pool.extent (b.1, need)).Apart (Pool.extent (c.1, need')) := by
      have hsymm : Std.Symm fun b c => (Pool.extent b).Apart (Pool.extent c) :=
        ⟨fun _ _ h => h.symm⟩
      refine hs.backend.live_apart.forall hmem hmem' ?_
      intro heq
      exact haddr (Prod.mk.inj heq).1
    simp only [Segment.Apart, Pool.extent] at *
    omega
  · intro ptr need hmem
    obtain ⟨p, hptr⟩ := (hs.owned.complete ptr).mp (List.mem_map.mpr ⟨_, hmem, rfl⟩)
    obtain ⟨⟨x, n⟩, hb, hx⟩ := List.mem_map.mp hptr
    obtain rfl : x = ptr := hx
    obtain ⟨need', hle, hmem'⟩ := hback hb
    have hsame := List.inj_on_of_nodup_map hs.backend.live_nodup hmem' hmem rfl
    obtain ⟨_, rfl⟩ := Prod.mk.inj hsame
    exact ⟨p, n, hle, hb⟩

theorem run_pools_apart_two : ∃ st : BackedPools Bool Bool,
    (∃ r ∈ st.backend.heap.pages.mapped, 0 < r.1 ∧ r.1 ≤ 8388608 ∧ 8688608 ≤ r.1 + r.2) ∧
      ∀ p q b c, b ∈ (st.ledgers p).outstanding → c ∈ (st.ledgers q).outstanding →
        p ≠ q ∨ b ≠ c → (Pool.extent b).Apart (Pool.extent c) := by
  obtain ⟨st, hrun, _, hout⟩ := exists_backed
  obtain ⟨hmapped, hapart, _⟩ := run_pools_apart hrun
  have hmem : (8388608, 300000) ∈ (st.ledgers false).outstanding := by
    rw [hout]
    exact List.mem_singleton_self _
  exact ⟨st, hmapped false _ hmem, hapart⟩

end BackedPools

end Gpuforge

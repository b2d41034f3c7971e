import Gpuforge.PoolAccounting
import Gpuforge.PoolOutcomes

/-!
# Memory pools on the vendored pool (`memory.cpp` on `vendor_memorypool/v3`)

A program has any number of `MemoryPool`s, and behind all of them is the one
vendored pool.  Any number of threads call them.  A call that reaches the
vendored pool holds the mutex of its `MemoryPool` until it returns; threads that
call another `MemoryPool` take their steps meanwhile.

Each `MemoryPool` comes with the notes of its observer.  The vendored pool is the
model of its threads, step by step, so that nothing is assumed of the backend
but that the system gives memory it has not given before.
-/

namespace Gpuforge

open LabelledRun Kama

/-- A call that holds the mutex of its pool. -/
inductive PendingCall where
  | allocate (n a : ℕ)
  | release
  deriving DecidableEq, Repr

/-- The process: the pools, the vendored pool, and the calls that are not over. -/
structure BackedPools (P T : Type) where
  ledgers : P → PoolLedger
  backend : Pool T
  calls : T → Option (P × PendingCall)

/-- A step of a thread. -/
inductive BackedStep (P T : Type) where
  /-- `allocate` is called; the answer is the system's in case it is asked. -/
  | allocate (t : T) (p : P) (n a answer : ℕ)
  | release (t : T) (p : P) (ptr : ℕ)
  /-- The vendored pool goes on with the thread's call. -/
  | turn (t : T) (answer : ℕ)
  /-- A thread that ends comes to a class whose list is not empty. -/
  | flush (t : T) (index : ℕ)

namespace BackedPools

variable {P T : Type} [DecidableEq P] [DecidableEq T]

/-- A process that has made its pools. -/
def start (capacity : P → ℕ) (hcapacity : ∀ p, capacity p < 2 ^ 64) : BackedPools P T where
  ledgers := fun p => .start (capacity p) (hcapacity p)
  backend := .start
  calls := fun _ => none

def setLedger (st : BackedPools P T) (p : P) (ledger : PoolLedger) : BackedPools P T :=
  { st with ledgers := fun q => if q = p then ledger else st.ledgers q }

def setCall (st : BackedPools P T) (t : T) (call : Option (P × PendingCall)) :
    BackedPools P T :=
  { st with calls := fun u => if u = t then call else st.calls u }

def setBackend (st : BackedPools P T) (backend : Pool T) : BackedPools P T :=
  { st with backend := backend }

/-- The first step of a call to the vendored pool. -/
def firstStep (t : T) (answer : ℕ) : BackendCall → Event T
  | .allocate n => .allocate t n answer
  | .allocateAligned n a => .allocateAligned t n a answer
  | .deallocate ptr => .deallocate t ptr

/-- Its next step. -/
def nextStep (st : BackedPools P T) (t : T) (answer : ℕ) : Event T :=
  match st.backend.doing t with
  | .fetching _ _ _ => .fetch t answer
  | _ => .giveBack t

/-- A call after a step of the vendored pool: it returns, or waits for the next. -/
def resume (st : BackedPools P T) (t : T) (p : P) (call : PendingCall) (backend : Pool T) :
    BackedPools P T :=
  if backend.doing t = .idle then
    match call with
    | .allocate n a =>
        let ptr := Pool.handedOver st.backend backend
        ((st.setLedger p ((st.ledgers p).exec (.allocate n a ptr))).setCall t none).setBackend
          backend
    | .release => (st.setCall t none).setBackend backend
  else (st.setCall t (some (p, call))).setBackend backend

variable (pf : Platform)

/-- What a step does; `none` is undefined behaviour. -/
def exec (st : BackedPools P T) : BackedStep P T → Option (BackedPools P T)
  | .allocate t p n a answer =>
      match ((st.ledgers p).pool.allocate n a 0).2.2 with
      | [] => some (st.setLedger p ((st.ledgers p).exec (.allocate n a 0)))
      | call :: _ =>
          (st.backend.exec pf (firstStep t answer call)).map (st.resume t p (.allocate n a))
  | .release t p ptr =>
      let released := st.setLedger p ((st.ledgers p).exec (.release ptr))
      match ((st.ledgers p).pool.release ptr).2 with
      | [] => some released
      | call :: _ => (st.backend.exec pf (firstStep t 0 call)).map (released.resume t p .release)
  | .turn t answer =>
      match st.calls t with
      | some (p, call) => (st.backend.exec pf (st.nextStep t answer)).map (st.resume t p call)
      | none => (st.backend.exec pf (st.nextStep t answer)).map st.setBackend
  | .flush t index => (st.backend.exec pf (.flush t index)).map st.setBackend

/-- No call holds the mutex of a pool. -/
def Unlocked (st : BackedPools P T) (p : P) : Prop := ∀ t call, st.calls t ≠ some (p, call)

/-- When a step may be taken.  A thread is in one call at a time, and waits for
the mutex; a call for nothing does not need it.  Callers may release whatever
pointer they like. -/
def Enabled (st : BackedPools P T) : BackedStep P T → Prop
  | .allocate t p n a answer =>
      st.backend.doing t = .idle ∧ (n ≠ 0 → st.Unlocked p) ∧ a < 2 ^ 64 ∧
        ∀ call ∈ ((st.ledgers p).pool.allocate n a 0).2.2,
          st.backend.Enabled pf (firstStep t answer call)
  | .release t p ptr => st.backend.doing t = .idle ∧ (ptr ≠ 0 → st.Unlocked p)
  | .turn t answer => st.backend.Enabled pf (st.nextStep t answer)
  | .flush t index => st.backend.Enabled pf (.flush t index)

/-- A step of the process. -/
def Moves (st : BackedPools P T) (e : BackedStep P T) (st' : BackedPools P T) : Prop :=
  st.Enabled pf e ∧ st.exec pf e = some st'

end BackedPools

end Gpuforge

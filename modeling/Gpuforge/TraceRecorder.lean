import Mathlib.Algebra.Notation.Defs
import Mathlib.Data.List.AList

/-!
# The trace recorder (`telemetry.hpp`, `telemetry.cpp`)

`begin` appends an event and pushes its index on the stack of its name; `end` pops the
last index of a name and sets the duration of that event; `instant` appends an event
without opening it.  Every call holds the recorder's mutex, so a call is one step.

A call reads the clock once, in milliseconds since the recorder's epoch.  Times are of
any type with a zero and a difference.  The `args` of an event are never filled and
left out.
-/

namespace Gpuforge

structure TraceEvent (τ : Type) where
  name : String
  cat : String
  startMs : τ
  durationMs : τ
  tid : UInt64
  deriving DecidableEq, Repr

structure TraceRecorder (τ : Type) where
  events : List (TraceEvent τ) := []
  active : AList fun _ : String => List Nat := ∅

/-- A call of any thread, with the time it reads. -/
inductive TraceCall (τ : Type) where
  | begin (name cat : String) (now : τ) (tid : UInt64)
  | «end» (name : String) (now : τ)
  | instant (name cat : String) (now : τ) (tid : UInt64)
  | clear

namespace TraceRecorder

variable {τ : Type}

/-- The open events of a name, the latest last; a missing name has none. -/
def stack (r : TraceRecorder τ) (name : String) : List Nat := (r.active.lookup name).getD []

/-- `begin`, called by the thread with a hash. -/
def begin [Zero τ] (r : TraceRecorder τ) (name cat : String) (now : τ) (tid : UInt64) :
    TraceRecorder τ :=
  { events := r.events ++ [⟨name, cat, now, 0, tid⟩]
    active := r.active.insert name (r.stack name ++ [r.events.length]) }

/-- `end`; `none` is a subscript out of range. -/
def «end» [Sub τ] (r : TraceRecorder τ) (name : String) (now : τ) : Option (TraceRecorder τ) :=
  match (r.stack name).getLast? with
  | none => some r
  | some eventId => (r.events[eventId]?).map fun event =>
      { events := r.events.set eventId { event with durationMs := now - event.startMs }
        active := r.active.insert name (r.stack name).dropLast }

def instant [Zero τ] (r : TraceRecorder τ) (name cat : String) (now : τ) (tid : UInt64) :
    TraceRecorder τ :=
  { r with events := r.events ++ [⟨name, cat, now, 0, tid⟩] }

/-- `clear`; later times count from a new epoch. -/
def clear (_ : TraceRecorder τ) : TraceRecorder τ := {}

variable {r r' : TraceRecorder τ}

/-- A begun event is on top of the stack of its name. -/
theorem stack_begin [Zero τ] (r : TraceRecorder τ) (name cat : String) (now : τ) (tid : UInt64)
    (name' : String) : (r.begin name cat now tid).stack name' =
      r.stack name' ++ if name = name' then [r.events.length] else [] := by
  by_cases hname : name = name'
  · subst hname
    rw [if_pos rfl, stack, begin, AList.lookup_insert, Option.getD_some]
  · rw [if_neg hname, stack, begin, AList.lookup_insert_ne (Ne.symm hname), List.append_nil,
      stack]

/-- An end closes the top of the stack of its name. -/
theorem end_of_top [Sub τ] {name : String} {eventId : Nat} {event : TraceEvent τ}
    (htop : (r.stack name).getLast? = some eventId) (hevent : r.events[eventId]? = some event)
    (now : τ) : ∃ r', r.end name now = some r' ∧
      r'.events = r.events.set eventId { event with durationMs := now - event.startMs } ∧
      ∀ name', r'.stack name' =
        if name = name' then (r.stack name).dropLast else r.stack name' := by
  refine ⟨⟨r.events.set eventId { event with durationMs := now - event.startMs },
    r.active.insert name (r.stack name).dropLast⟩, ?_, rfl, ?_⟩
  · simp only [«end», htop, hevent, Option.map_some]
  intro name'
  by_cases hname : name = name'
  · subst hname
    rw [if_pos rfl, stack, AList.lookup_insert, Option.getD_some]
  · rw [if_neg hname, stack, AList.lookup_insert_ne (Ne.symm hname), stack]

end TraceRecorder

variable {τ : Type}

/-- The call of a recorder. -/
def TraceRecorder.call [Zero τ] [Sub τ] (r : TraceRecorder τ) :
    TraceCall τ → Option (TraceRecorder τ)
  | .begin name cat now tid => some (r.begin name cat now tid)
  | .end name now => r.end name now
  | .instant name cat now tid => some (r.instant name cat now tid)
  | .clear => some r.clear

/-- One call leads to another state of the recorder. -/
def CallStep [Zero τ] [Sub τ] (r : TraceRecorder τ) (call : TraceCall τ)
    (r' : TraceRecorder τ) : Prop :=
  r.call call = some r'

end Gpuforge

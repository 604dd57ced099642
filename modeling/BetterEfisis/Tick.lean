import BetterEfisis.Lib.Reach
import BetterEfisis.Worker.Odds
import Mathlib.Logic.Function.Basic

/-!
# One tick and its retries

An `OddsWorker` job on its own, started again from the first statement after every
attempt that raised. The events and the throttle stamps it finds are arbitrary.

Beside the store and the job stands what the job has enqueued so far, and two
ghosts: what was in a range when the run found it due, and what the scopes have
read on the clock.
-/

namespace BetterEfisis

open Lib OddsWorker

/-- A range that `time` has found due: when, and the ids of its events at that time. -/
structure Due where
  range : Range
  time : Int
  ids : List Int
deriving DecidableEq, Repr

structure Tick where
  store : Store
  now : Int
  job : Job Unit Pc
  /-- The ids `MonitorWEBWorker` jobs were enqueued for. -/
  monitors : List Int
  /-- The ids `RefreshOddsWorker` jobs were enqueued for, by all attempts so far. -/
  enqueued : List Int
  /-- Ghost: the ranges found due, oldest first. -/
  due : List Due
  /-- Ghost: the two clock readings of a scope's latest query. -/
  readings : Scope → Int × Int

namespace Tick

inductive Act where
  | start
  /-- The job executes its next statement, `d` seconds passing between its clock readings. -/
  | perform (d : Nat)
  | raise
  | advance (d : Nat)
deriving DecidableEq, Repr

/-- The ids of a scope's events at time `now`. -/
def inScope (w : Tick) (sc : Scope) : List Int := (sc.load w.store.events w.now w.now).map Event.id

/-- The time stored under the key of a range, as `time` reads it. -/
def stampOf (w : Tick) (r : Range) : Int := RedisValue.toI (w.store.redis r.key)

/-- What a statement finds due: `diference > value` holds. -/
def found (w : Tick) : Pc → List Due
  | .stampTest r timestamp =>
      if w.now - timestamp > r.value then [⟨r, w.now, w.inScope (.range r)⟩] else []
  | _ => []

/-- The readings once a statement is executed. -/
def read (w : Tick) (d : Nat) : Pc → Scope → Int × Int
  | .refreshLoad sc => Function.update w.readings sc (w.now, w.now + d)
  | _ => w.readings

/-- The state after a step of the run. -/
def after (w : Tick) (d : Nat) (pc : Pc) (r : Step) : Tick where
  store := r.store
  now := w.now + d
  job := w.job.settle r.next
  monitors := w.monitors ++ r.monitors
  enqueued := w.enqueued ++ r.refreshes
  due := w.due ++ w.found pc
  readings := w.read d pc

def act (w : Tick) : Act → Option Tick
  | .start => (w.job.start .load).map (fun job => { w with job := job })
  | .perform d =>
      match w.job.phase with
      | .running pc => some (w.after d pc (step w.now (w.now + d) w.store pc))
      | _ => none
  | .raise =>
      match w.job.phase with
      | .running _ => some { w with job := w.job.raise }
      | _ => none
  | .advance d => some { w with now := w.now + d }

/-- The job has just been enqueued. -/
structure Init (w : Tick) : Prop where
  job : w.job = Job.enqueue ()
  enqueued : w.enqueued = []
  due : w.due = []

end Tick

end BetterEfisis

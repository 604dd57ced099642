import BetterEfisis.Lib.Sidekiq
import BetterEfisis.Model.Store

/-!
# `OddsWorker`

`perform` as a machine, in the manner of `MonitorWEBWorker`. A step reads the
clock at most twice, at `now` and then at `now'`, and what it enqueues for the
other two workers is part of its result.
-/

namespace BetterEfisis

open Lib

namespace OddsWorker

/-- The argument of `time`. -/
inductive Range where
  | soon
  | later
  | tomorow
  | someday
deriving DecidableEq, Repr

/-- The Redis key of the range's stamp. -/
def Range.key : Range → String
  | .soon => "soon"
  | .later => "later"
  | .tomorow => "tomorow"
  | .someday => "someday"

/-- `value` in `time`. -/
def Range.value : Range → Int
  | .soon => 300
  | .later => 600
  | .tomorow => 1800
  | .someday => 3600

/-- The five lists of events `perform` refreshes. -/
inductive Scope where
  | now
  | range (r : Range)
deriving DecidableEq, Repr

/-- The query of a scope. -/
def Scope.load (t : List Event) (now now' : Int) : Scope → List Event
  | .now => Event.startingNow t now
  | .range .soon => Event.startingSoon t now now'
  | .range .later => Event.startingLater t now now'
  | .range .tomorow => Event.startingTomorow t now now'
  | .range .someday => Event.startingSomeday t now

/-- The statement `perform` executes next. -/
inductive Pc where
  /-- `Event.starting_now` of the first loop. -/
  | load
  /-- The head of the first loop: the rows still to come, as they were loaded. -/
  | monitor (rows : List Event)
  /-- `e.monitored = true` and `e.save`; the monitor of `e` is already enqueued. -/
  | save (e : Event) (rows : List Event)
  /-- The query of a refresh line. -/
  | refreshLoad (sc : Scope)
  /-- The ids of the line still to be enqueued. -/
  | refresh (sc : Scope) (ids : List Int)
  /-- `$redis.get(range).to_i`. -/
  | stampGet (r : Range)
  /-- `Time.now.to_i - timestamp`, compared with `value`. -/
  | stampTest (r : Range) (timestamp : Int)
  /-- `Time.now.to_i`, read once more for the new stamp. -/
  | stampRead (r : Range)
  /-- `$redis.set(range, …)`. -/
  | stampSet (r : Range) (stamp : Int)
deriving DecidableEq, Repr

/-- What a step does: the store, the jobs it enqueues, and where the run goes. -/
structure Step where
  store : Store
  monitors : List Int
  refreshes : List Int
  next : Outcome Pc

/-- A step that enqueues nothing. -/
def Step.plain (s : Store) (o : Outcome Pc) : Step := ⟨s, [], [], o⟩

/-- The line after the one of a range. -/
def Range.after : Range → Outcome Pc
  | .soon => .next (.stampGet .later)
  | .later => .next (.stampGet .tomorow)
  | .tomorow => .next (.stampGet .someday)
  | .someday => .finished

/-- The line after the one of a scope. -/
def Scope.after : Scope → Outcome Pc
  | .now => .next (.stampGet .soon)
  | .range r => r.after

/-- `e.monitored = true`. -/
def monitored (e : Event) : Event := { e with monitored := some true }

/-- One step of `perform`. -/
def step (now now' : Int) (s : Store) : Pc → Step
  | .load => .plain s (.next (.monitor (Event.startingNow s.events now)))
  | .monitor [] => .plain s (.next (.refreshLoad .now))
  | .monitor (e :: rows) =>
      -- `unless e.monitored`: both false and NULL are falsy
      if e.monitored = some true then .plain s (.next (.monitor rows))
      else ⟨s, [e.id], [], .next (.save e rows)⟩
  | .save e rows =>
      .plain { s with events := Event.save s.events e (monitored e) } (.next (.monitor rows))
  | .refreshLoad sc => .plain s (.next (.refresh sc ((sc.load s.events now now').map Event.id)))
  | .refresh sc [] => .plain s sc.after
  | .refresh sc (id :: ids) => ⟨s, [], [id], .next (.refresh sc ids)⟩
  | .stampGet r => .plain s (.next (.stampTest r (RedisValue.toI (s.redis r.key))))
  | .stampTest r timestamp =>
      if now - timestamp > r.value then .plain s (.next (.stampRead r)) else .plain s r.after
  | .stampRead r => .plain s (.next (.stampSet r now))
  | .stampSet r stamp =>
      .plain (s.redisSet r.key (.int stamp)) (.next (.refreshLoad (.range r)))

end OddsWorker

end BetterEfisis

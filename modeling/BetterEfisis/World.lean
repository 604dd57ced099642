import BetterEfisis.Lib.Reach
import BetterEfisis.Worker.MonitorWeb
import BetterEfisis.Worker.Odds

/-!
# The running system

All jobs of the two scheduled workers over one store, interleaved step by step.
`World.act` is the system's step function for `Lib.Reachable`.

Jobs are never removed from the lists, so a job keeps its place and a finished or
discarded one stays as a record. `importEvents` is the insert at the end of
`EventWorker`, the only thing that ever adds an event.
-/

namespace BetterEfisis

open Lib

/-- The store, the clock and every job enqueued so far. -/
structure World where
  store : Store
  now : Int
  /-- The `OddsWorker` jobs. -/
  ticks : List (Job Unit OddsWorker.Pc)
  /-- The `MonitorWEBWorker` jobs, each with its event id. -/
  monitors : List (Job Int MonitorWEBWorker.Pc)
  /-- The event ids `RefreshOddsWorker` jobs were enqueued for. -/
  refreshes : List Int

namespace World

/-- What can happen next. -/
inductive Act where
  /-- `Event.import` of the rows an `EventWorker` run built. -/
  | importEvents (batch : List Event)
  /-- The clock moves on. -/
  | advance (d : Nat)
  /-- The recurrence enqueues an `OddsWorker` job. -/
  | schedule
  | startTick (i : Nat)
  /-- Job `i` executes its next statement, `d` seconds passing between its clock readings. -/
  | tick (i : Nat) (d : Nat)
  /-- Job `i` raises instead of executing its next statement. -/
  | raiseTick (i : Nat)
  | startMonitor (j : Nat)
  /-- Job `j` executes its next statement; `body` is what the feed would answer. -/
  | monitor (j : Nat) (body : Body)
  | raiseMonitor (j : Nat)
deriving DecidableEq, Repr

/-- A row as `EventWorker` builds it. -/
def isNew (e : Event) : Prop := e.status = some .notStarted ∧ e.monitored = some false

instance (e : Event) : Decidable (isNew e) := inferInstanceAs (Decidable (_ ∧ _))

/-- Job `i` of the list replaced by `j`. -/
def setTick (w : World) (i : Nat) (j : Job Unit OddsWorker.Pc) : World :=
  { w with ticks := w.ticks.set i j }

def setMonitor (w : World) (i : Nat) (j : Job Int MonitorWEBWorker.Pc) : World :=
  { w with monitors := w.monitors.set i j }

/-- The world after a step of an `OddsWorker` run: its store, its clock, what it enqueued. -/
def afterTick (w : World) (i : Nat) (job : Job Unit OddsWorker.Pc) (now : Int)
    (r : OddsWorker.Step) : World where
  store := r.store
  now := now
  ticks := w.ticks.set i (job.settle r.next)
  monitors := w.monitors ++ r.monitors.map Job.enqueue
  refreshes := w.refreshes ++ r.refreshes

/-- The world after a step of a monitor. -/
def afterMonitor (w : World) (j : Nat) (job : Job Int MonitorWEBWorker.Pc)
    (r : Store × Outcome MonitorWEBWorker.Pc) : World :=
  { w with store := r.1, monitors := w.monitors.set j (job.settle r.2) }

/-- The system's step function. -/
def act (cfg : Config) (w : World) : Act → Option World
  | .importEvents batch =>
      if ∀ e ∈ batch, isNew e then
        match Event.importRows w.store.events batch with
        | .ok t => some { w with store := { w.store with events := t } }
        | .error _ => none
      else none
  | .advance d => some { w with now := w.now + d }
  | .schedule => some { w with ticks := w.ticks ++ [Job.enqueue ()] }
  | .startTick i =>
      match w.ticks[i]? with
      | some job => (job.start .load).map (w.setTick i)
      | none => none
  | .tick i d =>
      match w.ticks[i]? with
      | some job =>
          match job.phase with
          | .running pc =>
              some (w.afterTick i job (w.now + d) (OddsWorker.step w.now (w.now + d) w.store pc))
          | _ => none
      | none => none
  | .raiseTick i =>
      match w.ticks[i]? with
      | some job =>
          match job.phase with
          | .running _ => some (w.setTick i job.raise)
          | _ => none
      | none => none
  | .startMonitor j =>
      match w.monitors[j]? with
      | some job => (job.start (.waiting 0)).map (w.setMonitor j)
      | none => none
  | .monitor j body =>
      match w.monitors[j]? with
      | some job =>
          match job.phase with
          | .running pc =>
              some (w.afterMonitor j job (MonitorWEBWorker.step cfg job.arg body w.store pc))
          | _ => none
      | none => none
  | .raiseMonitor j =>
      match w.monitors[j]? with
      | some job =>
          match job.phase with
          | .running _ => some (w.setMonitor j job.raise)
          | _ => none
      | none => none

/-- The steps of the system, one by one. -/
inductive Moved (cfg : Config) (w : World) : Act → World → Prop where
  | imported {batch : List Event} {t : List Event} : (∀ e ∈ batch, isNew e) →
      Event.importRows w.store.events batch = .ok t →
      Moved cfg w (.importEvents batch) { w with store := { w.store with events := t } }
  | advanced {d : Nat} : Moved cfg w (.advance d) { w with now := w.now + d }
  | scheduled : Moved cfg w .schedule { w with ticks := w.ticks ++ [Job.enqueue ()] }
  | startedTick {i : Nat} {job : Job Unit OddsWorker.Pc} : w.ticks[i]? = some job →
      (∀ pc, job.phase ≠ .running pc) →
      Moved cfg w (.startTick i) (w.setTick i { job with phase := .running .load })
  | ticked {i d : Nat} {job : Job Unit OddsWorker.Pc} {pc : OddsWorker.Pc} :
      w.ticks[i]? = some job → job.phase = .running pc →
      Moved cfg w (.tick i d)
        (w.afterTick i job (w.now + d) (OddsWorker.step w.now (w.now + d) w.store pc))
  | raisedTick {i : Nat} {job : Job Unit OddsWorker.Pc} {pc : OddsWorker.Pc} :
      w.ticks[i]? = some job → job.phase = .running pc →
      Moved cfg w (.raiseTick i) (w.setTick i job.raise)
  | startedMonitor {j : Nat} {job : Job Int MonitorWEBWorker.Pc} : w.monitors[j]? = some job →
      job.isLive = true →
      Moved cfg w (.startMonitor j) (w.setMonitor j { job with phase := .running (.waiting 0) })
  | monitored {j : Nat} {body : Body} {job : Job Int MonitorWEBWorker.Pc}
      {pc : MonitorWEBWorker.Pc} : w.monitors[j]? = some job → job.phase = .running pc →
      Moved cfg w (.monitor j body)
        (w.afterMonitor j job (MonitorWEBWorker.step cfg job.arg body w.store pc))
  | raisedMonitor {j : Nat} {job : Job Int MonitorWEBWorker.Pc} {pc : MonitorWEBWorker.Pc} :
      w.monitors[j]? = some job → job.phase = .running pc →
      Moved cfg w (.raiseMonitor j) (w.setMonitor j job.raise)

theorem act_cases {cfg : Config} {w w' : World} {a : Act} (h : act cfg w a = some w') :
    Moved cfg w a w' := by
  cases a with
  | importEvents batch =>
      rw [act] at h
      split at h
      · rename_i hnew
        split at h
        · rename_i t ht
          cases h
          exact .imported hnew ht
        · exact absurd h (by simp)
      · exact absurd h (by simp)
  | advance d =>
      cases h
      exact .advanced
  | schedule =>
      cases h
      exact .scheduled
  | startTick i =>
      rw [act] at h
      split at h
      · rename_i job hj
        obtain ⟨job', hs, rfl⟩ := Option.map_eq_some_iff.mp h
        obtain ⟨_, hno, rfl⟩ := Job.start_eq hs
        exact .startedTick hj hno
      · exact absurd h (by simp)
  | startMonitor j =>
      rw [act] at h
      split at h
      · rename_i job hj
        obtain ⟨job', hs, rfl⟩ := Option.map_eq_some_iff.mp h
        obtain ⟨hlive, _, rfl⟩ := Job.start_eq hs
        exact .startedMonitor hj hlive
      · exact absurd h (by simp)
  | tick i d =>
      rw [act] at h
      split at h
      · rename_i job hj
        split at h
        · rename_i pc hp
          cases h
          exact .ticked hj hp
        · exact absurd h (by simp)
      · exact absurd h (by simp)
  | monitor j body =>
      rw [act] at h
      split at h
      · rename_i job hj
        split at h
        · rename_i pc hp
          cases h
          exact .monitored hj hp
        · exact absurd h (by simp)
      · exact absurd h (by simp)
  | raiseTick i =>
      rw [act] at h
      split at h
      · rename_i job hj
        split at h
        · rename_i pc hp
          cases h
          exact .raisedTick hj hp
        · exact absurd h (by simp)
      · exact absurd h (by simp)
  | raiseMonitor j =>
      rw [act] at h
      split at h
      · rename_i job hj
        split at h
        · rename_i pc hp
          cases h
          exact .raisedMonitor hj hp
        · exact absurd h (by simp)
      · exact absurd h (by simp)

/-- Empty tables and no job. -/
def boot : World := ⟨Store.boot, 0, [], [], []⟩

/-- The system starts at `boot`, at any time of the clock. -/
def Init (w : World) : Prop := ∃ now, w = { boot with now := now }

/-- Replaying a schedule from `boot`. -/
theorem reachable_of_schedule (cfg : Config) (ok : World → Act → Prop)
    [∀ w a, Decidable (ok w a)] (as : List Act) (p : World → Prop) [DecidablePred p]
    (h : (run (act cfg) ok boot as).any (fun w => decide (p w)) = true) :
    ∃ w, Reachable (act cfg) ok Init w ∧ p w :=
  reachable_of_run (act cfg) ok as p (⟨0, rfl⟩ : Init boot) h

end World

end BetterEfisis

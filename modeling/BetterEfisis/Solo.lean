import BetterEfisis.Lib.Reach
import BetterEfisis.Worker.MonitorWeb

/-!
# One monitor and its retries

The monitor job of one event, started again from the first statement after every
attempt that raised, in the midst of jobs for other events.

What the rest of the system does shows here only as a change of the store that
leaves the job's own things alone: its Redis key, the updates of its event, and
what has been written to the status of that event.
-/

namespace BetterEfisis

open Lib

/-- The store, the job, and two ghosts for what it has seen and what it has kept. -/
structure Solo where
  store : Store
  job : Job Int MonitorWEBWorker.Pc
  /-- The timelines the feed has answered with, oldest first. -/
  seen : List Timeline
  /-- The entries handed to the last `Update.import`. -/
  imported : List UpdateDetail

namespace Solo

inductive Act where
  | start
  /-- The job executes its next statement; `body` is what the feed would answer. -/
  | perform (body : Body)
  | raise
  /-- Another job has left the store like this. -/
  | others (s : Store)

/-- The timeline a statement reads. -/
def polled (body : Body) : MonitorWEBWorker.Pc → List Timeline
  | .waiting n =>
      match body with
      | .json t => if n = 200 then [] else [t]
      | .empty => []
  | .polling _ _ =>
      match body with
      | .json t => [t]
      | .empty => []
  | _ => []

/-- The entries kept so far, once the statement is executed. -/
def kept (before : List UpdateDetail) : MonitorWEBWorker.Pc → List UpdateDetail
  | .importUpdates _ (some us) => us
  | _ => before

/-- What has been written to the status of event `id`, oldest first. -/
def statusesOf (id : Int) (s : Store) : List (Int × Status) :=
  s.statusLog.filter fun p => decide (p.1 = id)

/-- `s` and `s'` agree on what belongs to event `id`. -/
def SameFor (id : Int) (s s' : Store) : Prop :=
  s'.redis (redisKey id) = s.redis (redisKey id)
    ∧ Update.ofEvent s'.updates id = Update.ofEvent s.updates id
    ∧ statusesOf id s' = statusesOf id s

instance (id : Int) (s s' : Store) : Decidable (SameFor id s s') :=
  inferInstanceAs (Decidable (_ ∧ _ ∧ _))

theorem mem_statusesOf {id : Int} {s : Store} {st : Status} :
    (id, st) ∈ statusesOf id s ↔ (id, st) ∈ s.statusLog := by
  simp [statusesOf]

/-- Which statuses have been written, too. -/
theorem SameFor.mem_log {id : Int} {s s' : Store} (h : SameFor id s s') {st : Status} :
    (id, st) ∈ s'.statusLog ↔ (id, st) ∈ s.statusLog := by
  rw [← mem_statusesOf, h.2.2, mem_statusesOf]

def act (cfg : Config) (w : Solo) : Act → Option Solo
  | .start => (w.job.start (.waiting 0)).map (fun job => { w with job := job })
  | .perform body =>
      match w.job.phase with
      | .running pc =>
          let r := MonitorWEBWorker.step cfg w.job.arg body w.store pc
          some { store := r.1
                 job := w.job.settle r.2
                 seen := w.seen ++ polled body pc
                 imported := kept w.imported pc }
      | _ => none
  | .raise =>
      match w.job.phase with
      | .running _ => some { w with job := w.job.raise }
      | _ => none
  | .others s => if SameFor w.job.arg w.store s then some { w with store := s } else none

/-- The job of event `id` has just been enqueued, and it is the first one. -/
structure Init (id : Int) (w : Solo) : Prop where
  job : w.job = Job.enqueue id
  key : w.store.redis (redisKey id) = none
  rows : Update.ofEvent w.store.updates id = []
  log : ∀ st, (id, st) ∉ w.store.statusLog
  seen : w.seen = []
  imported : w.imported = []

/-- The entries of the last timeline seen. -/
def lastEntries (w : Solo) : Option (List UpdateDetail) :=
  w.seen.getLast?.bind Timeline.updateDetails

/-- The next statement of the job is the exit of the waiting loop after 200 polls. -/
def GivesUp (w : Solo) : Prop := w.job.phase = .running (.waiting 200)

instance (w : Solo) : Decidable (GivesUp w) := inferInstanceAs (Decidable (_ = _))

end Solo

end BetterEfisis

import BetterEfisis.Refreshing
import BetterEfisis.Sessions
import BetterEfisis.World

/-!
# The whole application

All jobs of the four workers over one store and one clock, interleaved statement by
statement, while accounts are created and edited and processes boot. The other systems
each show a part of this one: `World` the two scheduled workers without their logins,
`Sessions` the accounts, `Refreshing` the two workers that log in, and `Solo`, `Tick` and
`Asking` a single job. That this one refines them is proved of each.

A job that `OddsWorker` enqueues is a job here, whichever worker it is for. Every
attempt of an `EventWorker` job is answered on its own.
-/

namespace BetterEfisis

open Lib Betfair

/-- What the code relies on outside this repository. -/
structure Environment extends Config where
  /-- `Digest::MD5.hexdigest`. -/
  md5 : String → String
  /-- `DateTime.parse`, in seconds. -/
  parseDate : String → Option Int
  /-- The account the workers log in with. -/
  apiAccount : List Account → Option Account

/-- How the database compares two texts. -/
def Environment.same (env : Environment) : String → String → Bool := env.collation.same

structure Application where
  store : Store
  now : Int
  ticks : List (Job Unit OddsWorker.Pc)
  monitors : List (Job Int MonitorWEBWorker.Pc)
  imports : List (Job Unit EventWorker.Pc)
  refreshes : List (Job Int RefreshOddsWorker.Pc)
  /-- Of each process that boots, the stamps its Redis initializer has still to set. -/
  boots : List (List OddsWorker.Range)

namespace Application

/-- The seconds before each clock reading of a login, and what the endpoint answers it. -/
structure Waits where
  d : Nat
  d' : Nat
  d'' : Nat
  answer : Option String
deriving DecidableEq, Repr

def Waits.total (x : Waits) : Nat := x.d + x.d' + x.d''

/-- A login that begins at `now`. -/
def Waits.logon (x : Waits) (now : Int) : EventWorker.Logon :=
  ⟨now + x.d, now + x.d + x.d', now + x.d + x.d' + x.d'', x.answer⟩

/-- What can happen next. -/
inductive Act where
  | advance (d : Nat)
  | createAccount (username password service : Option String)
  | editAccount (i : Nat) (username password service : Option String)
  | boot
  /-- Process `b` executes the next line of its initializer. -/
  | resetStamp (b : Nat)
  | scheduleTick
  | startTick (i : Nat)
  | tick (i : Nat) (d : Nat)
  | raiseTick (i : Nat)
  | startMonitor (j : Nat)
  | monitor (j : Nat) (body : Body)
  | raiseMonitor (j : Nat)
  | scheduleImport
  | startImport (i : Nat)
  /-- `answers` is what the exchange would answer, `ids` the keys of new rows. -/
  | import_ (i : Nat) (x : Waits) (answers : Answers) (ids : Nat → Nat)
  | raiseImport (i : Nat)
  | startRefresh (k : Nat)
  | refresh (k : Nat) (x : Waits) (answer : Option (List MarketBook))
  | raiseRefresh (k : Nat)

/-- The lines of the Redis initializer. -/
def initializer : List OddsWorker.Range := [.soon, .later, .tomorow, .someday]

def afterTick (w : Application) (i : Nat) (job : Job Unit OddsWorker.Pc) (now : Int)
    (r : OddsWorker.Step) : Application :=
  { w with
    store := r.store
    now := now
    ticks := w.ticks.set i (job.settle r.next)
    monitors := w.monitors ++ r.monitors.map Job.enqueue
    refreshes := w.refreshes ++ r.refreshes.map Job.enqueue }

def afterMonitor (w : Application) (j : Nat) (job : Job Int MonitorWEBWorker.Pc)
    (r : Store × Outcome MonitorWEBWorker.Pc) : Application :=
  { w with store := r.1, monitors := w.monitors.set j (job.settle r.2) }

def afterImport (w : Application) (i : Nat) (job : Job Unit EventWorker.Pc) (now : Int)
    (r : Store × Outcome EventWorker.Pc) : Application :=
  { w with store := r.1, now := now, imports := w.imports.set i (job.settle r.2) }

def afterRefresh (w : Application) (k : Nat) (job : Job Int RefreshOddsWorker.Pc) (now : Int)
    (r : Store × Outcome RefreshOddsWorker.Pc) : Application :=
  { w with store := r.1, now := now, refreshes := w.refreshes.set k (job.settle r.2) }

/-- The system's step function. -/
def act (env : Environment) (w : Application) : Act → Option Application
  | .advance d => some { w with now := w.now + d }
  | .createAccount username password service =>
      let accounts := Account.create env.md5 w.store.accounts username password service
      some { w with store := { w.store with accounts := accounts } }
  | .editAccount i username password service =>
      (w.store.accounts[i]?).map (fun a =>
        let a' := Sessions.edited a username password service
        { w with store := { w.store with accounts := Account.save env.md5 w.store.accounts i a' } })
  | .boot => some { w with boots := w.boots ++ [initializer] }
  | .resetStamp b =>
      match w.boots[b]? with
      | some (r :: rs) =>
          some { w with store := w.store.redisSet r.key (.int 0), boots := w.boots.set b rs }
      | _ => none
  | .scheduleTick => some { w with ticks := w.ticks ++ [Job.enqueue ()] }
  | .startTick i => (startAt w.ticks i .load).map (fun l => { w with ticks := l })
  | .tick i d =>
      (runningAt w.ticks i).map (fun (job, pc) =>
        w.afterTick i job (w.now + d) (OddsWorker.step w.now (w.now + d) w.store pc))
  | .raiseTick i => (raiseAt w.ticks i).map (fun l => { w with ticks := l })
  | .startMonitor j => (startAt w.monitors j (.waiting 0)).map (fun l => { w with monitors := l })
  | .monitor j body =>
      (runningAt w.monitors j).map (fun (job, pc) =>
        w.afterMonitor j job (MonitorWEBWorker.step env.toConfig job.arg body w.store pc))
  | .raiseMonitor j => (raiseAt w.monitors j).map (fun l => { w with monitors := l })
  | .scheduleImport => some { w with imports := w.imports ++ [Job.enqueue ()] }
  | .startImport i => (startAt w.imports i .login).map (fun l => { w with imports := l })
  | .import_ i x answers ids =>
      (runningAt w.imports i).map (fun (job, pc) =>
        w.afterImport i job (w.now + x.total)
          (EventWorker.step env.md5 env.parseDate env.same env.apiAccount answers (x.logon w.now)
            ids w.store pc))
  | .raiseImport i => (raiseAt w.imports i).map (fun l => { w with imports := l })
  | .startRefresh k => (startAt w.refreshes k .login).map (fun l => { w with refreshes := l })
  | .refresh k x answer =>
      (runningAt w.refreshes k).map (fun (job, pc) =>
        w.afterRefresh k job (w.now + x.total)
          (RefreshOddsWorker.step env.md5 env.same env.apiAccount (x.logon w.now) answer job.arg
            w.store pc))
  | .raiseRefresh k => (raiseAt w.refreshes k).map (fun l => { w with refreshes := l })

/-- The steps of the system, one by one. -/
inductive Moved (env : Environment) (w : Application) : Act → Application → Prop where
  | advanced {d : Nat} : Moved env w (.advance d) { w with now := w.now + d }
  | created {username password service : Option String} :
      Moved env w (.createAccount username password service)
        { w with store := { w.store with
            accounts := Account.create env.md5 w.store.accounts username password service } }
  | edited {i : Nat} {username password service : Option String} {a : Account} :
      w.store.accounts[i]? = some a → Moved env w (.editAccount i username password service)
        { w with store := { w.store with
            accounts := Account.save env.md5 w.store.accounts i
              (Sessions.edited a username password service) } }
  | booted : Moved env w .boot { w with boots := w.boots ++ [initializer] }
  | stampReset {b : Nat} {r : OddsWorker.Range} {rs : List OddsWorker.Range} :
      w.boots[b]? = some (r :: rs) → Moved env w (.resetStamp b)
        { w with store := w.store.redisSet r.key (.int 0), boots := w.boots.set b rs }
  | scheduledTick : Moved env w .scheduleTick { w with ticks := w.ticks ++ [Job.enqueue ()] }
  | startedTick {i : Nat} {job : Job Unit OddsWorker.Pc} : w.ticks[i]? = some job →
      job.isLive = true → (∀ pc, job.phase ≠ .running pc) → Moved env w (.startTick i)
        { w with ticks := w.ticks.set i { job with phase := .running .load } }
  | ticked {i d : Nat} {job : Job Unit OddsWorker.Pc} {pc : OddsWorker.Pc} :
      w.ticks[i]? = some job → job.phase = .running pc → Moved env w (.tick i d)
        (w.afterTick i job (w.now + d) (OddsWorker.step w.now (w.now + d) w.store pc))
  | raisedTick {i : Nat} {job : Job Unit OddsWorker.Pc} {pc : OddsWorker.Pc} :
      w.ticks[i]? = some job → job.phase = .running pc →
      Moved env w (.raiseTick i) { w with ticks := w.ticks.set i job.raise }
  | startedMonitor {j : Nat} {job : Job Int MonitorWEBWorker.Pc} : w.monitors[j]? = some job →
      job.isLive = true → (∀ pc, job.phase ≠ .running pc) → Moved env w (.startMonitor j)
        { w with monitors := w.monitors.set j { job with phase := .running (.waiting 0) } }
  | monitored {j : Nat} {body : Body} {job : Job Int MonitorWEBWorker.Pc}
      {pc : MonitorWEBWorker.Pc} : w.monitors[j]? = some job → job.phase = .running pc →
      Moved env w (.monitor j body)
        (w.afterMonitor j job (MonitorWEBWorker.step env.toConfig job.arg body w.store pc))
  | raisedMonitor {j : Nat} {job : Job Int MonitorWEBWorker.Pc} {pc : MonitorWEBWorker.Pc} :
      w.monitors[j]? = some job → job.phase = .running pc →
      Moved env w (.raiseMonitor j) { w with monitors := w.monitors.set j job.raise }
  | scheduledImport : Moved env w .scheduleImport
      { w with imports := w.imports ++ [Job.enqueue ()] }
  | startedImport {i : Nat} {job : Job Unit EventWorker.Pc} : w.imports[i]? = some job →
      job.isLive = true → (∀ pc, job.phase ≠ .running pc) → Moved env w (.startImport i)
        { w with imports := w.imports.set i { job with phase := .running .login } }
  | imported {i : Nat} {x : Waits} {answers : Answers} {ids : Nat → Nat}
      {job : Job Unit EventWorker.Pc} {pc : EventWorker.Pc} : w.imports[i]? = some job →
      job.phase = .running pc → Moved env w (.import_ i x answers ids)
        (w.afterImport i job (w.now + x.total)
          (EventWorker.step env.md5 env.parseDate env.same env.apiAccount answers (x.logon w.now)
            ids w.store pc))
  | raisedImport {i : Nat} {job : Job Unit EventWorker.Pc} {pc : EventWorker.Pc} :
      w.imports[i]? = some job → job.phase = .running pc →
      Moved env w (.raiseImport i) { w with imports := w.imports.set i job.raise }
  | startedRefresh {k : Nat} {job : Job Int RefreshOddsWorker.Pc} : w.refreshes[k]? = some job →
      job.isLive = true → (∀ pc, job.phase ≠ .running pc) → Moved env w (.startRefresh k)
        { w with refreshes := w.refreshes.set k { job with phase := .running .login } }
  | refreshed {k : Nat} {x : Waits} {answer : Option (List MarketBook)}
      {job : Job Int RefreshOddsWorker.Pc} {pc : RefreshOddsWorker.Pc} :
      w.refreshes[k]? = some job → job.phase = .running pc → Moved env w (.refresh k x answer)
        (w.afterRefresh k job (w.now + x.total)
          (RefreshOddsWorker.step env.md5 env.same env.apiAccount (x.logon w.now) answer job.arg
            w.store pc))
  | raisedRefresh {k : Nat} {job : Job Int RefreshOddsWorker.Pc} {pc : RefreshOddsWorker.Pc} :
      w.refreshes[k]? = some job → job.phase = .running pc →
      Moved env w (.raiseRefresh k) { w with refreshes := w.refreshes.set k job.raise }

/-- A step is one of those, and each of those is a step. -/
theorem act_iff {env : Environment} {w w' : Application} {a : Act} :
    act env w a = some w' ↔ Moved env w a w' := by
  constructor
  · intro h
    cases a with
    | advance d => cases h; exact .advanced
    | createAccount username password service => cases h; exact .created
    | boot => cases h; exact .booted
    | scheduleTick => cases h; exact .scheduledTick
    | scheduleImport => cases h; exact .scheduledImport
    | editAccount i username password service =>
        obtain ⟨a, ha, rfl⟩ := Option.map_eq_some_iff.mp h
        exact .edited ha
    | resetStamp b =>
        rw [act] at h
        split at h
        · rename_i r rs hb
          cases h
          exact .stampReset hb
        · exact absurd h (by simp)
    | startTick i =>
        obtain ⟨l, hl, rfl⟩ := Option.map_eq_some_iff.mp h
        obtain ⟨job, hj, hlive, hno, rfl⟩ := startAt_iff.mp hl
        exact .startedTick hj hlive hno
    | startMonitor j =>
        obtain ⟨l, hl, rfl⟩ := Option.map_eq_some_iff.mp h
        obtain ⟨job, hj, hlive, hno, rfl⟩ := startAt_iff.mp hl
        exact .startedMonitor hj hlive hno
    | startImport i =>
        obtain ⟨l, hl, rfl⟩ := Option.map_eq_some_iff.mp h
        obtain ⟨job, hj, hlive, hno, rfl⟩ := startAt_iff.mp hl
        exact .startedImport hj hlive hno
    | startRefresh k =>
        obtain ⟨l, hl, rfl⟩ := Option.map_eq_some_iff.mp h
        obtain ⟨job, hj, hlive, hno, rfl⟩ := startAt_iff.mp hl
        exact .startedRefresh hj hlive hno
    | tick i d =>
        obtain ⟨⟨job, pc⟩, hr, rfl⟩ := Option.map_eq_some_iff.mp h
        obtain ⟨hj, hp⟩ := runningAt_iff.mp hr
        exact .ticked hj hp
    | monitor j body =>
        obtain ⟨⟨job, pc⟩, hr, rfl⟩ := Option.map_eq_some_iff.mp h
        obtain ⟨hj, hp⟩ := runningAt_iff.mp hr
        exact .monitored hj hp
    | import_ i x answers ids =>
        obtain ⟨⟨job, pc⟩, hr, rfl⟩ := Option.map_eq_some_iff.mp h
        obtain ⟨hj, hp⟩ := runningAt_iff.mp hr
        exact .imported hj hp
    | refresh k x answer =>
        obtain ⟨⟨job, pc⟩, hr, rfl⟩ := Option.map_eq_some_iff.mp h
        obtain ⟨hj, hp⟩ := runningAt_iff.mp hr
        exact .refreshed hj hp
    | raiseTick i =>
        obtain ⟨l, hl, rfl⟩ := Option.map_eq_some_iff.mp h
        obtain ⟨job, pc, hj, hp, rfl⟩ := raiseAt_iff.mp hl
        exact .raisedTick hj hp
    | raiseMonitor j =>
        obtain ⟨l, hl, rfl⟩ := Option.map_eq_some_iff.mp h
        obtain ⟨job, pc, hj, hp, rfl⟩ := raiseAt_iff.mp hl
        exact .raisedMonitor hj hp
    | raiseImport i =>
        obtain ⟨l, hl, rfl⟩ := Option.map_eq_some_iff.mp h
        obtain ⟨job, pc, hj, hp, rfl⟩ := raiseAt_iff.mp hl
        exact .raisedImport hj hp
    | raiseRefresh k =>
        obtain ⟨l, hl, rfl⟩ := Option.map_eq_some_iff.mp h
        obtain ⟨job, pc, hj, hp, rfl⟩ := raiseAt_iff.mp hl
        exact .raisedRefresh hj hp
  · intro h
    cases h with
    | advanced | created | booted | scheduledTick | scheduledImport => rfl
    | edited ha => rw [act, ha]; rfl
    | stampReset hb => rw [act, hb]
    | startedTick hj hl hn => rw [act, startAt_iff.mpr ⟨_, hj, hl, hn, rfl⟩]; rfl
    | startedMonitor hj hl hn => rw [act, startAt_iff.mpr ⟨_, hj, hl, hn, rfl⟩]; rfl
    | startedImport hj hl hn => rw [act, startAt_iff.mpr ⟨_, hj, hl, hn, rfl⟩]; rfl
    | startedRefresh hj hl hn => rw [act, startAt_iff.mpr ⟨_, hj, hl, hn, rfl⟩]; rfl
    | ticked hj hp | monitored hj hp | imported hj hp | refreshed hj hp =>
        rw [act, runningAt_iff.mpr ⟨hj, hp⟩]; rfl
    | raisedTick hj hp | raisedMonitor hj hp | raisedImport hj hp | raisedRefresh hj hp =>
        rw [act, raiseAt_iff.mpr ⟨_, _, hj, hp, rfl⟩]; rfl

/-- The first process has booted: empty tables, the four stamps at 0, and no job. -/
def boot : Application := ⟨Store.boot, 0, [], [], [], [], []⟩

/-- The system starts at `boot`, at any time of the clock. -/
def Init (w : Application) : Prop := ∃ now, w = { boot with now := now }

theorem init_boot : Init boot := ⟨0, rfl⟩

end Application

end BetterEfisis

import BetterEfisis.Lib.Sidekiq
import BetterEfisis.Model.Store

/-!
# `MonitorWEBWorker`

`perform` as a machine: `Pc` says which statement a run executes next and carries
the locals that are still read from there on, and `step` executes it. Every call
that leaves the process (a poll, a Redis command, a query) is a step of its own,
so that a failure or another job can come between any two of them.
`Event.update` is two: `find`, and the write on the copy it loaded.
-/

namespace BetterEfisis

open Lib

/-- What the code relies on outside this repository, as far as it can vary. -/
structure Config where
  /-- How the database compares a runner's name. -/
  collation : Collation
  /-- What `update` on an event resolves to. -/
  updateMethod : Event.UpdateMethod

namespace MonitorWEBWorker

/-- `updates_to_db`. A team that is neither home nor away leaves `runner_id` unset. -/
def updatesToDb (eventId : Int) (homeId awayId : Option Nat) (updates : List UpdateDetail) :
    List Update :=
  updates.map (fun u =>
    { matchTime := u.matchTime
      updateType := u.type
      runnerId :=
        match u.team with
        | none => none
        | some "home" => homeId
        | some "away" => awayId
        | some _ => none
      eventId := eventId })

/-- The names and runner ids of the two teams. -/
structure Match where
  homeName : Option String
  awayName : Option String
  runnerHome : Option Nat
  runnerAway : Option Nat
deriving DecidableEq, Repr

/-- The scores known so far: both are `nil` before the first poll. -/
structure Scores where
  home : Option Int
  away : Option Int
deriving DecidableEq, Repr

/-- The statement `perform` executes next. -/
inductive Pc where
  /-- The head of the waiting loop, with `waiting_loop`. -/
  | waiting (n : Nat)
  /-- `$redis.set(rediskey, nil)`. -/
  | setKey (t : Timeline)
  /-- The two names, and the look-up of the home runner. -/
  | findHome (t : Timeline)
  | createHome (homeName awayName : Option String)
  | findAway (homeName awayName : Option String) (runnerHome : Option Nat)
  | createAway (homeName awayName : Option String) (runnerHome : Option Nat)
  /-- `Event.update(id, status: "IN_PLAY")`, its `find`. -/
  | loadInPlay (m : Match)
  | saveInPlay (m : Match) (loaded : Event)
  /-- The poll at the head of the second loop. -/
  | polling (m : Match) (sc : Scores)
  /-- The write of the snapshot, and the two tests that leave the loop. -/
  | snapshot (m : Match) (sc : Scores) (t : Timeline)
  | delKey (m : Match) (updates : Option (List UpdateDetail))
  | importUpdates (m : Match) (updates : Option (List UpdateDetail))
  /-- `Event.update(id, status: "ENDED", monitored: false)`, its `find`. -/
  | loadEnded
  | saveEnded (loaded : Event)
deriving DecidableEq, Repr

/-- The attributes of the first `Event.update`. -/
def inPlay (e : Event) : Event := { e with status := some .inPlay }

/-- The attributes of the second. -/
def ended (e : Event) : Event := { e with status := some .ended, monitored := some false }

/-- `response.body['score'][side]['score'] unless response.body['score'][side].nil?`. -/
def latest (side : Option Team) (before : Option Int) : Option Int :=
  match side with
  | some team => team.score
  | none => before

/-- The hash stored after a poll. -/
def encode (id : Int) (m : Match) (sc : Scores) (t : Timeline) : Snapshot where
  id := id
  homeName := m.homeName
  homeScore := sc.home
  runnerHome := m.runnerHome
  awayName := m.awayName
  awayScore := sc.away
  runnerAway := m.runnerAway
  matchStatus := t.status
  timeElapsed := t.timeElapsed
  updates := t.updateDetails

/-- The two `break`s of the polling loop. -/
def isOver (t : Timeline) : Bool :=
  t.status = some "COMPLETE" || t.inPlayMatchStatus = some "Finished"

/--
One step of `perform(id)`. `body` is the answer of the feed, read by the two
statements that poll.
-/
def step (cfg : Config) (id : Int) (body : Body) (s : Store) : Pc → Store × Outcome Pc
  | .waiting n =>
      if n = 200 then (s, .next .loadEnded)
      else
        match body with
        | .empty => (s, .next (.waiting (n + 1)))
        | .json t => (s, .next (.setKey t))
  | .setKey t => (s.redisSet (redisKey id) .blank, .next (.findHome t))
  | .findHome t =>
      match t.score with
      | some ⟨some home, some away⟩ =>
          match Runner.findBy cfg.collation s.runners home.name with
          | some r => (s, .next (.findAway home.name away.name (some r.id)))
          | none => (s, .next (.createHome home.name away.name))
      | _ => (s, .raised)
  | .createHome homeName awayName =>
      match Runner.create s.runners homeName with
      | .ok (runners, r) => ({ s with runners := runners }, .next (.findAway homeName awayName r))
      | .error _ => (s, .raised)
  | .findAway homeName awayName runnerHome =>
      match Runner.findBy cfg.collation s.runners awayName with
      | some r => (s, .next (.loadInPlay ⟨homeName, awayName, runnerHome, some r.id⟩))
      | none => (s, .next (.createAway homeName awayName runnerHome))
  | .createAway homeName awayName runnerHome =>
      match Runner.create s.runners awayName with
      | .ok (runners, r) =>
          ({ s with runners := runners }, .next (.loadInPlay ⟨homeName, awayName, runnerHome, r⟩))
      | .error _ => (s, .raised)
  | .loadInPlay m =>
      match Event.find s.events id with
      | .ok e => (s, .next (.saveInPlay m e))
      | .error _ => (s, .raised)
  | .saveInPlay m loaded =>
      (s.eventUpdate cfg.updateMethod loaded .inPlay inPlay, .next (.polling m ⟨none, none⟩))
  | .polling m sc =>
      match body with
      | .json t =>
          match t.score with
          | some score =>
              (s, .next (.snapshot m ⟨latest score.home sc.home, latest score.away sc.away⟩ t))
          | none => (s, .raised)
      | .empty => (s, .raised)
  | .snapshot m sc t =>
      (s.redisSet (redisKey id) (.json (encode id m sc t)),
        if isOver t then .next (.delKey m t.updateDetails) else .next (.polling m sc))
  | .delKey m updates => (s.redisDel (redisKey id), .next (.importUpdates m updates))
  | .importUpdates m updates =>
      match updates with
      | some us =>
          ({ s with updates := s.updates ++ updatesToDb id m.runnerHome m.runnerAway us },
            .next .loadEnded)
      | none => (s, .raised)
  | .loadEnded =>
      match Event.find s.events id with
      | .ok e => (s, .next (.saveEnded e))
      | .error _ => (s, .raised)
  | .saveEnded loaded => (s.eventUpdate cfg.updateMethod loaded .ended ended, .finished)

/-- The statements that raise on the data they meet, without any call failing. -/
def fails (id : Int) (body : Body) (s : Store) : Pc → Bool
  | .findHome t =>
      match t.score with
      | some ⟨some _, some _⟩ => false
      | _ => true
  | .createHome homeName _ => homeName.isNone
  | .createAway _ awayName _ => awayName.isNone
  | .loadInPlay _ | .loadEnded => (Event.lookup s.events id).isNone
  | .polling _ _ =>
      match body with
      | .json t => t.score.isNone
      | .empty => true
  | .importUpdates _ updates => updates.isNone
  | _ => false

/-- Creating a runner raises on a missing name only. -/
theorem create_error {t : List Runner} {name : Option String} {x : RubyError}
    (h : Runner.create t name = .error x) : name = none := by
  cases name with
  | none => rfl
  | some n =>
      rw [Runner.create] at h
      split at h <;> exact absurd h (by simp)

theorem fails_of_raised {cfg : Config} {id : Int} {body : Body} {s : Store} {pc : Pc}
    (h : (step cfg id body s pc).2 = .raised) : fails id body s pc = true := by
  cases pc with
  | waiting n => by_cases hn : n = 200 <;> cases body <;> simp [step, hn] at h
  | setKey t | saveInPlay m c | delKey m us | saveEnded c => exact absurd h (by simp [step])
  | findHome t =>
      cases hsc : t.score with
      | none => simp [fails, hsc]
      | some sc =>
          obtain ⟨_ | home, away⟩ := sc
          · simp [fails, hsc]
          · cases away with
            | none => simp [fails, hsc]
            | some away =>
                simp only [step, hsc] at h
                split at h <;> exact absurd h (by simp)
  | createHome n a =>
      rw [step] at h
      split at h
      · exact absurd h (by simp)
      · rename_i hc; rw [create_error hc]; rfl
  | findAway n a r =>
      rw [step] at h
      split at h <;> exact absurd h (by simp)
  | createAway n a r =>
      rw [step] at h
      split at h
      · exact absurd h (by simp)
      · rename_i hc; rw [create_error hc]; rfl
  | loadInPlay m | loadEnded =>
      rw [step, Event.find] at h
      rw [fails]
      cases hl : Event.lookup s.events id with
      | none => rfl
      | some e => rw [hl] at h; exact absurd h (by simp)
  | polling m sc =>
      cases body with
      | empty => rfl
      | json t =>
          simp only [step] at h
          simp only [fails]
          cases hs : t.score with
          | none => rfl
          | some score => rw [hs] at h; exact absurd h (by simp)
  | snapshot m sc t =>
      rw [step] at h
      by_cases ho : isOver t = true <;> simp [ho] at h
  | importUpdates m us =>
      cases us with
      | none => rfl
      | some us => exact absurd h (by simp [step])

/-- Every row `updates_to_db` builds belongs to the event. -/
theorem ofEvent_updatesToDb (id : Int) (h a : Option Nat) (us : List UpdateDetail) :
    Update.ofEvent (updatesToDb id h a us) id = updatesToDb id h a us := by
  simp [Update.ofEvent, updatesToDb]

end MonitorWEBWorker

end BetterEfisis

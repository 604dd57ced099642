import BetterEfisis.Asking
import BetterEfisis.Proof.Cached
import BetterEfisis.Proof.Key
import BetterEfisis.Tick

/-!
# What one job sees of the application

`Solo`, `Tick` and `Asking` follow a single job, and cover up the rest of the system: for a
monitor the rest is whatever leaves its own things alone, and a tick or a refresh is by
itself. Here each of them is found again in the application, between the steps of all the
other jobs.

For a monitor this needs nothing but that its event has no other one. That the others keep
away from its key, from the updates of its event and from what is written to the status of
that event is an invariant of the whole system, not an assumption.
-/

namespace BetterEfisis.Proof

open Lib Application

variable {env : Environment}

/-! ## The copies monitors have in hand -/

/-- The row a monitor of event `id` is about to save is that of its event. -/
def OwnCopy (id : Int) : MonitorWEBWorker.Pc → Prop
  | .saveInPlay _ e | .saveEnded e => e.id = id
  | _ => True

def OwnCopies (w : Application) : Prop := AllStand OwnCopy w.monitors

theorem monitor_ownCopy {cfg : Config} {id : Int} {body : Body} {s s' : Store}
    {pc pc' : MonitorWEBWorker.Pc} (h : MonitorStep cfg id body s pc s' (.next pc')) :
    OwnCopy id pc' := by
  cases h with
  | inPlayLoaded he | endedLoaded he => exact (Event.lookup_mem he).2
  | _ => trivial

theorem ownCopies_moved {w w' : Application} {a : Application.Act} (h : OwnCopies w)
    (hm : Moved env w a w') : OwnCopies w' := by
  cases hm with
  | ticked => exact h.enqueue _
  | startedMonitor => exact h.start trivial
  | raisedMonitor => exact h.raise
  | @monitored j body job pc hj hp =>
      refine h.settle ?_
      intro q hq
      have hstep := monitor_step env.toConfig job.arg body w.store pc
      rw [hq] at hstep
      exact monitor_ownCopy hstep
  | _ => exact h

theorem ownCopies_reachable {ok : Application → Application.Act → Prop} {w : Application}
    (h : Reachable (Application.act env) ok Application.Init w) : OwnCopies w := by
  refine h.invariant ?_ ?_
  · intro w hw
    obtain ⟨now, rfl⟩ := hw
    exact allStand_nil
  · intro w a w' hw _ hs
    exact ownCopies_moved hw (act_iff.mp hs)

/-! ## What the others leave alone -/

theorem SameFor.refl (id : Int) (s : Store) : Solo.SameFor id s s := ⟨rfl, rfl, rfl⟩

/-- A key that is not the event's is set or deleted. -/
theorem sameFor_redis {id : Int} {s : Store} {redis : String → Option RedisValue}
    (h : redis (redisKey id) = s.redis (redisKey id)) :
    Solo.SameFor id s { s with redis := redis } := ⟨h, rfl, rfl⟩

/-- The status of another event is written. -/
theorem sameFor_eventUpdate {id : Int} {s : Store} {m : Event.UpdateMethod} {e : Event}
    {st : Status} {attributes : Event → Event} (h : e.id ≠ id) :
    Solo.SameFor id s (s.eventUpdate m e st attributes) := by
  refine ⟨rfl, rfl, ?_⟩
  unfold Solo.statusesOf Store.eventUpdate
  dsimp only
  split
  · rw [List.filter_append]
    simp [h]
  · rfl

/-- What a monitor does for its event is nothing to the other events. -/
theorem sameFor_monitor {cfg : Config} {id id' : Int} {body : Body} {s s' : Store}
    {pc : MonitorWEBWorker.Pc} {o : Outcome MonitorWEBWorker.Pc} (hne : id' ≠ id)
    (hcopy : OwnCopy id' pc) (h : MonitorStep cfg id' body s pc s' o) :
    Solo.SameFor id s s' := by
  have hkey : redisKey id ≠ redisKey id' := fun he => hne (redisKey_injective he).symm
  cases h with
  | keySet | cached _ | cachedLast _ | keyDeleted => exact sameFor_redis (if_neg hkey)
  | inPlaySaved | endedSaved => exact sameFor_eventUpdate (hcopy ▸ hne)
  | @updatesImported m us =>
      refine ⟨rfl, ?_, rfl⟩
      have hnone : Update.ofEvent
          (MonitorWEBWorker.updatesToDb id' m.runnerHome m.runnerAway us) id = [] := by
        simp [Update.ofEvent, MonitorWEBWorker.updatesToDb, hne]
      rw [Update.ofEvent_append, hnone, List.append_nil]
  | _ => exact SameFor.refl id s

theorem sameFor_odds {id now now' : Int} {s : Store} {pc : OddsWorker.Pc} {r : OddsWorker.Step}
    (h : OddsStep now now' s pc r) : Solo.SameFor id s r.store := by
  cases h with
  | @stamped r stamp => exact sameFor_redis (if_neg (redisKey_ne id r))
  | _ => exact SameFor.refl id s

theorem sameFor_import {id : Int} {answers : Answers} {l : EventWorker.Logon} {ids : Nat → Nat}
    {s s' : Store} {pc : EventWorker.Pc} {o : Outcome EventWorker.Pc}
    (h : ImportStep env answers l ids s pc s' o) : Solo.SameFor id s s' := by
  cases h <;> exact SameFor.refl id s

theorem sameFor_refresh {id eventId : Int} {l : EventWorker.Logon}
    {answer : Option (List Betfair.MarketBook)} {s s' : Store} {pc : RefreshOddsWorker.Pc}
    {o : Outcome RefreshOddsWorker.Pc} (h : RefreshStep env l answer eventId s pc s' o) :
    Solo.SameFor id s s' := by
  cases h <;> exact SameFor.refl id s

/-- **A step that is not one of a monitor of event `id` leaves alone what is that event's.** -/
theorem sameFor_moved {w w' : Application} {a : Application.Act} {id : Int} (hown : OwnCopies w)
    (hm : Moved env w a w')
    (hid : ∀ j body job, a = .monitor j body → w.monitors[j]? = some job → job.arg ≠ id) :
    Solo.SameFor id w.store w'.store := by
  cases hm with
  | @stampReset b r rs _ => exact sameFor_redis (if_neg (redisKey_ne id r))
  | @ticked i d job pc hj hp => exact sameFor_odds (odds_step w.now (w.now + d) w.store pc)
  | @monitored j body job pc hj hp =>
      exact sameFor_monitor (hid j body job rfl hj) (hown.here hj hp)
        (monitor_step env.toConfig job.arg body w.store pc)
  | @imported i x answers ids job pc hj hp =>
      exact sameFor_import (import_step env answers (x.logon w.now) ids w.store pc)
  | @refreshed k x answer job pc hj hp =>
      exact sameFor_refresh (refresh_step env (x.logon w.now) answer job.arg w.store pc)
  | _ => exact SameFor.refl id w.store

/-! ## A monitor -/

/-- What `Solo` has of the application for the monitor at place `j`. -/
def Shows (j : Nat) (w : Application) (v : Solo) : Prop :=
  v.store = w.store ∧ w.monitors[j]? = some v.job

/-- A step of that monitor. -/
def soloAct (j : Nat) : Application.Act → Option Solo.Act
  | .startMonitor k => if k = j then some .start else none
  | .monitor k body => if k = j then some (.perform body) else none
  | .raiseMonitor k => if k = j then some .raise else none
  | _ => none

/-- It is a step of `Solo`. -/
theorem solo_own {w w' : Application} {a : Application.Act} {j : Nat} {b : Solo.Act}
    (hm : Moved env w a w') (hb : soloAct j a = some b) :
    ∃ job, w.monitors[j]? = some job ∧ ∀ v, Shows j w v →
      ∃ v', Solo.act env.toConfig v b = some v' ∧ Shows j w' v' := by
  cases hm with
  | @startedMonitor k job hj hlive hno =>
      obtain ⟨rfl, rfl⟩ : k = j ∧ Solo.Act.start = b := by simpa [soloAct] using hb
      refine ⟨job, hj, fun v hv => ?_⟩
      have hjob : job = v.job := Option.some.inj (hj.symm.trans hv.2)
      subst hjob
      refine ⟨{ v with job := { v.job with phase := .running (.waiting 0) } }, ?_, hv.1,
        getElem?_set_here hj⟩
      simp only [Solo.act, Job.start_of_live hlive hno, Option.map_some]
  | @monitored k body job pc hj hp =>
      obtain ⟨rfl, rfl⟩ : k = j ∧ Solo.Act.perform body = b := by simpa [soloAct] using hb
      refine ⟨job, hj, fun v hv => ?_⟩
      have hjob : job = v.job := Option.some.inj (hj.symm.trans hv.2)
      subst hjob
      refine ⟨⟨(MonitorWEBWorker.step env.toConfig v.job.arg body v.store pc).1,
        v.job.settle (MonitorWEBWorker.step env.toConfig v.job.arg body v.store pc).2,
        v.seen ++ Solo.polled body pc, Solo.kept v.imported pc⟩, ?_, ?_, ?_⟩
      · simp only [Solo.act, hp]
      · simp only [afterMonitor, hv.1]
      · rw [hv.1]
        exact getElem?_set_here hj
  | @raisedMonitor k job pc hj hp =>
      obtain ⟨rfl, rfl⟩ : k = j ∧ Solo.Act.raise = b := by simpa [soloAct] using hb
      refine ⟨job, hj, fun v hv => ?_⟩
      have hjob : job = v.job := Option.some.inj (hj.symm.trans hv.2)
      subst hjob
      refine ⟨{ v with job := v.job.raise }, ?_, hv.1, getElem?_set_here hj⟩
      simp only [Solo.act, hp]
  | _ => exact absurd hb (by simp [soloAct])

/-- After any other step the monitor is the one it was, or has just been enqueued. -/
theorem solo_others {w w' : Application} {a : Application.Act} {j : Nat}
    {job : Job Int MonitorWEBWorker.Pc} (hm : Moved env w a w') (ha : soloAct j a = none)
    (hj : w'.monitors[j]? = some job) :
    w.monitors[j]? = some job ∨ w.monitors.length ≤ j ∧ ∃ id, job = Job.enqueue id := by
  -- another monitor is replaced
  have stays : ∀ {k : Nat} {job' : Job Int MonitorWEBWorker.Pc}, k ≠ j →
      (w.monitors.set k job')[j]? = some job → w.monitors[j]? = some job := by
    intro k job' hk h
    rwa [List.getElem?_set_ne hk] at h
  cases hm with
  | @ticked i d _ pc _ _ =>
      by_cases hlt : j < w.monitors.length
      · left
        rwa [afterTick, List.getElem?_append_left hlt] at hj
      · right
        have hle := Nat.le_of_not_lt hlt
        rw [afterTick, List.getElem?_append_right hle] at hj
        obtain ⟨id, _, rfl⟩ := List.mem_map.mp (List.mem_of_getElem? hj)
        exact ⟨hle, id, rfl⟩
  | @startedMonitor k _ _ _ _ | @monitored k _ _ _ _ _ | @raisedMonitor k _ _ _ _ =>
      exact Or.inl (stays (by rintro rfl; simp [soloAct] at ha) hj)
  | _ => exact Or.inl hj

/-- The jobs that are there stay, in their places and with their arguments. -/
theorem args_moved {w w' : Application} {a : Application.Act} (hm : Moved env w a w') :
    (∃ ids, w'.monitors.map Job.arg = w.monitors.map Job.arg ++ ids)
      ∧ ∃ ids, w'.refreshes.map Job.arg = w.refreshes.map Job.arg ++ ids := by
  have same : ∀ {pc : Type} {l l' : List (Job Int pc)}, l'.map Job.arg = l.map Job.arg →
      ∃ ids, l'.map Job.arg = l.map Job.arg ++ ids := fun h => ⟨[], by rw [h, List.append_nil]⟩
  cases hm with
  | ticked => exact ⟨⟨_, List.map_append⟩, ⟨_, List.map_append⟩⟩
  | @startedMonitor j job hj _ _ =>
      exact ⟨same (map_arg_set hj { job with phase := .running (.waiting 0) } rfl), same rfl⟩
  | @monitored j body job pc hj _ => exact ⟨same (map_arg_set hj _ (job.settle_arg _)), same rfl⟩
  | @raisedMonitor j job pc hj _ => exact ⟨same (map_arg_set hj _ job.raise_arg), same rfl⟩
  | @startedRefresh k job hj _ _ =>
      exact ⟨same rfl, same (map_arg_set hj { job with phase := .running .login } rfl)⟩
  | @refreshed k x answer job pc hj _ =>
      exact ⟨same rfl, same (map_arg_set hj _ (job.settle_arg _))⟩
  | @raisedRefresh k job pc hj _ => exact ⟨same rfl, same (map_arg_set hj _ job.raise_arg)⟩
  | _ => exact ⟨same rfl, same rfl⟩

theorem monitor_stays {w w' : Application} {a : Application.Act} {k : Nat}
    {job : Job Int MonitorWEBWorker.Pc} (hm : Moved env w a w')
    (hk : w.monitors[k]? = some job) :
    ∃ job', w'.monitors[k]? = some job' ∧ job'.arg = job.arg := by
  obtain ⟨⟨ids, hids⟩, _⟩ := args_moved hm
  have harg : (w.monitors.map Job.arg)[k]? = some job.arg := by rw [List.getElem?_map, hk]; rfl
  have harg' : (w'.monitors.map Job.arg)[k]? = some job.arg := by
    rw [hids, List.getElem?_append_left (List.getElem?_eq_some_iff.mp harg).1, harg]
  rw [List.getElem?_map] at harg'
  exact Option.map_eq_some_iff.mp harg'

/-- The application has written nothing of event `id`. -/
structure Blank (id : Int) (s : Store) : Prop where
  key : s.redis (redisKey id) = none
  rows : Update.ofEvent s.updates id = []
  log : Solo.statusesOf id s = []

theorem Blank.same {id : Int} {s s' : Store} (h : Blank id s) (hs : Solo.SameFor id s s') :
    Blank id s' :=
  ⟨hs.1.trans h.key, hs.2.1.trans h.rows, hs.2.2.trans h.log⟩

/-- A job enqueued now is one of `Solo` before its first attempt. -/
theorem Blank.init {id : Int} {s : Store} (h : Blank id s) :
    Solo.Init id ⟨s, Job.enqueue id, [], []⟩ := by
  refine ⟨rfl, h.key, h.rows, ?_, rfl, rfl⟩
  intro st hmem
  have hmem' : (id, st) ∈ Solo.statusesOf id s := Solo.mem_statusesOf.mpr hmem
  rw [h.log] at hmem'
  exact List.not_mem_nil hmem'

/-- There is no monitor of event `id`. -/
def WithoutMonitor (id : Int) (w : Application) : Prop :=
  ∀ (k : Nat) (job : Job Int MonitorWEBWorker.Pc), w.monitors[k]? = some job → job.arg ≠ id

/-- Nothing is written of an event that has no monitor. -/
theorem blank_reachable {ok : Application → Application.Act → Prop} {w : Application} {id : Int}
    (h : Reachable (Application.act env) ok Application.Init w) (hnone : WithoutMonitor id w) :
    Blank id w.store := by
  refine h.invariant_on (I := fun w => WithoutMonitor id w → Blank id w.store)
    (fun _ => ownCopies_reachable) ?_ ?_ hnone
  · intro w hw _
    obtain ⟨now, rfl⟩ := hw
    have hno : ¬ (redisKey id = "soon" ∨ redisKey id = "later" ∨ redisKey id = "tomorow"
        ∨ redisKey id = "someday") := by
      rintro (h | h | h | h)
      · exact redisKey_ne id .soon h
      · exact redisKey_ne id .later h
      · exact redisKey_ne id .tomorow h
      · exact redisKey_ne id .someday h
    exact ⟨by simp only [Application.boot, Store.boot, if_neg hno], rfl, rfl⟩
  · intro w a w' hown ih _ hs hnone
    have hm := act_iff.mp hs
    have hnone' : WithoutMonitor id w := by
      intro k job hk
      obtain ⟨job', hk', harg⟩ := monitor_stays hm hk
      exact harg ▸ hnone k job' hk'
    exact (ih hnone').same (sameFor_moved hown hm fun k _ job _ hk => hnone' k job hk)

/-- The monitor at place `j` is the only one of event `id`. -/
def OnlyMonitor (j : Nat) (id : Int) (w : Application) : Prop :=
  ∀ (k : Nat) (job : Job Int MonitorWEBWorker.Pc), w.monitors[k]? = some job → job.arg = id →
    k = j

/-- It was the only one before. -/
theorem OnlyMonitor.before {w w' : Application} {a : Application.Act} {j : Nat} {id : Int}
    (h : OnlyMonitor j id w') (hm : Moved env w a w') : OnlyMonitor j id w := by
  intro k job hk harg
  obtain ⟨job', hk', harg'⟩ := monitor_stays hm hk
  exact h k job' hk' (harg'.trans harg)

/--
**The application refines `Solo`.** The only monitor of an event goes, in every run, the way
of a run of `Solo`: whatever the other jobs do is to it a step of others. A condition on the
steps of the monitor is one on the steps of `Solo`.
-/
theorem application_refines_solo {ok : Application → Application.Act → Prop}
    {okv : Solo → Solo.Act → Prop} {j : Nat}
    (hok : ∀ w a b v, ok w a → soloAct j a = some b → Shows j w v → okv v b)
    (hothers : ∀ v s, okv v (.others s)) {w : Application}
    (h : Reachable (Application.act env) ok Application.Init w)
    {job : Job Int MonitorWEBWorker.Pc} (hj : w.monitors[j]? = some job)
    (hone : OnlyMonitor j job.arg w) :
    ∃ v, Reachable (Solo.act env.toConfig) okv (Solo.Init job.arg) v ∧ Shows j w v := by
  obtain ⟨w₀, hinit, hp⟩ := h
  induction hp generalizing job with
  | refl =>
      obtain ⟨now, rfl⟩ := hinit
      have hnil : ([] : List (Job Int MonitorWEBWorker.Pc))[j]? = some job := hj
      exact absurd hnil (by simp)
  | @tail w w' a hp hoka hs ih =>
      have hreach : Reachable (Application.act env) ok Application.Init w := ⟨w₀, hinit, hp⟩
      have hm := act_iff.mp hs
      have hone' := hone.before hm
      cases hb : soloAct j a with
      | some b =>
          -- the monitor's own step
          obtain ⟨job₀, hj₀, hact⟩ := solo_own hm hb
          obtain ⟨job', hj', harg⟩ := monitor_stays hm hj₀
          rw [hj] at hj'
          cases hj'
          obtain ⟨v, hv, hshows⟩ := ih hj₀ (harg ▸ hone')
          obtain ⟨v', hact', hshows'⟩ := hact v hshows
          refine ⟨v', ?_, hshows'⟩
          rw [harg]
          exact hv.later (Lib.Path.one (hok w a b v hoka hb hshows) hact')
      | none =>
          have hsame : Solo.SameFor job.arg w.store w'.store := by
            refine sameFor_moved (ownCopies_reachable hreach) hm ?_
            rintro k body job' rfl hk harg
            have hkj := hone' k job' hk harg
            exact absurd hb (by simp [soloAct, hkj])
          rcases solo_others hm hb hj with hold | ⟨hlen, id, rfl⟩
          · obtain ⟨v, hv, hstore, hjob⟩ := ih hold hone'
            rw [hold] at hjob
            cases hjob
            refine ⟨{ v with store := w'.store }, ?_, rfl, hj⟩
            refine hv.later (Lib.Path.one (a := .others w'.store) (hothers v _) ?_)
            rw [Solo.act, hstore, if_pos hsame]
          · -- it has just been enqueued, and there was none before
            have hnone : WithoutMonitor id w := by
              intro k job' hk harg
              have hkj := hone' k job' hk harg
              have hlt := (List.getElem?_eq_some_iff.mp hk).1
              omega
            have hblank := (blank_reachable hreach hnone).same hsame
            exact ⟨⟨w'.store, Job.enqueue id, [], []⟩, Reachable.start hblank.init, rfl, hj⟩

/-- An attempt of a monitor gives up waiting only where the key of its event does not exist. -/
def MonitorsGiveUpClean (w : Application) (a : Application.Act) : Prop :=
  ∀ (j : Nat) (body : Body) (job : Job Int MonitorWEBWorker.Pc), a = .monitor j body →
    w.monitors[j]? = some job → job.phase = .running (.waiting 200) →
    w.store.redis (redisKey job.arg) = none

/-- **So what `Solo` says of a finished match holds in the whole application.** -/
theorem application_keyDeleted {w : Application}
    (h : Reachable (Application.act env) MonitorsGiveUpClean Application.Init w) {j : Nat}
    {job : Job Int MonitorWEBWorker.Pc} (hj : w.monitors[j]? = some job)
    (hone : OnlyMonitor j job.arg w) (hended : (job.arg, .ended) ∈ w.store.statusLog) :
    w.store.redis (redisKey job.arg) = none := by
  have hok : ∀ w a b v, MonitorsGiveUpClean w a → soloAct j a = some b → Shows j w v →
      GivesUpClean v b := by
    intro w a b v hclean hb hshows
    cases b with
    | perform body =>
        intro hgives
        cases a with
        | monitor k body' =>
            obtain ⟨rfl, rfl⟩ : k = j ∧ body' = body := by simpa [soloAct] using hb
            rw [hshows.1]
            exact hclean k body' v.job rfl hshows.2 hgives
        | startMonitor k | raiseMonitor k => exact absurd hb (by simp [soloAct])
        | _ => exact absurd hb (by simp [soloAct])
    | _ => trivial
  obtain ⟨v, hv, hstore, _⟩ := application_refines_solo hok (fun _ _ => trivial) h hj hone
  rw [← hstore] at hended ⊢
  exact ((keyInv_reachable hv).ended hended).2

/-! ## A tick -/

/-- The keys of the throttle stamps. -/
def stampKeys : List String := [OddsWorker.Range.soon, .later, .tomorow, .someday].map (·.key)

/-- Redis with the stamps only. -/
def stampsOf (redis : String → Option RedisValue) (k : String) : Option RedisValue :=
  if k ∈ stampKeys then redis k else none

/-- The part of the store that `OddsWorker` uses: the events, and the stamps. -/
def oddsStore (s : Store) : Store :=
  { Store.boot with events := s.events, redis := stampsOf s.redis }

theorem oddsStore_stamp (s : Store) (r : OddsWorker.Range) :
    (oddsStore s).redis r.key = s.redis r.key := by
  cases r <;> rfl

theorem oddsStore_redisSet (s : Store) (r : OddsWorker.Range) (v : RedisValue) :
    oddsStore (s.redisSet r.key v) = (oddsStore s).redisSet r.key v := by
  have hr : r.key ∈ stampKeys := by cases r <;> decide
  have hredis : stampsOf (s.redisSet r.key v).redis
      = fun k => if k = r.key then some v else stampsOf s.redis k := by
    funext k
    by_cases hk : k = r.key
    · rw [stampsOf, if_pos hk, hk, if_pos hr, Store.redisSet_self]
    · simp only [stampsOf, Store.redisSet, if_neg hk]
  exact congrArg (fun redis => { Store.boot with events := s.events, redis := redis }) hredis

/-- It uses nothing else. -/
theorem odds_oddsStore (now now' : Int) (s : Store) (pc : OddsWorker.Pc) :
    OddsWorker.step now now' (oddsStore s) pc
      = { OddsWorker.step now now' s pc with
          store := oddsStore (OddsWorker.step now now' s pc).store } := by
  cases pc with
  | load | save | refreshLoad | stampRead => rfl
  | stampGet r =>
      rw [OddsWorker.step, OddsWorker.step, oddsStore_stamp]
      rfl
  | stampSet r stamp =>
      rw [OddsWorker.step, OddsWorker.step, ← oddsStore_redisSet]
      rfl
  | monitor rows =>
      cases rows with
      | nil => rfl
      | cons e rows =>
          rw [OddsWorker.step, OddsWorker.step]
          split <;> rfl
  | refresh sc ids => cases ids <;> rfl
  | stampTest r t =>
      rw [OddsWorker.step, OddsWorker.step]
      split <;> rfl

/-- The tick at place `i` is by itself: no other step writes an event or a stamp. -/
def TickByItself (env : Environment) (i : Nat) (w : Application) (a : Application.Act) : Prop :=
  (∃ d, a = .tick i d) ∨
    ∀ w', Application.act env w a = some w' → oddsStore w'.store = oddsStore w.store

/--
What `Tick` has of the application for the tick at place `i`; the jobs it has enqueued are
among those enqueued since `w₀`, in this order.
-/
structure ShowsTick (i : Nat) (w₀ w : Application) (t : Tick) : Prop where
  store : t.store = oddsStore w.store
  now : t.now = w.now
  job : w.ticks[i]? = some t.job
  monitors : ∃ ids, w.monitors.map Job.arg = w₀.monitors.map Job.arg ++ ids
    ∧ t.monitors.Sublist ids
  refreshes : ∃ ids, w.refreshes.map Job.arg = w₀.refreshes.map Job.arg ++ ids
    ∧ t.enqueued.Sublist ids

/-- The clock only goes on. -/
theorem now_moved {w w' : Application} {a : Application.Act} (hm : Moved env w a w') :
    ∃ d : Nat, w'.now = w.now + d := by
  cases hm with
  | @advanced d | @ticked _ d => exact ⟨d, rfl⟩
  | @imported _ x | @refreshed _ x => exact ⟨x.total, rfl⟩
  | _ => exact ⟨0, (Int.add_zero _).symm⟩

/-- What has been enqueued is still there after more has. -/
theorem sublist_more {l l₀ l' ids ids' xs : List Int} (h : l = l₀ ++ ids)
    (h' : l' = l ++ ids') (hs : xs.Sublist ids) :
    ∃ ids, l' = l₀ ++ ids ∧ xs.Sublist ids :=
  ⟨ids ++ ids', by rw [h', h, List.append_assoc], hs.trans (List.sublist_append_left ids ids')⟩

/-- Time passes for the tick, and others enqueue jobs. -/
theorem ShowsTick.waits {i : Nat} {w₀ w w' : Application} {t : Tick} {a : Application.Act}
    (h : ShowsTick i w₀ w t) (hm : Moved env w a w')
    (hstore : oddsStore w'.store = oddsStore w.store) (hjob : w'.ticks[i]? = w.ticks[i]?) :
    ∃ t', Lib.Path Tick.act always t t' ∧ ShowsTick i w₀ w' t' := by
  obtain ⟨d, hd⟩ := now_moved hm
  obtain ⟨⟨ms, hms⟩, ⟨rs, hrs⟩⟩ := args_moved hm
  obtain ⟨ms₀, hms₀, hmon⟩ := h.monitors
  obtain ⟨rs₀, hrs₀, href⟩ := h.refreshes
  refine ⟨{ t with now := t.now + d }, Lib.Path.one (a := .advance d) trivial rfl, ?_⟩
  exact {
    store := h.store.trans hstore.symm
    now := by rw [hd, ← h.now]
    job := hjob.trans h.job
    monitors := sublist_more hms₀ hms hmon
    refreshes := sublist_more hrs₀ hrs href }

/-- The tick is picked up, or raises. -/
theorem ShowsTick.turns {i : Nat} {w₀ w : Application} {t : Tick} (h : ShowsTick i w₀ w t)
    {b : Tick.Act} {job : Job Unit OddsWorker.Pc}
    (hb : Tick.act t b = some { t with job := job }) :
    ∃ t', Lib.Path Tick.act always t t'
      ∧ ShowsTick i w₀ { w with ticks := w.ticks.set i job } t' :=
  ⟨_, Lib.Path.one trivial hb,
    { h with job := getElem?_set_here h.job }⟩

/-- The tick executes a statement. -/
theorem ShowsTick.performs {i d : Nat} {w₀ w : Application} {t : Tick} (h : ShowsTick i w₀ w t)
    {pc : OddsWorker.Pc} (hp : t.job.phase = .running pc) :
    ∃ t', Lib.Path Tick.act always t t' ∧ ShowsTick i w₀
      (w.afterTick i t.job (w.now + d) (OddsWorker.step w.now (w.now + d) w.store pc)) t' := by
  let r := OddsWorker.step w.now (w.now + d) w.store pc
  have hact : Tick.act t (.perform d)
      = some (t.after d pc (OddsWorker.step t.now (t.now + d) t.store pc)) := by
    simp only [Tick.act, hp]
  rw [h.store, h.now, odds_oddsStore] at hact
  obtain ⟨ms, hms, hmon⟩ := h.monitors
  obtain ⟨rs, hrs, href⟩ := h.refreshes
  refine ⟨_, Lib.Path.one trivial hact, ?_⟩
  exact {
    store := rfl
    now := by rw [Tick.after, h.now]; rfl
    job := getElem?_set_here h.job
    monitors := ⟨ms ++ r.monitors, by
      rw [afterTick, List.map_append, map_arg_enqueue, hms, List.append_assoc],
      hmon.append (.refl _)⟩
    refreshes := ⟨rs ++ r.refreshes, by
      rw [afterTick, List.map_append, map_arg_enqueue, hrs, List.append_assoc],
      href.append (.refl _)⟩ }

/-- What a step of the application is to the tick. -/
theorem tick_moved {i : Nat} {w₀ w w' : Application} {a : Application.Act} {t : Tick}
    (h : ShowsTick i w₀ w t) (hok : TickByItself env i w a) (hm : Moved env w a w') :
    ∃ t', Lib.Path Tick.act always t t' ∧ ShowsTick i w₀ w' t' := by
  -- of the tick's own statement nothing is assumed
  have others : (∀ d, a ≠ .tick i d) → oddsStore w'.store = oddsStore w.store :=
    fun hne => hok.elim (fun ⟨d, hd⟩ => absurd hd (hne d)) fun h => h w' (act_iff.mpr hm)
  have here : ∀ {job : Job Unit OddsWorker.Pc}, w.ticks[i]? = some job → job = t.job :=
    fun hj => Option.some.inj (hj.symm.trans h.job)
  have hm' := hm
  cases hm with
  | @ticked k d job pc hj hp =>
      by_cases hk : k = i
      · subst hk
        cases here hj
        exact h.performs hp
      · exact h.waits hm' (others (by rintro d' hd; cases hd; exact hk rfl))
          (List.getElem?_set_ne hk)
  | @startedTick k job hj hlive hno =>
      by_cases hk : k = i
      · subst hk
        cases here hj
        refine h.turns (b := .start) ?_
        simp only [Tick.act, Job.start_of_live hlive hno, Option.map_some]
      · exact h.waits hm' rfl (List.getElem?_set_ne hk)
  | @raisedTick k job pc hj hp =>
      by_cases hk : k = i
      · subst hk
        cases here hj
        refine h.turns (b := .raise) ?_
        simp only [Tick.act, hp]
      · exact h.waits hm' rfl (List.getElem?_set_ne hk)
  | scheduledTick =>
      refine h.waits hm' rfl ?_
      rw [getElem?_snoc_of_some h.job, h.job]
  | _ => exact h.waits hm' (others (by simp)) rfl

/--
**The application refines `Tick`.** From the state in which a tick has been enqueued, and as
long as it is by itself, it goes the way of a run of `Tick`, over the events, the stamps and
the clock of the application.
-/
theorem application_refines_tick {i : Nat} {w₀ w : Application}
    (hi : w₀.ticks[i]? = some (Job.enqueue ()))
    (h : Lib.Path (Application.act env) (TickByItself env i) w₀ w) :
    ∃ t, Reachable Tick.act always Tick.Init t ∧ ShowsTick i w₀ w t := by
  have hreach : Reachable (Application.act env) (TickByItself env i) (fun w => w = w₀) w :=
    ⟨w₀, rfl, h⟩
  refine hreach.simulate (R := fun w t => ShowsTick i w₀ w t) ?_ ?_
  · rintro w rfl
    refine ⟨⟨oddsStore w.store, w.now, Job.enqueue (), [], [], [], fun _ => (0, 0)⟩,
      ⟨rfl, rfl, rfl⟩, ?_⟩
    exact ⟨rfl, rfl, hi, ⟨[], (List.append_nil _).symm, .refl _⟩,
      ⟨[], (List.append_nil _).symm, .refl _⟩⟩
  · intro w a w' t _ ht hok hs
    exact tick_moved ht hok (act_iff.mp hs)

/-! ## A refresh -/

/-- The part of the store that `RefreshOddsWorker` uses. -/
def refreshStore (s : Store) : Store :=
  { Store.boot with
    accounts := s.accounts, markets := s.markets, selections := s.selections, books := s.books }

/-- It uses nothing else. -/
theorem refresh_refreshStore (md5 : String → String) (same : String → String → Bool)
    (apiAccount : List Account → Option Account) (l : EventWorker.Logon)
    (answer : Option (List Betfair.MarketBook)) (eventId : Int) (s : Store)
    (pc : RefreshOddsWorker.Pc) :
    RefreshOddsWorker.step md5 same apiAccount l answer eventId (refreshStore s) pc
      = (refreshStore (RefreshOddsWorker.step md5 same apiAccount l answer eventId s pc).1,
          (RefreshOddsWorker.step md5 same apiAccount l answer eventId s pc).2) := by
  have haccounts : (refreshStore s).accounts = s.accounts := rfl
  have hmarkets : (refreshStore s).markets = s.markets := rfl
  have hselections : (refreshStore s).selections = s.selections := rfl
  cases pc with
  | login =>
      rw [RefreshOddsWorker.step, RefreshOddsWorker.step, haccounts]
      split <;> rfl
  | load =>
      rw [RefreshOddsWorker.step, RefreshOddsWorker.step, hmarkets]
      split <;> rfl
  | ask ids groups books =>
      cases groups with
      | nil => rfl
      | cons g groups =>
          cases answer with
          | none => rfl
          | some result =>
              simp only [RefreshOddsWorker.step]
              split <;> rfl
  | parse ids results groups books =>
      cases results with
      | nil => rfl
      | cons m results =>
          rw [RefreshOddsWorker.step, RefreshOddsWorker.step, hselections]
          split <;> rfl

/--
The run of the refresh at place `k` is by itself: no other step writes what it uses, and no
other attempt of the job begins.
-/
def RefreshByItself (env : Environment) (k : Nat) (w : Application) (a : Application.Act) :
    Prop :=
  (∃ x answer, a = .refresh k x answer) ∨
    a ≠ .startRefresh k ∧ a ≠ .raiseRefresh k ∧
      ∀ w', Application.act env w a = some w' → refreshStore w'.store = refreshStore w.store

/-- The request that the refresh at place `k` sends with a step. -/
def askedBy (k : Nat) (w : Application) : Application.Act → List Betfair.MarketBookRequest
  | .refresh k' _ _ =>
      if k' = k then
        match standsAt w.refreshes k with
        | some (.ask _ (m :: _) _) => [Betfair.marketBookRequest (.array m)]
        | _ => []
      else []
  | _ => []

/-- What `Asking` has of the application for that refresh, a run of `job`. -/
structure ShowsRefresh (k : Nat) (job : Job Int RefreshOddsWorker.Pc) (w : Application)
    (t : Asking) : Prop where
  store : t.store = refreshStore w.store
  job : w.refreshes[k]? = some (job.settle t.at_)

/-- Another job leaves the refresh alone. -/
theorem refresh_stays {k : Nat} {job : Job Int RefreshOddsWorker.Pc} {w w' : Application}
    {a : Application.Act} (hm : Moved env w a w') (hk : w.refreshes[k]? = some job)
    (hne : (∀ x answer, a ≠ .refresh k x answer) ∧ a ≠ .startRefresh k ∧ a ≠ .raiseRefresh k) :
    w'.refreshes[k]? = some job := by
  obtain ⟨hstep, hstart, hraise⟩ := hne
  have stays : ∀ {i : Nat} {job' : Job Int RefreshOddsWorker.Pc}, i ≠ k →
      (w.refreshes.set i job')[k]? = some job := by
    intro i job' hi
    rw [List.getElem?_set_ne hi, hk]
  cases hm with
  | ticked => exact (List.getElem?_append_left (List.getElem?_eq_some_iff.mp hk).1).trans hk
  | @startedRefresh i _ _ _ _ => exact stays (by rintro rfl; exact hstart rfl)
  | @raisedRefresh i _ _ _ _ => exact stays (by rintro rfl; exact hraise rfl)
  | @refreshed i x answer _ _ _ _ => exact stays (by rintro rfl; exact hstep x answer rfl)
  | _ => exact hk

/-- A step of the run. -/
theorem asking_own {k : Nat} {job : Job Int RefreshOddsWorker.Pc} {w w' : Application} {t : Asking}
    {x : Waits} {answer : Option (List Betfair.MarketBook)} (h : ShowsRefresh k job w t)
    (hm : Moved env w (.refresh k x answer) w') :
    ∃ t', Asking.act env.md5 env.same env.apiAccount job.arg t
        (.perform (x.logon w.now) answer) = some t'
      ∧ ShowsRefresh k job w' t'
      ∧ Asking.asked t (.perform (x.logon w.now) answer) = askedBy k w (.refresh k x answer) := by
  cases hm with
  | @refreshed _ _ _ job' pc hj hpc =>
      have hjob' : job' = job.settle t.at_ := Option.some.inj (hj.symm.trans h.job)
      subst hjob'
      have hat : t.at_ = .next pc := Job.settle_running hpc
      have hact : Asking.act env.md5 env.same env.apiAccount job.arg t
          (.perform (x.logon w.now) answer)
          = some ⟨refreshStore (RefreshOddsWorker.step env.md5 env.same env.apiAccount
              (x.logon w.now) answer job.arg w.store pc).1,
            (RefreshOddsWorker.step env.md5 env.same env.apiAccount (x.logon w.now) answer
              job.arg w.store pc).2⟩ := by
        simp only [Asking.act, hat, h.store, refresh_refreshStore]
      refine ⟨_, hact, ⟨?_, ?_⟩, ?_⟩
      · simp only [afterRefresh, Job.settle_arg]
      · have hsettle := Job.settle_settle job pc
          (RefreshOddsWorker.step env.md5 env.same env.apiAccount (x.logon w.now) answer job.arg
            w.store pc).2
        rw [← hat] at hsettle
        simp only [afterRefresh, Job.settle_arg, hsettle]
        exact getElem?_set_here hj
      · have hstands : standsAt w.refreshes k = some pc := standsAt_iff.mpr ⟨_, hj, hpc⟩
        rw [askedBy, if_pos rfl, hstands, Asking.asked, hat]
        cases pc with
        | ask ids groups books => cases groups <;> rfl
        | _ => rfl

/--
**The application refines `Asking`.** From the state in which an attempt of a refresh begins,
and as long as it is by itself, it goes the way of a run of `Asking`, and sends the same
requests.
-/
theorem application_refines_asking {k : Nat} {job : Job Int RefreshOddsWorker.Pc}
    {w₀ : Application} (hk : w₀.refreshes[k]? = some job) (hp : job.phase = .running .login)
    {l : Logged Application Betfair.MarketBookRequest}
    (h : Lib.Path (logged (Application.act env) (askedBy k))
      (fun l a => RefreshByItself env k l.state a) ⟨w₀, []⟩ l) :
    ∃ t, Reachable (logged (Asking.act env.md5 env.same env.apiAccount job.arg) Asking.asked)
        always (unobserved (Asking.Init (refreshStore w₀.store))) t
      ∧ ShowsRefresh k job l.state t.state ∧ t.log = l.log := by
  have hreach : Reachable (logged (Application.act env) (askedBy k))
      (fun l a => RefreshByItself env k l.state a) (fun l => l = ⟨w₀, []⟩) l := ⟨_, rfl, h⟩
  refine hreach.simulate
    (R := fun l (t : Logged Asking Betfair.MarketBookRequest) =>
      ShowsRefresh k job l.state t.state ∧ t.log = l.log) ?_ ?_
  · rintro l rfl
    refine ⟨⟨⟨refreshStore w₀.store, .next .login⟩, []⟩, ⟨rfl, rfl⟩, ⟨rfl, ?_⟩, rfl⟩
    rw [hk, Job.settle, ← hp]
  · rintro l a l' t - ⟨hshows, hlog⟩ hok hs
    obtain ⟨hact, hlog'⟩ := logged_eq_some.mp hs
    have hm := act_iff.mp hact
    by_cases hown : ∃ x answer, a = .refresh k x answer
    · obtain ⟨x, answer, rfl⟩ := hown
      obtain ⟨t', hact', hshows', hasked⟩ := asking_own hshows hm
      refine ⟨⟨t', t.log ++ askedBy k l.state (.refresh k x answer)⟩,
        Lib.Path.one trivial (logged_eq_some.mpr ⟨hact', by rw [hasked]⟩), hshows', ?_⟩
      rw [hlog, hlog']
    · -- another step, which sends no request of the refresh
      obtain ⟨hstart, hraise, hkeeps⟩ := hok.resolve_left hown
      have hne : ∀ x answer, a ≠ .refresh k x answer := fun x answer ha => hown ⟨x, answer, ha⟩
      have hquiet : askedBy k l.state a = [] := by
        cases a with
        | refresh k' x answer => exact if_neg (by rintro rfl; exact hne x answer rfl)
        | _ => rfl
      refine ⟨t, Lib.Path.refl t, ⟨?_, refresh_stays hm hshows.job ⟨hne, hstart, hraise⟩⟩, ?_⟩
      · rw [hkeeps _ hact, hshows.store]
      · rw [hlog', hquiet, List.append_nil, hlog]

end BetterEfisis.Proof

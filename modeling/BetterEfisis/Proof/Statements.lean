import BetterEfisis.Application

/-!
# What a statement does

Of every statement of the four workers, what it can leave in the store and where the run
goes from it, one constructor for each branch of the code that does not raise. A
statement that raises has written nothing.

The invariants about the tables and Redis are case analyses over these, and do not unfold
a `step` again.
-/

namespace BetterEfisis.Proof

open Lib Betfair

/-! ## `OddsWorker` -/

/-- What a statement of `OddsWorker` can do. -/
inductive OddsStep (now now' : Int) (s : Store) : OddsWorker.Pc → OddsWorker.Step → Prop where
  | loaded : OddsStep now now' s .load
      ⟨s, [], [], .next (.monitor (Event.startingNow s.events now))⟩
  | through : OddsStep now now' s (.monitor []) ⟨s, [], [], .next (.refreshLoad .now)⟩
  | skipped {e : Event} {rows : List Event} : e.monitored = some true →
      OddsStep now now' s (.monitor (e :: rows)) ⟨s, [], [], .next (.monitor rows)⟩
  | enqueued {e : Event} {rows : List Event} : e.monitored ≠ some true →
      OddsStep now now' s (.monitor (e :: rows)) ⟨s, [e.id], [], .next (.save e rows)⟩
  | saved {e : Event} {rows : List Event} : OddsStep now now' s (.save e rows)
      ⟨{ s with events := Event.save s.events e (OddsWorker.monitored e) }, [], [],
        .next (.monitor rows)⟩
  | selected {sc : OddsWorker.Scope} : OddsStep now now' s (.refreshLoad sc)
      ⟨s, [], [], .next (.refresh sc ((sc.load s.events now now').map Event.id))⟩
  | refreshed {sc : OddsWorker.Scope} {id : Int} {ids : List Int} :
      OddsStep now now' s (.refresh sc (id :: ids)) ⟨s, [], [id], .next (.refresh sc ids)⟩
  | lineDone {sc : OddsWorker.Scope} : OddsStep now now' s (.refresh sc []) ⟨s, [], [], sc.after⟩
  | stampGot {r : OddsWorker.Range} : OddsStep now now' s (.stampGet r)
      ⟨s, [], [], .next (.stampTest r (RedisValue.toI (s.redis r.key)))⟩
  | due {r : OddsWorker.Range} {timestamp : Int} : now - timestamp > r.value →
      OddsStep now now' s (.stampTest r timestamp) ⟨s, [], [], .next (.stampRead r)⟩
  | notDue {r : OddsWorker.Range} {timestamp : Int} : ¬ now - timestamp > r.value →
      OddsStep now now' s (.stampTest r timestamp) ⟨s, [], [], r.after⟩
  | stampTaken {r : OddsWorker.Range} : OddsStep now now' s (.stampRead r)
      ⟨s, [], [], .next (.stampSet r now)⟩
  | stamped {r : OddsWorker.Range} {stamp : Int} : OddsStep now now' s (.stampSet r stamp)
      ⟨s.redisSet r.key (.int stamp), [], [], .next (.refreshLoad (.range r))⟩

theorem odds_step (now now' : Int) (s : Store) (pc : OddsWorker.Pc) :
    OddsStep now now' s pc (OddsWorker.step now now' s pc) := by
  cases pc with
  | load => exact .loaded
  | save e rows => exact .saved
  | refreshLoad sc => exact .selected
  | stampGet r => exact .stampGot
  | stampRead r => exact .stampTaken
  | stampSet r stamp => exact .stamped
  | monitor rows =>
      cases rows with
      | nil => exact .through
      | cons e rows =>
          rw [OddsWorker.step]
          split
          · rename_i hm
            exact .skipped hm
          · rename_i hm
            exact .enqueued hm
  | refresh sc ids =>
      cases ids with
      | nil => exact .lineDone
      | cons id ids => exact .refreshed
  | stampTest r t =>
      rw [OddsWorker.step]
      split
      · rename_i hd
        exact .due hd
      · rename_i hd
        exact .notDue hd

/-- Behind a line comes the stamp of the next one, or the end. -/
theorem range_after {r : OddsWorker.Range} {pc : OddsWorker.Pc} (h : r.after = .next pc) :
    ∃ r', pc = .stampGet r' := by
  cases r <;> cases h <;> exact ⟨_, rfl⟩

theorem scope_after {sc : OddsWorker.Scope} {pc : OddsWorker.Pc} (h : sc.after = .next pc) :
    ∃ r, pc = .stampGet r := by
  cases sc with
  | now =>
      cases h
      exact ⟨_, rfl⟩
  | range r => exact range_after h

/-! ## `MonitorWEBWorker` -/

/-- What a statement of the monitor of event `id` can do. -/
inductive MonitorStep (cfg : Config) (id : Int) (body : Body) (s : Store) :
    MonitorWEBWorker.Pc → Store → Outcome MonitorWEBWorker.Pc → Prop where
  | raised {pc : MonitorWEBWorker.Pc} : MonitorStep cfg id body s pc s .raised
  | givenUp : MonitorStep cfg id body s (.waiting 200) s (.next .loadEnded)
  | waited {n : Nat} : n ≠ 200 → MonitorStep cfg id body s (.waiting n) s (.next (.waiting (n + 1)))
  | begun {n : Nat} {t : Timeline} : n ≠ 200 → body = .json t →
      MonitorStep cfg id body s (.waiting n) s (.next (.setKey t))
  | keySet {t : Timeline} : MonitorStep cfg id body s (.setKey t)
      (s.redisSet (redisKey id) .blank) (.next (.findHome t))
  | homeFound {t : Timeline} {home away : Team} {r : Runner} :
      Runner.findBy cfg.collation s.runners home.name = some r →
      MonitorStep cfg id body s (.findHome t) s (.next (.findAway home.name away.name (some r.id)))
  | homeMissing {t : Timeline} {home away : Team} :
      MonitorStep cfg id body s (.findHome t) s (.next (.createHome home.name away.name))
  | homeCreated {home away : Option String} {rs : List Runner} {r : Option Nat} :
      Runner.create s.runners home = .ok (rs, r) →
      MonitorStep cfg id body s (.createHome home away) { s with runners := rs }
        (.next (.findAway home away r))
  | awayFound {home away : Option String} {rh : Option Nat} {r : Runner} :
      Runner.findBy cfg.collation s.runners away = some r →
      MonitorStep cfg id body s (.findAway home away rh) s
        (.next (.loadInPlay ⟨home, away, rh, some r.id⟩))
  | awayMissing {home away : Option String} {rh : Option Nat} :
      MonitorStep cfg id body s (.findAway home away rh) s (.next (.createAway home away rh))
  | awayCreated {home away : Option String} {rh : Option Nat} {rs : List Runner}
      {r : Option Nat} : Runner.create s.runners away = .ok (rs, r) →
      MonitorStep cfg id body s (.createAway home away rh) { s with runners := rs }
        (.next (.loadInPlay ⟨home, away, rh, r⟩))
  | inPlayLoaded {m : MonitorWEBWorker.Match} {e : Event} : Event.lookup s.events id = some e →
      MonitorStep cfg id body s (.loadInPlay m) s (.next (.saveInPlay m e))
  | inPlaySaved {m : MonitorWEBWorker.Match} {e : Event} :
      MonitorStep cfg id body s (.saveInPlay m e)
        (s.eventUpdate cfg.updateMethod e .inPlay MonitorWEBWorker.inPlay)
        (.next (.polling m ⟨none, none⟩))
  | polled {m : MonitorWEBWorker.Match} {sc sc' : MonitorWEBWorker.Scores} {t : Timeline} :
      body = .json t → MonitorStep cfg id body s (.polling m sc) s (.next (.snapshot m sc' t))
  | cached {m : MonitorWEBWorker.Match} {sc : MonitorWEBWorker.Scores} {t : Timeline} :
      ¬ MonitorWEBWorker.isOver t = true → MonitorStep cfg id body s (.snapshot m sc t)
        (s.redisSet (redisKey id) (.json (MonitorWEBWorker.encode id m sc t)))
        (.next (.polling m sc))
  | cachedLast {m : MonitorWEBWorker.Match} {sc : MonitorWEBWorker.Scores} {t : Timeline} :
      MonitorWEBWorker.isOver t = true → MonitorStep cfg id body s (.snapshot m sc t)
        (s.redisSet (redisKey id) (.json (MonitorWEBWorker.encode id m sc t)))
        (.next (.delKey m t.updateDetails))
  | keyDeleted {m : MonitorWEBWorker.Match} {us : Option (List UpdateDetail)} :
      MonitorStep cfg id body s (.delKey m us) (s.redisDel (redisKey id))
        (.next (.importUpdates m us))
  | updatesImported {m : MonitorWEBWorker.Match} {us : List UpdateDetail} :
      MonitorStep cfg id body s (.importUpdates m (some us))
        { s with
          updates := s.updates ++ MonitorWEBWorker.updatesToDb id m.runnerHome m.runnerAway us }
        (.next .loadEnded)
  | endedLoaded {e : Event} : Event.lookup s.events id = some e →
      MonitorStep cfg id body s .loadEnded s (.next (.saveEnded e))
  | endedSaved {e : Event} : MonitorStep cfg id body s (.saveEnded e)
      (s.eventUpdate cfg.updateMethod e .ended MonitorWEBWorker.ended) .finished

theorem monitor_step (cfg : Config) (id : Int) (body : Body) (s : Store)
    (pc : MonitorWEBWorker.Pc) :
    MonitorStep cfg id body s pc (MonitorWEBWorker.step cfg id body s pc).1
      (MonitorWEBWorker.step cfg id body s pc).2 := by
  cases pc with
  | setKey t => exact .keySet
  | saveInPlay m e => exact .inPlaySaved
  | delKey m us => exact .keyDeleted
  | saveEnded e => exact .endedSaved
  | waiting n =>
      by_cases hn : n = 200
      · subst hn
        exact .givenUp
      · simp only [MonitorWEBWorker.step, if_neg hn]
        cases body with
        | empty => exact .waited hn
        | json t => exact .begun hn rfl
  | findHome t =>
      rw [MonitorWEBWorker.step]
      split
      · split
        · rename_i hr
          exact .homeFound hr
        · exact .homeMissing
      · exact .raised
  | createHome name away =>
      rw [MonitorWEBWorker.step]
      split
      · rename_i hc
        exact .homeCreated hc
      · exact .raised
  | createAway home name rh =>
      rw [MonitorWEBWorker.step]
      split
      · rename_i hc
        exact .awayCreated hc
      · exact .raised
  | findAway home away rh =>
      rw [MonitorWEBWorker.step]
      split
      · rename_i hr
        exact .awayFound hr
      · exact .awayMissing
  | loadInPlay m =>
      rw [MonitorWEBWorker.step]
      split
      · rename_i hf
        exact .inPlayLoaded (Event.find_eq_ok.mp hf)
      · exact .raised
  | loadEnded =>
      rw [MonitorWEBWorker.step]
      split
      · rename_i hf
        exact .endedLoaded (Event.find_eq_ok.mp hf)
      · exact .raised
  | polling m sc =>
      cases body with
      | empty => exact .raised
      | json t =>
          simp only [MonitorWEBWorker.step]
          split
          · exact .polled rfl
          · exact .raised
  | snapshot m sc t =>
      rw [MonitorWEBWorker.step]
      by_cases ho : MonitorWEBWorker.isOver t = true
      · rw [if_pos ho]
        exact .cachedLast ho
      · rw [if_neg ho]
        exact .cached ho
  | importUpdates m us =>
      cases us with
      | none => exact .raised
      | some us => exact .updatesImported

/-! ## `EventWorker` -/

/-- What a statement of `EventWorker` can do. -/
inductive ImportStep (env : Environment) (answers : Answers) (l : EventWorker.Logon)
    (ids : Nat → Nat) (s : Store) :
    EventWorker.Pc → Store → Outcome EventWorker.Pc → Prop where
  | raised {pc : EventWorker.Pc} : ImportStep env answers l ids s pc s .raised
  | loggedIn {t : List Account} :
      EventWorker.apiNew env.md5 env.same env.apiAccount l s.accounts = .ok t →
      ImportStep env answers l ids s .login { s with accounts := t } (.next .fetch)
  | fetched {b : Batch} : EventWorker.collect env.md5 env.parseDate answers = .ok b →
      ImportStep env answers l ids s .fetch s (.next (.importEvents b))
  | events {b : Batch} {t : List Event} : Event.importRows s.events b.events = .ok t →
      ImportStep env answers l ids s (.importEvents b) { s with events := t }
        (.next (.importMarkets b))
  | markets {b : Batch} : ImportStep env answers l ids s (.importMarkets b)
      { s with markets := Market.validation.importSaved ids s.markets b.markets }
      (.next (.importSelections b))
  | selections {b : Batch} : ImportStep env answers l ids s (.importSelections b)
      { s with selections := Selection.validation.importSaved ids s.selections b.selections }
      .finished

theorem import_step (env : Environment) (answers : Answers) (l : EventWorker.Logon)
    (ids : Nat → Nat) (s : Store) (pc : EventWorker.Pc) :
    ImportStep env answers l ids s pc
      (EventWorker.step env.md5 env.parseDate env.same env.apiAccount answers l ids s pc).1
      (EventWorker.step env.md5 env.parseDate env.same env.apiAccount answers l ids s pc).2 := by
  cases pc with
  | login =>
      rw [EventWorker.step]
      split
      · rename_i ht
        exact .loggedIn ht
      · exact .raised
  | fetch =>
      rw [EventWorker.step]
      split
      · rename_i hb
        exact .fetched hb
      · exact .raised
  | importEvents b =>
      rw [EventWorker.step]
      split
      · rename_i ht
        exact .events ht
      · exact .raised
  | importMarkets b => exact .markets
  | importSelections b => exact .selections

/-! ## `RefreshOddsWorker` -/

/-- What a statement of `RefreshOddsWorker` can do for event `id`. -/
inductive RefreshStep (env : Environment) (l : EventWorker.Logon)
    (answer : Option (List MarketBook)) (id : Int) (s : Store) :
    RefreshOddsWorker.Pc → Store → Outcome RefreshOddsWorker.Pc → Prop where
  | raised {pc : RefreshOddsWorker.Pc} : RefreshStep env l answer id s pc s .raised
  | loggedIn {t : List Account} :
      EventWorker.apiNew env.md5 env.same env.apiAccount l s.accounts = .ok t →
      RefreshStep env l answer id s .login { s with accounts := t } (.next .load)
  | loaded {ids : List String} : RefreshOddsWorker.marketArray s.markets id = .ok ids →
      RefreshStep env l answer id s .load s
        (.next (.ask ids (RefreshOddsWorker.inGroupsOf 10 ids) []))
  | asked {ids : List String} {g : List (Option String)} {groups : List (List (Option String))}
      {books : List Book} {result : List MarketBook} : answer = some result →
      RefreshStep env l answer id s (.ask ids (g :: groups) books) s
        (.next (.parse ids result groups books))
  | skipped {ids : List String} {g : List (Option String)}
      {groups : List (List (Option String))} {books : List Book} :
      RefreshStep env l answer id s (.ask ids (g :: groups) books) s (.next (.ask ids groups books))
  | parsed {ids : List String} {m : MarketBook} {results : List MarketBook}
      {groups : List (List (Option String))} {books books' : List Book} :
      parseRunners s.selections m = .ok books' →
      RefreshStep env l answer id s (.parse ids (m :: results) groups books) s
        (.next (.parse ids results groups books'))
  | parsedAll {ids : List String} {groups : List (List (Option String))} {books : List Book} :
      RefreshStep env l answer id s (.parse ids [] groups books) s (.next (.ask ids groups books))
  | imported {ids : List String} {books : List Book} :
      RefreshStep env l answer id s (.ask ids [] books) { s with books := s.books ++ books }
        .finished

theorem refresh_step (env : Environment) (l : EventWorker.Logon)
    (answer : Option (List MarketBook)) (id : Int) (s : Store) (pc : RefreshOddsWorker.Pc) :
    RefreshStep env l answer id s pc
      (RefreshOddsWorker.step env.md5 env.same env.apiAccount l answer id s pc).1
      (RefreshOddsWorker.step env.md5 env.same env.apiAccount l answer id s pc).2 := by
  cases pc with
  | login =>
      rw [RefreshOddsWorker.step]
      split
      · rename_i ht
        exact .loggedIn ht
      · exact .raised
  | load =>
      rw [RefreshOddsWorker.step]
      split
      · rename_i hm
        exact .loaded hm
      · exact .raised
  | ask ids groups books =>
      cases groups with
      | nil => exact .imported
      | cons g groups =>
          cases answer with
          | none => exact .raised
          | some result =>
              simp only [RefreshOddsWorker.step]
              split
              · exact .asked rfl
              · exact .skipped
  | parse ids results groups books =>
      cases results with
      | nil => exact .parsedAll
      | cons m results =>
          rw [RefreshOddsWorker.step]
          split
          · rename_i hb
            exact .parsed hb
          · exact .raised

end BetterEfisis.Proof

import BetterEfisis.Imports
import BetterEfisis.Lib.Sidekiq
import BetterEfisis.Worker.Refresh

/-!
# Imports and refreshes at the same time

Any number of `EventWorker` and `RefreshOddsWorker` jobs over one store, interleaved
statement by statement, each of which can fail before any of its statements. What the
endpoint answers to an `EventWorker` job is its argument, so a retry that is answered
something else is another job.

A refresh reads the markets once, and then asks for their books group by group. The
market ids it has selected stay with it, for every book of an answer is looked up under
them.
-/

namespace BetterEfisis

open Lib Betfair

namespace RefreshOddsWorker

/-- The statement `perform` executes next; `ids` is `market_array`. -/
inductive Pc where
  | login
  | load
  /-- `get_market_book` of the first of `groups`. -/
  | ask (ids : List String) (groups : List (List (Option String))) (books : List Book)
  /-- `parse_runners` of the first of `results`. -/
  | parse (ids : List String) (results : List MarketBook) (groups : List (List (Option String)))
      (books : List Book)
deriving DecidableEq, Repr

/-- The market ids a run has selected. -/
def Pc.selected : Pc → List String
  | .ask ids _ _ => ids
  | .parse ids _ _ _ => ids
  | _ => []

/-- One step of `perform(event_id)`; `answer` is that of `get_market_book`. -/
def step (md5 : String → String) (same : String → String → Bool)
    (apiAccount : List Account → Option Account) (l : EventWorker.Logon)
    (answer : Option (List MarketBook)) (eventId : Int) (s : Store) :
    Pc → Store × Outcome Pc
  | .login =>
      match EventWorker.apiNew md5 same apiAccount l s.accounts with
      | .ok t => ({ s with accounts := t }, .next .load)
      | .error _ => (s, .raised)
  | .load =>
      match marketArray s.markets eventId with
      | .ok ids => (s, .next (.ask ids (inGroupsOf 10 ids) []))
      | .error _ => (s, .raised)
  | .ask _ [] books => ({ s with books := s.books ++ books }, .finished)
  | .ask ids (_ :: groups) books =>
      match answer with
      | some result =>
          if result.length > 0 then (s, .next (.parse ids result groups books))
          else (s, .next (.ask ids groups books))
      | none => (s, .raised)
  | .parse ids [] groups books => (s, .next (.ask ids groups books))
  | .parse ids (runners :: results) groups _ =>
      match parseRunners s.selections runners with
      | .ok books => (s, .next (.parse ids results groups books))
      | .error _ => (s, .raised)

end RefreshOddsWorker

/-- The store, and the jobs of both workers. -/
structure Refreshing where
  store : Store
  /-- The `EventWorker` jobs, each with what it is answered. -/
  imports : List (Job Answers EventWorker.Pc)
  /-- The `RefreshOddsWorker` jobs, each with its event id. -/
  refreshes : List (Job Int RefreshOddsWorker.Pc)

namespace Refreshing

inductive Act where
  | enqueueImport (r : Answers)
  | startImport (i : Nat)
  /-- Job `i` executes its next statement; new rows get the primary keys `ids`. -/
  | import_ (i : Nat) (l : EventWorker.Logon) (ids : Nat → Nat)
  | raiseImport (i : Nat)
  | enqueueRefresh (eventId : Int)
  | startRefresh (k : Nat)
  /-- Job `k` executes its next statement; `answer` is what the endpoint would answer. -/
  | refresh (k : Nat) (l : EventWorker.Logon) (answer : Option (List MarketBook))
  | raiseRefresh (k : Nat)

variable (md5 : String → String) (parseDate : String → Option Int)
  (same : String → String → Bool) (apiAccount : List Account → Option Account)

/-- The system after a step of an `EventWorker` run. -/
def afterImport (w : Refreshing) (i : Nat) (job : Job Answers EventWorker.Pc)
    (r : Store × Outcome EventWorker.Pc) : Refreshing :=
  { w with store := r.1, imports := w.imports.set i (job.settle r.2) }

/-- The system after a step of a `RefreshOddsWorker` run. -/
def afterRefresh (w : Refreshing) (k : Nat) (job : Job Int RefreshOddsWorker.Pc)
    (r : Store × Outcome RefreshOddsWorker.Pc) : Refreshing :=
  { w with store := r.1, refreshes := w.refreshes.set k (job.settle r.2) }

def act (w : Refreshing) : Act → Option Refreshing
  | .enqueueImport r => some { w with imports := w.imports ++ [Job.enqueue r] }
  | .startImport i =>
      match w.imports[i]? with
      | some job => (job.start .login).map (fun j => { w with imports := w.imports.set i j })
      | none => none
  | .import_ i l ids =>
      match w.imports[i]? with
      | some job =>
          match job.phase with
          | .running pc => some (w.afterImport i job
              (EventWorker.step md5 parseDate same apiAccount job.arg l ids w.store pc))
          | _ => none
      | none => none
  | .raiseImport i =>
      match w.imports[i]? with
      | some job =>
          match job.phase with
          | .running _ => some { w with imports := w.imports.set i job.raise }
          | _ => none
      | none => none
  | .enqueueRefresh eventId => some { w with refreshes := w.refreshes ++ [Job.enqueue eventId] }
  | .startRefresh k =>
      match w.refreshes[k]? with
      | some job => (job.start .login).map (fun j => { w with refreshes := w.refreshes.set k j })
      | none => none
  | .refresh k l answer =>
      match w.refreshes[k]? with
      | some job =>
          match job.phase with
          | .running pc => some (w.afterRefresh k job
              (RefreshOddsWorker.step md5 same apiAccount l answer job.arg w.store pc))
          | _ => none
      | none => none
  | .raiseRefresh k =>
      match w.refreshes[k]? with
      | some job =>
          match job.phase with
          | .running _ => some { w with refreshes := w.refreshes.set k job.raise }
          | _ => none
      | none => none

/-- The steps of the system, one by one. -/
inductive Moved (w : Refreshing) : Act → Refreshing → Prop where
  | enqueuedImport {r : Answers} : Moved w (.enqueueImport r)
      { w with imports := w.imports ++ [Job.enqueue r] }
  | startedImport {i : Nat} {job : Job Answers EventWorker.Pc} : w.imports[i]? = some job →
      Moved w (.startImport i)
        { w with imports := w.imports.set i { job with phase := .running .login } }
  | imported {i : Nat} {lg : EventWorker.Logon} {ids : Nat → Nat}
      {job : Job Answers EventWorker.Pc} {pc : EventWorker.Pc} : w.imports[i]? = some job →
      job.phase = .running pc → Moved w (.import_ i lg ids)
        (w.afterImport i job
          (EventWorker.step md5 parseDate same apiAccount job.arg lg ids w.store pc))
  | raisedImport {i : Nat} {job : Job Answers EventWorker.Pc} : w.imports[i]? = some job →
      Moved w (.raiseImport i)
        { w with imports := w.imports.set i job.raise }
  | enqueuedRefresh {eventId : Int} : Moved w (.enqueueRefresh eventId)
      { w with refreshes := w.refreshes ++ [Job.enqueue eventId] }
  | startedRefresh {k : Nat} {job : Job Int RefreshOddsWorker.Pc} : w.refreshes[k]? = some job →
      Moved w (.startRefresh k)
        { w with refreshes := w.refreshes.set k { job with phase := .running .login } }
  | refreshed {k : Nat} {lg : EventWorker.Logon} {answer : Option (List MarketBook)}
      {job : Job Int RefreshOddsWorker.Pc} {pc : RefreshOddsWorker.Pc} :
      w.refreshes[k]? = some job → job.phase = .running pc →
      Moved w (.refresh k lg answer)
        (w.afterRefresh k job
          (RefreshOddsWorker.step md5 same apiAccount lg answer job.arg w.store pc))
  | raisedRefresh {k : Nat} {job : Job Int RefreshOddsWorker.Pc} : w.refreshes[k]? = some job →
      Moved w (.raiseRefresh k)
        { w with refreshes := w.refreshes.set k job.raise }

theorem act_cases {w w' : Refreshing} {a : Act}
    (hs : act md5 parseDate same apiAccount w a = some w') :
    Moved md5 parseDate same apiAccount w a w' := by
  cases a with
  | enqueueImport r =>
      cases hs
      exact .enqueuedImport
  | enqueueRefresh eventId =>
      cases hs
      exact .enqueuedRefresh
  | startImport i =>
      rw [act] at hs
      split at hs
      · rename_i job hj
        obtain ⟨job', hstart, rfl⟩ := Option.map_eq_some_iff.mp hs
        obtain ⟨_, _, rfl⟩ := Job.start_eq hstart
        exact .startedImport hj
      · exact absurd hs (by simp)
  | startRefresh k =>
      rw [act] at hs
      split at hs
      · rename_i job hj
        obtain ⟨job', hstart, rfl⟩ := Option.map_eq_some_iff.mp hs
        obtain ⟨_, _, rfl⟩ := Job.start_eq hstart
        exact .startedRefresh hj
      · exact absurd hs (by simp)
  | import_ i lg ids =>
      rw [act] at hs
      split at hs
      · rename_i job hj
        split at hs
        · rename_i pc hp
          cases hs
          exact .imported hj hp
        · exact absurd hs (by simp)
      · exact absurd hs (by simp)
  | refresh k lg answer =>
      rw [act] at hs
      split at hs
      · rename_i job hj
        split at hs
        · rename_i pc hp
          cases hs
          exact .refreshed hj hp
        · exact absurd hs (by simp)
      · exact absurd hs (by simp)
  | raiseImport i =>
      rw [act] at hs
      split at hs
      · rename_i job hj
        split at hs
        · cases hs
          exact .raisedImport hj
        · exact absurd hs (by simp)
      · exact absurd hs (by simp)
  | raiseRefresh k =>
      rw [act] at hs
      split at hs
      · rename_i job hj
        split at hs
        · cases hs
          exact .raisedRefresh hj
        · exact absurd hs (by simp)
      · exact absurd hs (by simp)

/-- Nothing has been imported, and there are no jobs. -/
structure Init (w : Refreshing) : Prop where
  store : Imports.Init w.store
  imports : w.imports = []
  refreshes : w.refreshes = []

/-- What an `EventWorker` run has got done of an entry. -/
inductive Note where
  /-- Its market has been handed to `Market.import`, which inserts the ones not stored. -/
  | market (x : Entry)
  /-- Its runners have been handed to `Selection.import`. -/
  | runners (x : Entry)
deriving DecidableEq, Repr

/-- What a statement of an `EventWorker` run gets done. -/
def done (r : Answers) : EventWorker.Pc → List Note
  | .importMarkets _ => (processed (r.getD [])).map Note.market
  | .importSelections _ => (processed (r.getD [])).map Note.runners
  | _ => []

/-- What a step gets done. -/
def notes (w : Refreshing) : Act → List Note
  | .import_ i _ _ =>
      match w.imports[i]? with
      | some job =>
          match job.phase with
          | .running pc => done job.arg pc
          | _ => []
      | none => []
  | _ => []

/-- The market ids that the run of job `k` has selected. -/
def selected (w : Refreshing) (k : Nat) : List String :=
  match standsAt w.refreshes k with
  | some pc => pc.selected
  | none => []

/-- The market ids that a step selects. -/
def loads (w : Refreshing) : Act → List String
  | .refresh k _ _ =>
      match w.refreshes[k]? with
      | some ⟨eventId, .running .load, _⟩ =>
          match RefreshOddsWorker.marketArray w.store.markets eventId with
          | .ok ids => ids
          | .error _ => []
      | _ => []
  | _ => []

end Refreshing

end BetterEfisis

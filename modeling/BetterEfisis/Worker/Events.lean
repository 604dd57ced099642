import BetterEfisis.Betfair.Api
import BetterEfisis.Lib.Fallible
import BetterEfisis.Lib.Pattern
import BetterEfisis.Lib.Sidekiq
import BetterEfisis.Model.Store

/-!
# `EventWorker`

`perform` logs in, fetches all listed events with their catalogues, builds the
rows, and imports events, markets and selections one after the other. Nothing but
the session is written before everything has been fetched.

`md5` is `Digest::MD5.hexdigest`, `parseDate` is `DateTime.parse` in seconds, `none`
where it raises, and `apiAccount` is `User.where(auth: 1).first.account.where(service:
'betfair').first`, `none` where there is no such user or account.
-/

namespace BetterEfisis

open Lib

/-- An entry of `listEvents`; `id` to `openDate` are those of its `event`. -/
structure ApiEvent where
  id : String
  name : Option String
  countryCode : Option String
  openDate : Option String
  marketCount : Option Int
deriving DecidableEq, Repr

/-- An entry of `runners` in a catalogue. -/
structure ApiRunner where
  selectionId : Option Int
  runnerName : Option String
  handicap : Option Rat
deriving DecidableEq, Repr

/-- An entry of `listMarketCatalogue`. -/
structure ApiMarket where
  marketId : String
  marketName : Option String
  totalMatched : Option Rat
  runners : Option (List ApiRunner)
deriving DecidableEq, Repr

/-- A listed event, and the `result` of the call for its catalogue. -/
structure Listed where
  event : ApiEvent
  catalogue : Option (List ApiMarket)
deriving DecidableEq, Repr

/-- The `result` of `get_all_events`; `none` is an answer without one. -/
abbrev Answers := Option (List Listed)

/-- The rows built by one attempt. -/
structure Batch where
  events : List Event
  markets : List Market
  selections : List Selection
deriving DecidableEq, Repr

namespace EventWorker

/-- `\s` of a pattern. -/
def patternSpace (c : Char) : Bool :=
  c == ' ' || c == '\t' || c == '\n' || c == '\r' || c == Char.ofNat 11 || c == Char.ofNat 12

/-- `/^(.*)\sv\s(.*)$/` -/
def versus : Re :=
  let line : Re := .group (.star (fun c => c != '\n'))
  .seq .lineStart (.seq line (.seq (.one patternSpace) (.seq (.one (fun c => c == 'v'))
    (.seq (.one patternSpace) (.seq line .lineEnd)))))

/-- `Hash#valid_event?`. `event_cc` is a truth value, which is never `nil`. -/
def validEvent (e : ApiEvent) : Except RubyError Bool := do
  let eventName := (versus.scan (← notNil e.name)).flatten.length
  let eventCc : Option Bool := some (decide (e.countryCode ≠ none))
  if (eventCc ≠ none ∧ eventName ≠ 2) ∨ (eventCc = none ∧ eventName ≠ 2) then return false
  else return true

variable (md5 : String → String) (parseDate : String → Option Int)

/-- `DateTime.parse`. -/
def dateTimeParse : Option String → Except RubyError Int
  | none => .error .typeError
  | some s =>
      match parseDate s with
      | some d => .ok d
      | none => .error .argumentError

/-- The row of an event. -/
def eventRow (e : ApiEvent) : Except RubyError Event := do
  return { id := toI e.id
           name := e.name
           cc := e.countryCode
           openDate := some (← dateTimeParse parseDate e.openDate)
           status := some .notStarted
           monitored := some false }

/-- The row of a market of the event with that id. -/
def marketRow (eventId : String) (m : ApiMarket) : Market where
  marketId := m.marketId
  eventId := toI eventId
  name := m.marketName
  totalMatched := m.totalMatched
  status := "unknown"

/-- The row of a selection; `nil.to_s` is empty. -/
def selectionRow (m : ApiMarket) (r : ApiRunner) : Selection where
  marketId := m.marketId
  selectionId := r.selectionId
  name := r.runnerName
  handicap := r.handicap
  uniq := md5 (m.marketId ++ (r.selectionId.map toString).getD "")

/-- The body of the loop over a catalogue. -/
def collectMarket (eventId : String) (b : Batch) (m : ApiMarket) : Except RubyError Batch := do
  let b := { b with markets := b.markets ++ [marketRow eventId m] }
  let runners ← notNil m.runners
  return runners.foldl (fun b r =>
    { b with selections := b.selections ++ [selectionRow md5 m r] }) b

/-- The body of the loop over the listed events. -/
def collectEvent (b : Batch) (l : Listed) : Except RubyError Batch := do
  if ← validEvent l.event then
    let b := { b with events := b.events ++ [← eventRow parseDate l.event] }
    if (← notNil l.event.marketCount) > 0 then
      (← notNil l.catalogue).foldlM (collectMarket md5 l.event.id) b
    else return b
  else return b

/-- Everything up to the first import. -/
def collect (r : Answers) : Except RubyError Batch := do
  (← notNil r).foldlM (collectEvent md5 parseDate) ⟨[], [], []⟩

/-- What a login reads on the clock, and what the endpoint answers it. -/
structure Logon where
  now : Int
  now' : Int
  now'' : Int
  answer : Option String
deriving DecidableEq, Repr

variable (same : String → String → Bool) (apiAccount : List Account → Option Account)

/-- `Betfair::API.new(api_account.username, api_account.password)`: the accounts it leaves. -/
def apiNew (l : Logon) (t : List Account) : Except RubyError (List Account) := do
  let account ← notNil (apiAccount t)
  let username ← notNil account.username
  let password ← notNil account.password
  let (t, _) ← Betfair.login same md5 t username password l.now l.now' l.now'' l.answer
  return t

/-- The statement `perform` executes next. -/
inductive Pc where
  | login
  | fetch
  | importEvents (b : Batch)
  | importMarkets (b : Batch)
  | importSelections (b : Batch)
deriving DecidableEq, Repr

/-- One step of `perform`; `ids` are the primary keys the database gives to new rows. -/
def step (r : Answers) (l : Logon) (ids : Nat → Nat) (s : Store) : Pc → Store × Outcome Pc
  | .login =>
      match apiNew md5 same apiAccount l s.accounts with
      | .ok t => ({ s with accounts := t }, .next .fetch)
      | .error _ => (s, .raised)
  | .fetch =>
      match collect md5 parseDate r with
      | .ok b => (s, .next (.importEvents b))
      | .error _ => (s, .raised)
  | .importEvents b =>
      match Event.importRows s.events b.events with
      | .ok t => ({ s with events := t }, .next (.importMarkets b))
      | .error _ => (s, .raised)
  | .importMarkets b =>
      ({ s with markets := Market.validation.importSaved ids s.markets b.markets },
        .next (.importSelections b))
  | .importSelections b =>
      ({ s with selections := Selection.validation.importSaved ids s.selections b.selections },
        .finished)

/-- `perform`, when nothing goes wrong on the way. -/
def perform (r : Answers) (l : Logon) (ids ids' : Nat → Nat) (s : Store) :
    Except RubyError Store := do
  let accounts ← apiNew md5 same apiAccount l s.accounts
  let b ← collect md5 parseDate r
  let events ← Event.importRows s.events b.events
  return { s with
    accounts := accounts
    events := events
    markets := Market.validation.importSaved ids s.markets b.markets
    selections := Selection.validation.importSaved ids' s.selections b.selections }

end EventWorker

end BetterEfisis

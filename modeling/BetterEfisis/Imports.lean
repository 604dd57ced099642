import BetterEfisis.Lib.Reach
import BetterEfisis.Worker.Events

/-!
# Night after night

`EventWorker` runs that complete, one after the other on one store. Every night the
endpoint answers what it likes, and the database gives new rows what keys it likes.

An `Entry` is what a run makes rows of: a market of a catalogue it has fetched, with
the id of the event the catalogue is that of.
-/

namespace BetterEfisis

open Lib EventWorker

/-- A market of a catalogue, and the event the catalogue was fetched for. -/
structure Entry where
  eventId : String
  market : ApiMarket
deriving DecidableEq, Repr

namespace Entry

/-- The row of its market. -/
def row (x : Entry) : Market := marketRow x.eventId x.market

/-- Its runners; a market without `runners` ends the run. -/
def runners (x : Entry) : List ApiRunner := x.market.runners.getD []

/-- The rows of its runners. -/
def selections (md5 : String → String) (x : Entry) : List Selection :=
  x.runners.map (selectionRow md5 x.market)

end Entry

/--
The catalogue a run fetches for a listed event: none for an invalid one, or one without
markets.
-/
def Listed.fetched (l : Listed) : List ApiMarket :=
  match validEvent l.event, l.event.marketCount with
  | .ok true, some n => if n > 0 then l.catalogue.getD [] else []
  | _, _ => []

/-- Its entries. -/
def Listed.entries (l : Listed) : List Entry := l.fetched.map (fun m => ⟨l.event.id, m⟩)

/-- The entries of all catalogues a run processes. -/
def processed (ls : List Listed) : List Entry := ls.flatMap Listed.entries

namespace Imports

/-- One run: its answers, its login, and the keys of its new markets and selections. -/
structure Night where
  answers : List Listed
  logon : Logon
  ids : Nat → Nat
  ids' : Nat → Nat

/-- A run that completes; no other is a step. -/
def act (md5 : String → String) (parseDate : String → Option Int)
    (same : String → String → Bool) (apiAccount : List Account → Option Account) (s : Store)
    (n : Night) : Option Store :=
  (perform md5 parseDate same apiAccount (some n.answers) n.logon n.ids n.ids' s).toOption

/-- Nothing has been imported yet. -/
structure Init (s : Store) : Prop where
  events : s.events = []
  markets : s.markets = []
  selections : s.selections = []

/-- The entries a run makes rows of. -/
def entries (_ : Store) (n : Night) : List Entry := processed n.answers

end Imports

end BetterEfisis

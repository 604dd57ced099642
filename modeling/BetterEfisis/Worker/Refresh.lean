import BetterEfisis.Betfair.Helpers
import BetterEfisis.Lib.Pattern
import BetterEfisis.Model.Store

/-!
# `RefreshOddsWorker`

`perform` collects the ids of the markets it wants, asks for their books ten at a
time and imports the offers. The answers of `get_market_book` are a parameter:
the answer to the `k`-th call, or `none` for one without a `result`.
-/

namespace BetterEfisis

open Lib Betfair

namespace RefreshOddsWorker

/-- `/Over\/Under [0-9].5 Goals/`; the dot is any character of a line. -/
def overUnder : Re :=
  .seq (.text "Over/Under ") (.seq (.one Char.isDigit) (.seq (.one (fun c => c != '\n'))
    (.text "5 Goals")))

/-- The two tests on the name of a market, each of which appends its id. -/
def wanted (m : Market) : Except RubyError (List String) := do
  let first := if m.name = some "Match Odds" then [m.marketId] else []
  let name ← notNil m.name
  return first ++ (if overUnder.matches name then [m.marketId] else [])

/-- `market_array`, of the markets of the event. -/
def marketArray (t : List (Saved Market)) (eventId : Int) : Except RubyError (List String) :=
  ((rows t).filter (fun m => decide (m.eventId = eventId))).foldlM
    (fun ids m => do return ids ++ (← wanted m)) []

/-- `in_groups_of(n)`: groups of `n`, the last one filled up with `nil`. -/
def inGroupsOf {α : Type} (n : Nat) (xs : List α) : List (List (Option α)) :=
  let padding := (n - xs.length % n) % n
  (xs.map some ++ List.replicate padding none).toChunks n

variable (getMarketBook : Nat → List (Option String) → Option (List MarketBook))
variable (t : List (Saved Selection))

/-- The loop over the groups, `k` of which have been asked for already. -/
def collect (k : Nat) (books : List Book) :
    List (List (Option String)) → Except RubyError (List Book)
  | [] => .ok books
  | m :: groups => do
      let result ← notNil (getMarketBook k m)
      let books ←
        if result.length > 0 then
          result.foldlM (fun _ runners => parseRunners t runners) books
        else pure books
      collect (k + 1) books groups

/-- The books `perform` hands to `Book.import`. -/
def booksToImport (s : Store) (eventId : Int) : Except RubyError (List Book) := do
  let ids ← marketArray s.markets eventId
  collect getMarketBook s.selections 0 [] (inGroupsOf 10 ids)

/-- `perform(event_id)`. -/
def perform (s : Store) (eventId : Int) : Except RubyError Store := do
  let books ← booksToImport getMarketBook s eventId
  return { s with books := s.books ++ books }

end RefreshOddsWorker

end BetterEfisis

import BetterEfisis.Lib.Fallible
import BetterEfisis.Model.Store
import Mathlib.Data.List.Infix

/-!
# `B91Worker`

The scan of the snapshots at the head of `perform`. It goes through what
`$redis.keys` answers, which is the keys, and looks the fields up in those.
-/

namespace BetterEfisis

open Lib

/-- What the scan reads and computes. -/
inductive Value where
  | nil
  | text (s : String)
  | int (n : Int)
deriving DecidableEq, Repr

namespace Value

/-- `value >= n`. -/
def atLeast (n : Int) : Value → Except RubyError Bool
  | .nil => .error .noMethodError
  | .text _ => .error .argumentError
  | .int m => .ok (decide (n ≤ m))

/-- `value + value'`. -/
def plus : Value → Value → Except RubyError Value
  | .nil, _ => .error .noMethodError
  | .text s, .text s' => .ok (.text (s ++ s'))
  | .int n, .int n' => .ok (.int (n + n'))
  | _, _ => .error .typeError

end Value

namespace B91Worker

/-- An entry of `event_array`. -/
structure Candidate where
  id : Value
  homeId : Value
  awayId : Value
  homeScore : Value
  awayScore : Value
  totalScore : Value
deriving DecidableEq, Repr

/-- The keys that match `event-web-monitor*`. -/
def isMonitorKey (k : String) : Bool := "event-web-monitor".toList.isPrefixOf k.toList

/-- `k[field]` of a string: the field itself where it occurs in `k`. -/
def field (k name : String) : Value :=
  if name.toList <:+: k.toList then .text name else .nil

/-- The body of the loop over the keys. -/
def pick (k : String) : Except RubyError (List Candidate) := do
  if ← (field k "time_elapsed").atLeast 90 then
    return [{ id := field k "id"
              homeId := field k "runner_name"
              awayId := field k "runner_name"
              homeScore := field k "home_score"
              awayScore := field k "away_score"
              totalScore := ← (field k "home_score").plus (field k "away_score") }]
  else return []

/-- `event_array` behind the loop. -/
def scan (keys : List String) : Except RubyError (List Candidate) :=
  keys.foldlM (fun eventArray k => do return eventArray ++ (← pick k)) []

/--
`"Over/Under #{total_score} Goals"`, where `total_score` is the sum of the two scores
plus 0.5.
-/
def marketName (totalScore : Nat) : String := "Over/Under " ++ toString totalScore ++ ".5 Goals"

end B91Worker

end BetterEfisis

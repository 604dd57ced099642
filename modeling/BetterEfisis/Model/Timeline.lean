import BetterEfisis.Model.Tables

/-!
# The in-play feed, and what is kept of it in Redis

The answers of `Betfair::API_WEB.get_event_timeline` as far as the monitor reads
them, the snapshot it stores under the event's key, and the values Redis holds.
A key missing in the JSON reads as `nil`, hence the options.
-/

namespace BetterEfisis

/-- `score.home` and `score.away`. -/
structure Team where
  name : Option String
  score : Option Int
deriving DecidableEq, Repr

/-- `score`. -/
structure Score where
  home : Option Team
  away : Option Team
deriving DecidableEq, Repr

/-- An entry of `updateDetails`. -/
structure UpdateDetail where
  matchTime : Option Int
  type : Option String
  team : Option String
deriving DecidableEq, Repr

/-- A body that is not empty. -/
structure Timeline where
  score : Option Score
  updateDetails : Option (List UpdateDetail)
  timeElapsed : Option Int
  status : Option String
  inPlayMatchStatus : Option String
deriving DecidableEq, Repr

/-- `response.body`: of size 0, or a timeline. -/
inductive Body where
  | empty
  | json (t : Timeline)
deriving DecidableEq, Repr

/-- The hash the monitor encodes after every poll. -/
structure Snapshot where
  id : Int
  homeName : Option String
  homeScore : Option Int
  runnerHome : Option Nat
  awayName : Option String
  awayScore : Option Int
  runnerAway : Option Nat
  matchStatus : Option String
  timeElapsed : Option Int
  updates : Option (List UpdateDetail)
deriving DecidableEq, Repr

/-- What a Redis key holds: the empty text that `set(key, nil)` leaves, a number, or a snapshot. -/
inductive RedisValue where
  | blank
  | int (n : Int)
  | json (s : Snapshot)
deriving DecidableEq, Repr

/-- `$redis.get(key).to_i`: 0 for a missing key and for a text that is no number. -/
def RedisValue.toI : Option RedisValue → Int
  | some (.int n) => n
  | _ => 0

/-- `"event-web-monitor-#{id}"`. -/
def redisKey (id : Int) : String := "event-web-monitor-" ++ toString id

end BetterEfisis

import BetterEfisis.Model.Account
import BetterEfisis.Model.Event
import BetterEfisis.Model.Timeline

/-!
# What the workers share

The tables and Redis. Every worker is a function, or a step of one, from a
store to a store.
-/

namespace BetterEfisis

open Lib

/-- The database and Redis. -/
structure Store where
  accounts : List Account
  events : List Event
  markets : List (Saved Market)
  selections : List (Saved Selection)
  books : List Book
  runners : List Runner
  updates : List Update
  redis : String → Option RedisValue
  /-- Ghost: the statuses `Event.update` has written, with the event, oldest first. -/
  statusLog : List (Int × Status)

namespace Store

/-- `$redis.set`. -/
def redisSet (s : Store) (key : String) (v : RedisValue) : Store :=
  { s with redis := fun k => if k = key then some v else s.redis k }

/-- `$redis.del`. -/
def redisDel (s : Store) (key : String) : Store :=
  { s with redis := fun k => if k = key then none else s.redis k }

/-- Empty tables, and the four throttle stamps the Redis initializer sets to 0. -/
def boot : Store where
  accounts := []
  events := []
  markets := []
  selections := []
  books := []
  runners := []
  updates := []
  redis := fun k =>
    if k = "soon" ∨ k = "later" ∨ k = "tomorow" ∨ k = "someday" then some (.int 0) else none
  statusLog := []

@[simp] theorem redisSet_self (s : Store) (key : String) (v : RedisValue) :
    (s.redisSet key v).redis key = some v := by simp [redisSet]

@[simp] theorem redisDel_self (s : Store) (key : String) : (s.redisDel key).redis key = none := by
  simp [redisDel]

@[simp] theorem redisSet_events (s : Store) (key : String) (v : RedisValue) :
    (s.redisSet key v).events = s.events := rfl

@[simp] theorem redisDel_events (s : Store) (key : String) :
    (s.redisDel key).events = s.events := rfl

@[simp] theorem redisSet_updates (s : Store) (key : String) (v : RedisValue) :
    (s.redisSet key v).updates = s.updates := rfl

@[simp] theorem redisDel_updates (s : Store) (key : String) :
    (s.redisDel key).updates = s.updates := rfl

@[simp] theorem redisSet_statusLog (s : Store) (key : String) (v : RedisValue) :
    (s.redisSet key v).statusLog = s.statusLog := rfl

@[simp] theorem redisDel_statusLog (s : Store) (key : String) :
    (s.redisDel key).statusLog = s.statusLog := rfl

/--
The write of `Event.update(id, attributes)` on the copy `find` loaded. `status` is
the one among the attributes, noted in the ghost log when the row was written.
-/
def eventUpdate (m : Event.UpdateMethod) (s : Store) (loaded : Event) (status : Status)
    (attributes : Event → Event) : Store :=
  { s with
    events := Event.update m s.events loaded attributes
    statusLog :=
      if m = .persistence ∧ (attributes loaded).presentFields = true then
        s.statusLog ++ [(loaded.id, status)]
      else s.statusLog }

@[simp] theorem eventUpdate_redis (m : Event.UpdateMethod) (s : Store) (loaded : Event)
    (status : Status) (attributes : Event → Event) :
    (s.eventUpdate m loaded status attributes).redis = s.redis := rfl

@[simp] theorem eventUpdate_updates (m : Event.UpdateMethod) (s : Store) (loaded : Event)
    (status : Status) (attributes : Event → Event) :
    (s.eventUpdate m loaded status attributes).updates = s.updates := rfl

end Store

end BetterEfisis

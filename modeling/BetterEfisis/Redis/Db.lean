import BetterEfisis.Redis.Iterator
import BetterEfisis.Redis.Glob

/-!
# The key space of the Redis server (`db.c`, `t_string.c`)

A database is two dictionaries: the values, and the times at which keys expire. A key
that is out of date is removed when a command looks at it, or when the cron of the server
comes across it. `none` is a failed assertion, as in the dictionaries.

The clock is read each time the source calls `mstime`, so it may go on in the middle of a
command: `ticks` says how far it goes before each of the next readings. A command is the
function of the source with its arguments, which are strings; there is no script and no
child process. Not in the model are replication, notifications and statistics.

Expiry times are of type `long long`. C does not define what a sum is that leaves its
range; here, as in the compiled server, it wraps round (`longLong`).
-/

namespace BetterEfisis.Redis

/-- `robj`: a string, or what the commands of other types have stored. -/
inductive Robj (π : Type) where
  | string (ptr : Sds)
  | other (ptr : π)
  deriving DecidableEq

/-- `redisDb`, and the parts of `redisServer` its functions look at. -/
structure Server (π : Type) where
  dict : Dict Sds (Robj π)
  expires : Dict Sds Int
  /-- `dict_can_resize`. -/
  canResize : Bool
  loading : Bool
  /-- Whether `masterhost` is set: the server is a slave. -/
  masterhost : Bool
  /-- The clock when it was last read, in milliseconds. -/
  now : Nat
  ticks : List Nat
  deriving DecidableEq

/-- What a client is sent. -/
inductive Reply where
  | ok
  | nullbulk
  | bulk (ptr : Sds)
  | integer (n : Int)
  | multi (bulks : List Sds)
  | error (text : String)
  deriving DecidableEq

def Reply.czero : Reply := .integer 0

def Reply.cone : Reply := .integer 1

def Reply.syntaxerr : Reply := .error "ERR syntax error"

def Reply.wrongtypeerr : Reply :=
  .error "WRONGTYPE Operation against a key holding the wrong kind of value"

def Reply.nokeyerr : Reply := .error "ERR no such key"

def Reply.sameobjecterr : Reply := .error "ERR source and destination objects are the same"

/-! ## Numbers -/

/-- What a `long long` holds of a number. -/
def longLong (n : Int) : Int := n.bmod (2 ^ 64)

def isdigit (b : UInt8) : Bool := decide (48 ≤ b ∧ b ≤ 57)

def isspace (b : UInt8) : Bool := decide (b = 32 ∨ 9 ≤ b ∧ b ≤ 13)

/--
`strtoll` in base 10, of a text that does not begin with a space: the number and where it
ends, or `none` for one that is out of range.
-/
def strtoll (s : Sds) : Option (Int × Sds) :=
  let (negative, digits) := match s with
    | 45 :: t => (true, t)
    | 43 :: t => (false, t)
    | t => (false, t)
  if (digits.takeWhile isdigit).isEmpty then some (0, s)
  else
    let n : Nat := (digits.takeWhile isdigit).foldl (fun n b => n * 10 + (b.toNat - 48)) 0
    let v : Int := if negative then -n else n
    if -2 ^ 63 ≤ v ∧ v < 2 ^ 63 then some (v, digits.dropWhile isdigit) else none

/-- `getLongLongFromObject`: a C string, so it ends at the first 0. -/
def getLongLongFromObject (o : Sds) : Option Int :=
  if o.head?.any isspace then none
  else
    match strtoll o with
    | none => none
    | some (value, eptr) => if eptr.headD 0 = 0 then some value else none

/-- The reply of `getLongLongFromObjectOrReply` to what is no number. -/
def Reply.notInteger : Reply := .error "ERR value is not an integer or out of range"

variable {π : Type}

/-- `mstime`. -/
def mstime (s : Server π) : Nat × Server π :=
  match s.ticks with
  | [] => (s.now, s)
  | n :: ticks => (s.now + n, { s with now := s.now + n, ticks := ticks })

section Db

variable (hash : Sds → UInt32)

/-! ## The functions over a database -/

/-- `lookupKey`. -/
def lookupKey (s : Server π) (key : Sds) : Option (Option (Robj π) × Server π) := do
  let (val, dict) ← dictFind hash s.dict key
  some (val, { s with dict := dict })

/-- `getExpire`. -/
def getExpire (s : Server π) (key : Sds) : Option (Int × Server π) :=
  if s.expires.size = 0 then some (-1, s)
  else do
    let (when?, expires) ← dictFind hash s.expires key
    match when? with
    | none => some (-1, { s with expires := expires })
    | some when => do
        let (de, dict) ← dictFind hash s.dict key
        if de.isSome then some (when, { s with dict := dict, expires := expires }) else none

/-- `dbDelete`. -/
def dbDelete (s : Server π) (key : Sds) : Option (Bool × Server π) := do
  let expires ← if s.expires.size > 0 then
      (dictGenericDelete hash s.expires key).map Prod.snd
    else some s.expires
  let (deleted, dict) ← dictGenericDelete hash s.dict key
  some (deleted, { s with dict := dict, expires := expires })

/-- `expireIfNeeded`. -/
def expireIfNeeded (s : Server π) (key : Sds) : Option (Bool × Server π) := do
  let (when, s) ← getExpire hash s key
  if when < 0 then some (false, s)
  else if s.loading then some (false, s)
  else
    let (now, s) := mstime s
    -- a slave waits for its master to delete the key
    if s.masterhost then some (decide ((now : Int) > when), s)
    else if (now : Int) ≤ when then some (false, s)
    else dbDelete hash s key

/-- `lookupKeyWrite`. -/
def lookupKeyWrite (s : Server π) (key : Sds) : Option (Option (Robj π) × Server π) := do
  let (_, s) ← expireIfNeeded hash s key
  lookupKey hash s key

/-- `lookupKeyRead`: the same, but for the statistics. -/
abbrev lookupKeyRead (s : Server π) (key : Sds) : Option (Option (Robj π) × Server π) :=
  lookupKeyWrite hash s key

/-- `dbAdd`. -/
def dbAdd (s : Server π) (key : Sds) (val : Robj π) : Option (Server π) := do
  let (added, dict) ← dictAdd hash s.canResize s.dict key val
  if added then some { s with dict := dict } else none

/-- `dbOverwrite`. -/
def dbOverwrite (s : Server π) (key : Sds) (val : Robj π) : Option (Server π) := do
  let (de, dict) ← dictFind hash s.dict key
  if de.isSome then do
    let (_, dict) ← dictReplace hash s.canResize dict key val
    some { s with dict := dict }
  else none

/-- `removeExpire`. -/
def removeExpire (s : Server π) (key : Sds) : Option (Bool × Server π) := do
  let (de, dict) ← dictFind hash s.dict key
  if de.isSome then do
    let (removed, expires) ← dictGenericDelete hash s.expires key
    some (removed, { s with dict := dict, expires := expires })
  else none

/-- `setExpire`. -/
def setExpire (s : Server π) (key : Sds) (when : Int) : Option (Server π) := do
  let (kde, dict) ← dictFind hash s.dict key
  if kde.isSome then do
    let expires ← dictReplaceRaw hash s.canResize s.expires key when
    some { s with dict := dict, expires := expires }
  else none

/-- `setKey`. -/
def setKey (s : Server π) (key : Sds) (val : Robj π) : Option (Server π) := do
  let (o, s) ← lookupKeyWrite hash s key
  let s ← match o with
    | none => dbAdd hash s key val
    | some _ => dbOverwrite hash s key val
  let (_, s) ← removeExpire hash s key
  some s

/-! ## The commands -/

/-- The options of `SET`. -/
structure SetOptions where
  nx : Bool
  xx : Bool
  expire : Option Sds
  /-- Whether the unit is milliseconds. -/
  ms : Bool

/-- Whether an argument is a word of two letters, given in lower case. -/
def isWord (x y : UInt8) (a : Sds) : Bool :=
  decide ((a.getD 0 0 = x ∨ a.getD 0 0 = x - 32) ∧ (a.getD 1 0 = y ∨ a.getD 1 0 = y - 32) ∧
    a.getD 2 0 = 0)

/-- The loop of `setCommand` over its options. -/
def setOptions : List Sds → SetOptions → Option SetOptions
  | [], o => some o
  | a :: rest, o =>
      if isWord 110 120 a then setOptions rest { o with nx := true }
      else if isWord 120 120 a then setOptions rest { o with xx := true }
      else
        match rest with
        | [] => none
        | next :: rest =>
            if isWord 101 120 a then setOptions rest { o with expire := some next, ms := false }
            else if isWord 112 120 a then setOptions rest { o with expire := some next, ms := true }
            else none

/-- What `setGenericCommand` makes of its `expire`: milliseconds, or the error it replies. -/
def setMilliseconds (o : SetOptions) : Except Reply (Option Int) :=
  match o.expire with
  | none => .ok none
  | some expire =>
      match getLongLongFromObject expire with
      | none => .error Reply.notInteger
      | some milliseconds =>
          if milliseconds ≤ 0 then .error (.error "ERR invalid expire time in SETEX")
          else .ok (some (if o.ms then milliseconds else longLong (milliseconds * 1000)))

/-- Whether `NX` or `XX` keep `setGenericCommand` from setting the key. -/
def setAborts (s : Server π) (o : SetOptions) (key : Sds) : Option (Bool × Server π) := do
  let (stop, s) ← if o.nx then do
      let (val, s) ← lookupKeyWrite hash s key
      some (val.isSome, s)
    else some (false, s)
  if stop then some (true, s)
  else if o.xx then do
    let (val, s) ← lookupKeyWrite hash s key
    some (val.isNone, s)
  else some (false, s)

/-- `setGenericCommand`. -/
def setGenericCommand (s : Server π) (o : SetOptions) (key val : Sds)
    (okReply abortReply : Reply) : Option (Reply × Server π) :=
  match setMilliseconds o with
  | .error e => some (e, s)
  | .ok milliseconds => do
      let (aborts, s) ← setAborts hash s o key
      if aborts then some (abortReply, s)
      else do
        let s ← setKey hash s key (.string val)
        match milliseconds with
        | none => some (okReply, s)
        | some milliseconds => do
            let (now, s) := mstime s
            let s ← setExpire hash s key (longLong (now + milliseconds))
            some (okReply, s)

/-- `setCommand`. -/
def setCommand (s : Server π) (key val : Sds) (opts : List Sds) : Option (Reply × Server π) :=
  match setOptions opts ⟨false, false, none, false⟩ with
  | none => some (Reply.syntaxerr, s)
  | some o => setGenericCommand hash s o key val .ok .nullbulk

/-- What `getGenericCommand` replies to a value. -/
def getReply : Option (Robj π) → Reply
  | none => .nullbulk
  | some (.string ptr) => .bulk ptr
  | some (.other _) => Reply.wrongtypeerr

/-- `getGenericCommand`. -/
def getGenericCommand (s : Server π) (key : Sds) : Option (Reply × Server π) := do
  let (o, s) ← lookupKeyRead hash s key
  some (getReply o, s)

/-- `getsetCommand`. -/
def getsetCommand (s : Server π) (key val : Sds) : Option (Reply × Server π) := do
  let (reply, s) ← getGenericCommand hash s key
  if reply = Reply.wrongtypeerr then some (reply, s)
  else do
    let s ← setKey hash s key (.string val)
    some (reply, s)

/-- The loop of `delCommand`. -/
def delLoop : List Sds → Server π → Nat → Option (Nat × Server π)
  | [], s, deleted => some (deleted, s)
  | key :: keys, s, deleted => do
      let (found, s) ← dbDelete hash s key
      delLoop keys s (if found then deleted + 1 else deleted)

/-- `delCommand`. -/
def delCommand (s : Server π) (keys : List Sds) : Option (Reply × Server π) := do
  let (deleted, s) ← delLoop hash keys s 0
  some (.integer deleted, s)

/-- `existsCommand`. -/
def existsCommand (s : Server π) (key : Sds) : Option (Reply × Server π) := do
  let (_, s) ← expireIfNeeded hash s key
  let (de, dict) ← dictFind hash s.dict key
  some (if de.isSome then Reply.cone else Reply.czero, { s with dict := dict })

/-- The `allkeys` of `keysCommand`. -/
def allkeys (pattern : Sds) : Bool := decide (pattern.head? = some 42 ∧ pattern.getD 1 0 = 0)

/-- Whether `keysCommand` takes a key. -/
def keyMatches (pattern key : Sds) : Option Bool :=
  if allkeys pattern then some true else stringmatch pattern key

/-- The loop of `keysCommand`: what it replies, and the iterator when it is over. -/
def keysLoop (pattern : Sds) : Nat → Server π → DictIterator Sds → List Sds →
    Option (List Sds × DictIterator Sds × Server π)
  | 0, _, _, _ => none
  | fuel + 1, s, di, bulks => do
      let (de, di, dict) ← dictNext s.dict di
      let s := { s with dict := dict }
      match de with
      | none => some (bulks, di, s)
      | some de => do
          let matching ← keyMatches pattern de.1
          if matching then do
            let (expired, s) ← expireIfNeeded hash s de.1
            keysLoop pattern fuel s di (if expired then bulks else bulks ++ [de.1])
          else keysLoop pattern fuel s di bulks

/-- `keysCommand`; there is a round for every entry and one for the end. -/
def keysCommand (s : Server π) (pattern : Sds) : Option (Reply × Server π) := do
  let (bulks, di, s) ← keysLoop hash pattern (s.dict.size + 1) s dictGetSafeIterator []
  some (.multi bulks, { s with dict := dictReleaseIterator s.dict di })

/-- `expireGenericCommand`. -/
def expireGenericCommand (s : Server π) (basetime : Nat) (seconds : Bool) (key param : Sds) :
    Option (Reply × Server π) :=
  match getLongLongFromObject param with
  | none => some (Reply.notInteger, s)
  | some when => do
      let when := if seconds then longLong (when * 1000) else when
      let when := longLong (when + basetime)
      let (o, s) ← lookupKeyRead hash s key
      match o with
      | none => some (Reply.czero, s)
      | some _ =>
          let (now, s) := mstime s
          if when ≤ now ∧ s.loading = false ∧ s.masterhost = false then do
            let (deleted, s) ← dbDelete hash s key
            if deleted then some (Reply.cone, s) else none
          else do
            let s ← setExpire hash s key when
            some (Reply.cone, s)

/-- The four commands of `expireGenericCommand`. -/
structure ExpireUnit where
  seconds : Bool
  /-- Whether the time is counted from now on. -/
  relative : Bool

def expireCommand (s : Server π) (u : ExpireUnit) (key param : Sds) : Option (Reply × Server π) :=
  if u.relative then
    let (now, s) := mstime s
    expireGenericCommand hash s now u.seconds key param
  else expireGenericCommand hash s 0 u.seconds key param

/-- What `ttlGenericCommand` makes of the time left. -/
def ttlReply (outputMs : Bool) (ttl : Int) : Reply :=
  .integer (if outputMs then ttl else (longLong (ttl + 500)).tdiv 1000)

/-- `ttlGenericCommand`. -/
def ttlGenericCommand (s : Server π) (outputMs : Bool) (key : Sds) :
    Option (Reply × Server π) := do
  let (o, s) ← lookupKeyRead hash s key
  match o with
  | none => some (.integer (-2), s)
  | some _ => do
      let (expire, s) ← getExpire hash s key
      if expire = -1 then some (.integer (-1), s)
      else
        let (now, s) := mstime s
        some (ttlReply outputMs (max (longLong (expire - now)) 0), s)

/-- `persistCommand`. -/
def persistCommand (s : Server π) (key : Sds) : Option (Reply × Server π) := do
  let (de, dict) ← dictFind hash s.dict key
  let s := { s with dict := dict }
  if de.isSome then do
    let (removed, s) ← removeExpire hash s key
    some (if removed then Reply.cone else Reply.czero, s)
  else some (Reply.czero, s)

/-- What is at the new key of `renameGenericCommand`, deleted. -/
def renameClear (s : Server π) (there : Bool) (newkey : Sds) : Option (Server π) :=
  if there then (dbDelete hash s newkey).map Prod.snd else some s

/-- Its deadline, if there is one to take over. -/
def renameExpire (s : Server π) (newkey : Sds) (expire : Int) : Option (Server π) :=
  if expire = -1 then some s else setExpire hash s newkey expire

/-- `renameGenericCommand`. -/
def renameGenericCommand (s : Server π) (nx : Bool) (key newkey : Sds) :
    Option (Reply × Server π) :=
  if key = newkey then some (Reply.sameobjecterr, s)
  else do
    let (o, s) ← lookupKeyWrite hash s key
    match o with
    | none => some (Reply.nokeyerr, s)
    | some o => do
        let (expire, s) ← getExpire hash s key
        let (there, s) ← lookupKeyWrite hash s newkey
        if there.isSome ∧ nx then some (Reply.czero, s)
        else do
          let s ← renameClear hash s there.isSome newkey
          let s ← dbAdd hash s newkey o
          let s ← renameExpire hash s newkey expire
          let (_, s) ← dbDelete hash s key
          some (if nx then Reply.cone else .ok, s)

/-- `flushdbCommand`. -/
def flushdbCommand (s : Server π) : Reply × Server π :=
  (.ok, { s with dict := dictEmpty s.dict, expires := dictEmpty s.expires })

/-- A command with its arguments. -/
inductive Command where
  | get (key : Sds)
  | set (key val : Sds) (opts : List Sds)
  | setnx (key val : Sds)
  | setex (ms : Bool) (key expire val : Sds)
  | getset (key val : Sds)
  | del (keys : List Sds)
  | exists (key : Sds)
  | keys (pattern : Sds)
  | expire (u : ExpireUnit) (key param : Sds)
  | ttl (ms : Bool) (key : Sds)
  | persist (key : Sds)
  | rename (nx : Bool) (key newkey : Sds)
  | flushdb

/-- The function of a command. -/
def call (s : Server π) : Command → Option (Reply × Server π)
  | .get key => getGenericCommand hash s key
  | .set key val opts => setCommand hash s key val opts
  | .setnx key val =>
      setGenericCommand hash s ⟨true, false, none, false⟩ key val Reply.cone Reply.czero
  | .setex ms key expire val =>
      setGenericCommand hash s ⟨false, false, some expire, ms⟩ key val .ok .nullbulk
  | .getset key val => getsetCommand hash s key val
  | .del keys => delCommand hash s keys
  | .exists key => existsCommand hash s key
  | .keys pattern => keysCommand hash s pattern
  | .expire u key param => expireCommand hash s u key param
  | .ttl ms key => ttlGenericCommand hash s ms key
  | .persist key => persistCommand hash s key
  | .rename nx key newkey => renameGenericCommand hash s nx key newkey
  | .flushdb => some (flushdbCommand s)

/-! ## The cron of the server -/

/-- `activeExpireCycleTryExpire`. -/
def activeExpireCycleTryExpire (s : Server π) (de : DictEntry Sds Int) (now : Nat) :
    Option (Bool × Server π) :=
  if (now : Int) > de.2 then do
    let (_, s) ← dbDelete hash s de.1
    some (true, s)
  else some (false, s)

/-- A round of `activeExpireCycle` that looks at a key. -/
def activeExpireCycle (s : Server π) (pick : Nat) : Option (Server π) := do
  let (now, s) := mstime s
  let (de, expires) ← dictGetRandomKey hash s.expires pick
  let s := { s with expires := expires }
  match de with
  | none => some s
  | some de => do
      let (_, s) ← activeExpireCycleTryExpire hash s de now
      some s

/-- `htNeedsResize`. -/
def htNeedsResize {ν : Type} (d : Dict Sds ν) : Bool :=
  let size := d.ht0.size + d.ht1.size
  decide (size ≠ 0 ∧ d.size ≠ 0 ∧ size > DICT_HT_INITIAL_SIZE ∧ d.size * 100 / size < 10)

/-- `tryResizeHashTables`. -/
def tryResizeHashTables (s : Server π) : Server π :=
  let dict := if htNeedsResize s.dict then (dictResize s.canResize s.dict).2 else s.dict
  let expires := if htNeedsResize s.expires then (dictResize s.canResize s.expires).2 else s.expires
  { s with dict := dict, expires := expires }

/-- `incrementallyRehash`. -/
def incrementallyRehash (s : Server π) (rounds : Nat) : Option (Server π) :=
  if s.dict.isRehashing then do
    let dict ← dictRehashMilliseconds hash rounds s.dict
    some { s with dict := dict }
  else if s.expires.isRehashing then do
    let expires ← dictRehashMilliseconds hash rounds s.expires
    some { s with expires := expires }
  else some s

/-- What happens to a server: a command comes, or something of the cron is done. -/
inductive ServerEvent where
  | command (c : Command)
  | activeExpire (pick : Nat)
  | resize
  | rehash (rounds : Nat)
  /-- `updateDictResizePolicy`: a child process begins or ends. -/
  | resizePolicy (enable : Bool)

/-- An event, and how far the clock goes before and during it. -/
def serverStep (s : Server π) (ticks : List Nat) : ServerEvent → Option (Option Reply × Server π)
  | .command c => do
      let (reply, s) ← call hash { s with ticks := ticks } c
      some (some reply, s)
  | .activeExpire pick => do
      let s ← activeExpireCycle hash { s with ticks := ticks } pick
      some (none, s)
  | .resize => some (none, tryResizeHashTables s)
  | .rehash rounds => do
      let s ← incrementallyRehash hash s rounds
      some (none, s)
  | .resizePolicy enable => some (none, { s with canResize := enable })

/-- Events one after the other, with the replies. -/
def serverRun : Server π → List (List Nat × ServerEvent) →
    Option (List (Option Reply) × Server π)
  | s, [] => some ([], s)
  | s, (ticks, e) :: events => do
      let (reply, s) ← serverStep hash s ticks e
      let (replies, s) ← serverRun s events
      some (reply :: replies, s)

end Db

end BetterEfisis.Redis

import BetterEfisis.Ruby

/-!
# `Account`

The accounts table in the order of its ids, so that the place of a row in the
list stands for its id and `first` is the row found first. `md5` is
`Digest::MD5.hexdigest`, and `same` how the database compares a text column with a text
in a query. A digest has no letters that come in two cases, and the uniqueness of `uniq`
is validated by exact comparison.
-/

namespace BetterEfisis

/-- A row of `accounts`. `time` is in seconds, `ssoid` the session token. -/
structure Account where
  username : Option String
  password : Option String
  service : Option String
  uniq : Option String
  ssoid : Option String
  time : Option Int
deriving DecidableEq, Repr

namespace Account

variable (same : String → String → Bool) (md5 : String → String)

/-- The digest of the three fields one after the other, as `before_save` computes it. -/
def digest (a : Account) : String :=
  md5 (a.username.getD "" ++ a.password.getD "" ++ a.service.getD "")

/-- `validates_presence_of` for the three fields. -/
def presentFields (a : Account) : Bool :=
  presentText a.username && presentText a.password && presentText a.service

/-- `validates_uniqueness_of :uniq` against `others`, on the value the record has now. -/
def uniqFree (others : List Account) (a : Account) : Bool :=
  !others.any (fun b => decide (b.uniq = a.uniq))

/-- `before_save`. -/
def beforeSave (a : Account) : Account := { a with uniq := some (a.digest md5) }

/-- `Account.new`: no `uniq` yet, and no session. -/
def new (username password service : Option String) : Account :=
  ⟨username, password, service, none, none, none⟩

/-- `Account.create`. The record is validated before it has a `uniq`. -/
def create (t : List Account) (username password service : Option String) : List Account :=
  let a := new username password service
  if a.presentFields && a.uniqFree t then t ++ [a.beforeSave md5] else t

/-- `save` of the stored record at place `i`, whose fields are now those of `a`. -/
def save (t : List Account) (i : Nat) (a : Account) : List Account :=
  if a.presentFields && a.uniqFree (t.eraseIdx i) then t.set i (a.beforeSave md5) else t

/-- `betfair_by_creds`, as a test on a row. -/
def hasCreds (username password : String) (a : Account) : Bool :=
  a.username.any (fun s => same s username) && a.password.any (fun s => same s password)
    && a.service.any (fun s => same s "betfair")

/-- `betfair_by_creds(username, password).first`, with its place. -/
def betfairByCreds (t : List Account) (username password : String) : Option (Nat × Account) :=
  (t.findIdx? (hasCreds same username password)).bind (fun i => (t[i]?).map (fun a => (i, a)))

/-- The key `betfair_get_ssoid` looks for. -/
def sessionKey (username password : String) : String := md5 (username ++ password ++ "betfair")

/-- `betfair_get_ssoid(username, password).first`. -/
def betfairGetSsoid (t : List Account) (username password : String) : Option Account :=
  t.find? (fun a => decide (a.uniq = some (sessionKey md5 username password)))

/--
`betfair_valid_ssoid`. The age of the session is tested twice, each time against
a clock reading of its own; between the two the clock can pass the limit.
-/
def betfairValidSsoid (t : List Account) (username password : String) (now now' : Int) :
    Except RubyError Bool :=
  match betfairByCreds same t username password with
  | none => .error .noMethodError
  | some (_, a) =>
      match a.time with
      | none => .ok false
      | some time =>
          if now - time ≥ 1200 then .ok false
          else if now' - time < 1200 then .ok true
          else .error (.runtimeError "Error")

end Account

end BetterEfisis

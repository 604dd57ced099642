import BetterEfisis.Betfair.Api
import BetterEfisis.Lib.Reach

/-!
# The accounts over time

Accounts are created and edited, logins come in, and the clock moves on. What the
endpoint has issued is kept beside the table.
-/

namespace BetterEfisis

open Lib Betfair

/-- A token, the credentials it was issued for, and when. -/
structure Issue where
  username : String
  password : String
  token : String
  time : Int
deriving DecidableEq, Repr

structure Sessions where
  accounts : List Account
  now : Int
  /-- Ghost: the tokens the endpoint has issued, newest first. -/
  issued : List Issue
deriving DecidableEq, Repr

namespace Sessions

inductive Act where
  | create (username password service : Option String)
  /-- The three fields of the account at place `i` are set, and it is saved. -/
  | edit (i : Nat) (username password service : Option String)
  /-- `login`; the clock moves by `d`, `d'` and `d''` before its three readings. -/
  | login (username password : String) (d d' d'' : Nat) (answer : Option String)
  | advance (d : Nat)
deriving DecidableEq, Repr

/-- The token a call has just received. -/
def received (username password : String) (time : Int) : Login → List Issue
  | .asked (some token) => [⟨username, password, token, time⟩]
  | _ => []

/-- The account as `edit` leaves it in memory. -/
def edited (a : Account) (username password service : Option String) : Account :=
  { a with username := username, password := password, service := service }

def act (same : String → String → Bool) (md5 : String → String) (w : Sessions) :
    Act → Option Sessions
  | .create username password service =>
      some { w with accounts := Account.create md5 w.accounts username password service }
  | .edit i username password service =>
      match w.accounts[i]? with
      | some a =>
          let a' := edited a username password service
          some { w with accounts := Account.save md5 w.accounts i a' }
      | none => none
  | .login username password d d' d'' answer =>
      let now := w.now + d + d' + d''
      match login same md5 w.accounts username password (w.now + d) (w.now + d + d') now answer with
      | .ok (t, r) =>
          some { accounts := t, now := now, issued := received username password now r ++ w.issued }
      | .error _ => some { w with now := now }
  | .advance d => some { w with now := w.now + d }

/-- No account yet. -/
def Init (w : Sessions) : Prop := w.accounts = [] ∧ w.issued = []

/-- The token issued last for a pair of credentials. -/
def latest (issued : List Issue) (username password : String) : Option Issue :=
  issued.find? (fun e => decide (e.username = username ∧ e.password = password))

end Sessions

end BetterEfisis

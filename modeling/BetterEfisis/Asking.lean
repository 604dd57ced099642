import BetterEfisis.Lib.Trace
import BetterEfisis.Refreshing

/-!
# What a refresh asks for

A run of `RefreshOddsWorker.perform` by itself, with the requests for market books it
sends noted. A request has been sent whatever is answered to it.
-/

namespace BetterEfisis

open Lib Betfair

structure Asking where
  store : Store
  /-- The statement executed next, or how the run has ended. -/
  at_ : Outcome RefreshOddsWorker.Pc

namespace Asking

/-- The run executes its next statement; `answer` is what the endpoint would answer. -/
inductive Act where
  | perform (l : EventWorker.Logon) (answer : Option (List MarketBook))

def act (md5 : String → String) (same : String → String → Bool)
    (apiAccount : List Account → Option Account) (eventId : Int) (w : Asking) :
    Act → Option Asking
  | .perform l answer =>
      match w.at_ with
      | .next pc =>
          let o := RefreshOddsWorker.step md5 same apiAccount l answer eventId w.store pc
          some ⟨o.1, o.2⟩
      | _ => none

/-- The request that is sent with the next statement. -/
def asked (w : Asking) (_ : Act) : List MarketBookRequest :=
  match w.at_ with
  | .next (.ask _ (m :: _) _) => [marketBookRequest (.array m)]
  | _ => []

/-- Before the first statement. -/
def Init (s : Store) (w : Asking) : Prop := w = ⟨s, .next .login⟩

end Asking

end BetterEfisis

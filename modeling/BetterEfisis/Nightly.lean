import BetterEfisis.Lib.Reach
import BetterEfisis.Worker.Events

/-!
# The nightly import and its retries

`EventWorker` runs one attempt after the other on the same answers, and each of
them can fail before any of its statements. The logins answer what they like.
-/

namespace BetterEfisis

open Lib

/-- The store, and the statement the attempt in progress executes next. -/
structure Nightly where
  store : Store
  at_ : Option EventWorker.Pc

namespace Nightly

inductive Act where
  | begin
  /-- The attempt executes its next statement; a login goes as `l` says, and new rows get
  the primary keys `ids`. -/
  | perform (l : EventWorker.Logon) (ids : Nat → Nat)
  | fail

/-- Where the attempt goes: it is over when it returns or raises. -/
def goesTo : Outcome EventWorker.Pc → Option EventWorker.Pc
  | .next pc => some pc
  | _ => none

def act (md5 : String → String) (parseDate : String → Option Int)
    (same : String → String → Bool) (apiAccount : List Account → Option Account) (r : Answers)
    (w : Nightly) : Act → Option Nightly
  | .begin =>
      match w.at_ with
      | none => some { w with at_ := some .login }
      | some _ => none
  | .perform l ids =>
      match w.at_ with
      | some pc =>
          let (s, o) := EventWorker.step md5 parseDate same apiAccount r l ids w.store pc
          some ⟨s, goesTo o⟩
      | none => none
  | .fail =>
      match w.at_ with
      | some _ => some { w with at_ := none }
      | none => none

end Nightly

end BetterEfisis

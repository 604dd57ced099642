import BetterEfisis.Betfair.Api
import BetterEfisis.Lib.Form

/-!
# The credentials in the body of a login

`login` writes the username and the password into its body as they are, and declares it
a form. What the form means is what was written only where neither of them has a
character in it that a form has another use for.
-/

namespace BetterEfisis.Proof

open Lib Betfair

/--
The form `login` posts has the two fields, with the values given, and is not that of any
other credentials.
-/
def Intact (user pass : String) : Prop :=
  fields (bytes (loginRequest user pass).body)
      = [(bytes "username", bytes user), (bytes "password", bytes pass)]
    ∧ ∀ user' pass', loginRequest user' pass' = loginRequest user pass → user' = user ∧ pass' = pass

theorem key_username : Key (bytes "username") := by
  constructor
  · decide +kernel
  · decide +kernel
  · exact unescape_eq_self_iff.mp (by decide +kernel)

theorem key_password : Key (bytes "password") := by
  constructor
  · decide +kernel
  · decide +kernel
  · exact unescape_eq_self_iff.mp (by decide +kernel)

/-- The body, with the field names and the signs between them. -/
theorem bytes_body (user pass : String) :
    bytes (loginRequest user pass).body
      = (bytes "username" ++ equals :: bytes user)
        ++ ampersand :: (bytes "password" ++ equals :: bytes pass) := by
  -- the body is made of four texts, two of them with a sign in them
  have hfirst : bytes "username=" = bytes "username" ++ [equals] := by decide +kernel
  have hsecond : bytes "&password=" = ampersand :: (bytes "password" ++ [equals]) := by
    decide +kernel
  unfold loginRequest
  rw [bytes_append, bytes_append, bytes_append, hfirst, hsecond]
  simp

/-- The form says which credentials were written into it. -/
theorem credentials_eq {user pass user' pass' : String} (hu : Verbatim (bytes user))
    (hp : Verbatim (bytes pass)) (h : loginRequest user' pass' = loginRequest user pass) :
    user' = user ∧ pass' = pass := by
  have hbody : bytes (loginRequest user' pass').body = bytes (loginRequest user pass).body := by
    rw [h]
  rw [bytes_body, bytes_body] at hbody
  obtain ⟨husers, hpasses⟩ := body_inj key_username key_password hu hp hbody
  exact ⟨bytes_inj.mp husers, bytes_inj.mp hpasses⟩

/-- **The credentials are intact exactly if both are verbatim.** -/
theorem intact_iff (user pass : String) :
    Intact user pass ↔ Verbatim (bytes user) ∧ Verbatim (bytes pass) := by
  have hfields := fields_eq_iff (u := bytes user) (v := bytes pass) key_username key_password
  unfold Intact
  rw [bytes_body, hfields]
  exact ⟨fun h => h.1, fun h => ⟨h, fun _ _ => credentials_eq h.1 h.2⟩⟩

/-- **Two pairs make the same request.** -/
theorem not_intact :
    loginRequest "ana" "a&password=b" = loginRequest "ana&password=a" "b"
      ∧ ¬ ∀ user pass, Intact user pass := by
  have hsame : loginRequest "ana" "a&password=b" = loginRequest "ana&password=a" "b" := by
    decide +kernel
  refine ⟨hsame, ?_⟩
  intro hall
  have heq := (hall "ana" "a&password=b").2 _ _ hsame.symm
  exact absurd heq.2 (by decide)

end BetterEfisis.Proof

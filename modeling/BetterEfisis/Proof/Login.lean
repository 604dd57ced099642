import BetterEfisis.Lib.Sidekiq
import BetterEfisis.Model.Tables
import BetterEfisis.Sessions

/-!
# What creating, saving and logging in can do

One lemma for each call of the session code, on which the invariants of the
accounts are built. An account is known by its place in the table.
-/

namespace BetterEfisis.Proof

open Lib Betfair

variable {same : String → String → Bool} {md5 : String → String}

/-- The comparison of a column that does not tell the cases of a letter apart. -/
def ignoreCase : String → String → Bool := Collation.ignoreCase.same

theorem ignoreCase_refl (s : String) : ignoreCase s s = true := decide_eq_true rfl

/-- An account without its session. -/
def credentials (a : Account) : Option String × Option String × Option String :=
  (a.username, a.password, a.service)

/-- The account has the credentials `(u, p)`, letter by letter. -/
def AccountOf (u p : String) (a : Account) : Prop :=
  credentials a = (some u, some p, some "betfair")

instance (u p : String) (a : Account) : Decidable (AccountOf u p a) :=
  inferInstanceAs (Decidable (_ = _))

theorem accountOf_iff {u p : String} {a : Account} :
    AccountOf u p a ↔ a.username = some u ∧ a.password = some p ∧ a.service = some "betfair" := by
  simp [AccountOf, credentials]

/-- The digest of an account with credentials `(u, p)` is the key of its session. -/
theorem digest_of_accountOf {u p : String} {a : Account} (h : AccountOf u p a) :
    a.digest md5 = Account.sessionKey md5 u p := by
  obtain ⟨h1, h2, h3⟩ := accountOf_iff.mp h
  simp [Account.digest, Account.sessionKey, h1, h2, h3]

/-- A comparison that takes every text for itself finds the account. -/
theorem hasCreds_of_accountOf (hsame : ∀ s, same s s = true) {u p : String} {a : Account}
    (h : AccountOf u p a) : Account.hasCreds same u p a = true := by
  obtain ⟨h1, h2, h3⟩ := accountOf_iff.mp h
  simp [Account.hasCreds, h1, h2, h3, hsame]

theorem hasCreds_congr {u p : String} {a b : Account} (h : credentials a = credentials b) :
    Account.hasCreds same u p a = Account.hasCreds same u p b := by
  simp only [credentials, Prod.mk.injEq] at h
  obtain ⟨h1, h2, h3⟩ := h
  simp only [Account.hasCreds, h1, h2, h3]

/-- The account that is found is the first that the database takes for the one asked for. -/
theorem byCreds_iff {t : List Account} {u p : String} {i : Nat} {a : Account} :
    Account.betfairByCreds same t u p = some (i, a) ↔
      t[i]? = some a ∧ Account.hasCreds same u p a = true
        ∧ ∀ j b, j < i → t[j]? = some b → Account.hasCreds same u p b = false := by
  unfold Account.betfairByCreds
  rw [Option.bind_eq_some_iff]
  constructor
  · intro h
    obtain ⟨k, hk, hrow⟩ := h
    obtain ⟨b, hb, heq⟩ := Option.map_eq_some_iff.mp hrow
    cases heq
    obtain ⟨hlt, hcreds, hfront⟩ := List.findIdx?_eq_some_iff_getElem.mp hk
    refine ⟨hb, ?_, ?_⟩
    · rw [List.getElem?_eq_getElem hlt] at hb
      cases hb
      exact hcreds
    · intro j c hj hc
      obtain ⟨hjlt, rfl⟩ := List.getElem?_eq_some_iff.mp hc
      simpa using hfront j hj
  · intro h
    obtain ⟨hi, hcreds, hfront⟩ := h
    obtain ⟨hlt, rfl⟩ := List.getElem?_eq_some_iff.mp hi
    refine ⟨i, List.findIdx?_eq_some_iff_getElem.mpr ⟨hlt, hcreds, ?_⟩, by rw [hi]; rfl⟩
    intro j hj
    have hb := hfront j _ hj (List.getElem?_eq_getElem (by omega))
    simp [hb]

theorem byCreds_row {t : List Account} {u p : String} {i : Nat} {a : Account}
    (h : Account.betfairByCreds same t u p = some (i, a)) :
    t[i]? = some a ∧ Account.hasCreds same u p a = true :=
  ⟨(byCreds_iff.mp h).1, (byCreds_iff.mp h).2.1⟩

/-- No other account has the `uniq` of the one at place `i`. -/
theorem uniqFree_eraseIdx {t : List Account} {i : Nat} {a : Account} :
    a.uniqFree (t.eraseIdx i) = true ↔
      ∀ j b, t[j]? = some b → j ≠ i → b.uniq ≠ a.uniq := by
  simp only [Account.uniqFree, Bool.not_eq_true', List.any_eq_false, decide_eq_true_eq,
    List.mem_eraseIdx_iff_getElem?]
  constructor
  · intro h j b hj hne
    exact h b ⟨j, hne, hj⟩
  · intro h b hb
    obtain ⟨j, hne, hj⟩ := hb
    exact h j b hj hne

/-- `save` writes the account with its new digest, or nothing. -/
theorem save_cases (md5 : String → String) (t : List Account) (i : Nat) (a : Account) :
    Account.save md5 t i a = t
      ∨ (a.presentFields = true ∧ (∀ j b, t[j]? = some b → j ≠ i → b.uniq ≠ a.uniq)
          ∧ Account.save md5 t i a = t.set i (a.beforeSave md5)) := by
  unfold Account.save
  by_cases hp : a.presentFields = true
  · by_cases hu : a.uniqFree (t.eraseIdx i) = true
    · exact Or.inr ⟨hp, uniqFree_eraseIdx.mp hu, by rw [if_pos (by rw [hp, hu]; rfl)]⟩
    · exact Or.inl (if_neg (by rw [hp]; simpa using hu))
  · exact Or.inl (if_neg (by simp [hp]))

/-- `create` adds a presentable account without a session, or nothing. -/
theorem create_cases (md5 : String → String) (t : List Account) (u p s : Option String) :
    Account.create md5 t u p s = t
      ∨ ((Account.new u p s).presentFields = true
          ∧ Account.create md5 t u p s = t ++ [(Account.new u p s).beforeSave md5]) := by
  unfold Account.create
  by_cases hp : (Account.new u p s).presentFields = true
  · by_cases hu : (Account.new u p s).uniqFree t = true
    · exact Or.inr ⟨hp, if_pos (by rw [hp, hu]; rfl)⟩
    · exact Or.inl (if_neg (by rw [hp]; simpa using hu))
  · exact Or.inl (if_neg (by simp [hp]))

/-- Every stored account carries the digest of the fields it has. -/
def Hashed (md5 : String → String) (t : List Account) : Prop :=
  ∀ a ∈ t, a.uniq = some (a.digest md5)

/-- And so place by place. -/
theorem hashed_iff {t : List Account} :
    Hashed md5 t ↔ ∀ (i : Nat) (a : Account), t[i]? = some a → a.uniq = some (a.digest md5) := by
  constructor
  · intro h i a hi
    exact h a (List.mem_of_getElem? hi)
  · intro h a ha
    obtain ⟨i, hi⟩ := List.mem_iff_getElem?.mp ha
    exact h i a hi

theorem hashed_create {t : List Account} (h : Hashed md5 t)
    (u p s : Option String) : Hashed md5 (Account.create md5 t u p s) := by
  rcases create_cases md5 t u p s with he | ⟨_, he⟩
  · rw [he]
    exact h
  · rw [he]
    intro a ha
    rcases List.mem_append.mp ha with hold | hnew
    · exact h a hold
    · rw [List.mem_singleton.mp hnew]
      rfl

theorem hashed_save {t : List Account} (h : Hashed md5 t) (i : Nat)
    (a : Account) : Hashed md5 (Account.save md5 t i a) := by
  rcases save_cases md5 t i a with he | ⟨_, _, he⟩
  · rw [he]
    exact h
  · rw [he]
    intro b hb
    rcases List.mem_or_eq_of_mem_set hb with hold | rfl
    · exact h b hold
    · rfl

/-- A session of account `a` that is not older than the limit at time `now`. -/
def Live (now : Int) (a : Account) : Prop := ∃ time, a.time = some time ∧ now - time < 1200

/-- A session that is live was live before. -/
theorem live_earlier {now now' : Int} {a : Account} (hle : now ≤ now') (h : Live now' a) :
    Live now a := by
  obtain ⟨time, ht, hlt⟩ := h
  exact ⟨time, ht, by omega⟩

theorem live_iff {now time : Int} {a : Account} (h : a.time = some time) :
    Live now a ↔ now - time < 1200 := by
  unfold Live
  rw [h]
  constructor
  · intro hl
    obtain ⟨t, ht, hlt⟩ := hl
    cases ht
    exact hlt
  · intro hlt
    exact ⟨time, rfl, hlt⟩

/-- What holds of the account that is found holds of the one there is. -/
theorem exists_found_iff {i : Nat} {a : Account} {P : Account → Prop} :
    (∃ j b, some (i, a) = some (j, b) ∧ P b) ↔ P a := by
  constructor
  · intro h
    obtain ⟨j, b, heq, h⟩ := h
    cases heq
    exact h
  · intro h
    exact ⟨i, a, rfl, h⟩

theorem validSsoid_true {t : List Account} {u p : String} {now now' : Int} :
    Account.betfairValidSsoid same t u p now now' = .ok true ↔
      ∃ i a, Account.betfairByCreds same t u p = some (i, a) ∧ Live now a ∧ Live now' a := by
  unfold Account.betfairValidSsoid
  cases hc : Account.betfairByCreds same t u p with
  | none => simp
  | some q =>
      obtain ⟨i, a⟩ := q
      cases ht : a.time with
      | none => simp [Live, ht]
      | some time =>
          have hlive : (∃ j b, some (i, a) = some (j, b) ∧ Live now b ∧ Live now' b)
              ↔ now - time < 1200 ∧ now' - time < 1200 := by
            rw [← live_iff ht, ← live_iff ht]
            exact exists_found_iff
          rw [hlive]
          simp only [ht]
          by_cases h1 : now - time ≥ 1200
          · rw [if_pos h1]
            constructor
            · intro h
              exact absurd h (by simp)
            · intro h
              omega
          · rw [if_neg h1]
            by_cases h2 : now' - time < 1200
            · rw [if_pos h2]
              exact ⟨fun _ => ⟨by omega, h2⟩, fun _ => rfl⟩
            · rw [if_neg h2]
              constructor
              · intro h
                exact absurd h (by simp)
              · intro h
                exact absurd h.2 h2

theorem validSsoid_false {t : List Account} {u p : String} {now now' : Int} :
    Account.betfairValidSsoid same t u p now now' = .ok false ↔
      ∃ i a, Account.betfairByCreds same t u p = some (i, a) ∧ ¬ Live now a := by
  unfold Account.betfairValidSsoid
  cases hc : Account.betfairByCreds same t u p with
  | none => simp
  | some q =>
      obtain ⟨i, a⟩ := q
      have hrow : (∃ j b, some (i, a) = some (j, b) ∧ ¬ Live now b) ↔ ¬ Live now a :=
        exists_found_iff
      rw [hrow]
      cases ht : a.time with
      | none => simp [Live, ht]
      | some time =>
          rw [live_iff ht]
          simp only [ht]
          by_cases h1 : now - time ≥ 1200
          · rw [if_pos h1]
            exact ⟨fun _ => by omega, fun _ => rfl⟩
          · rw [if_neg h1]
            constructor
            · intro h
              split at h <;> exact absurd h (by simp)
            · intro h
              omega

/-- **What a call of `login` can do.** -/
theorem login_cases {t t' : List Account} {u p : String}
    {now now' now'' : Int} {answer : Option String} {r : Login}
    (h : login same md5 t u p now now' now'' answer = .ok (t', r)) :
    (∃ i a b, Account.betfairByCreds same t u p = some (i, a) ∧ Live now a ∧ Live now' a
        ∧ Account.betfairGetSsoid md5 t u p = some b ∧ r = .cached b.ssoid ∧ t' = t)
      ∨ (∃ i a, Account.betfairByCreds same t u p = some (i, a) ∧ ¬ Live now a ∧ r = .asked answer
        ∧ t' = Account.save md5 t i { a with time := some now'', ssoid := answer }) := by
  unfold login at h
  cases hv : Account.betfairValidSsoid same t u p now now' with
  | error x => rw [hv] at h; exact absurd h (by simp [bind, Except.bind])
  | ok valid =>
      rw [hv] at h
      cases valid with
      | true =>
          obtain ⟨i, a, hc, hl, hl'⟩ := validSsoid_true.mp hv
          cases hg : Account.betfairGetSsoid md5 t u p with
          | none => rw [hg] at h; exact absurd h (by simp [bind, Except.bind])
          | some b =>
              rw [hg] at h
              cases h
              exact Or.inl ⟨i, a, b, hc, hl, hl', rfl, rfl, rfl⟩
      | false =>
          obtain ⟨i, a, hc, hl⟩ := validSsoid_false.mp hv
          rw [hc] at h
          cases h
          exact Or.inr ⟨i, a, hc, hl, rfl, rfl⟩

/-- To save a session is to change nothing else of the account. -/
theorem credentials_save {t : List Account} {i : Nat} {a : Account} (hi : t[i]? = some a)
    (time : Option Int) (ssoid : Option String) :
    (Account.save md5 t i { a with time := time, ssoid := ssoid }).map credentials
      = t.map credentials := by
  rcases save_cases md5 t i { a with time := time, ssoid := ssoid } with he | ⟨_, _, he⟩
  · rw [he]
  · obtain ⟨hlt, hget⟩ := List.getElem?_eq_some_iff.mp hi
    have hlt' : i < (t.map credentials).length := by simpa using hlt
    have hsaved : credentials ({ a with time := time, ssoid := ssoid }.beforeSave md5)
        = (t.map credentials)[i] := by
      rw [List.getElem_map, hget]
      rfl
    rw [he, List.map_set, hsaved, List.set_getElem_self]

/-- The same accounts stand at the same places. -/
theorem getElem?_of_credentials {t t' : List Account} (h : t'.map credentials = t.map credentials)
    {k : Nat} {b' : Account} (hk : t'[k]? = some b') :
    ∃ b, t[k]? = some b ∧ credentials b' = credentials b := by
  have hmap : (t.map credentials)[k]? = some (credentials b') := by
    rw [← h, List.getElem?_map, hk]
    rfl
  rw [List.getElem?_map] at hmap
  obtain ⟨b, hb, heq⟩ := Option.map_eq_some_iff.mp hmap
  exact ⟨b, hb, heq.symm⟩

/-- A valid session whose key is stored is returned. -/
theorem login_cached {t : List Account} {u p : String}
    {now now' now'' : Int} {answer : Option String} {i : Nat} {a b : Account}
    (hc : Account.betfairByCreds same t u p = some (i, a)) (hl : Live now a) (hl' : Live now' a)
    (hg : Account.betfairGetSsoid md5 t u p = some b) :
    login same md5 t u p now now' now'' answer = .ok (t, .cached b.ssoid) := by
  have hv : Account.betfairValidSsoid same t u p now now' = .ok true :=
    validSsoid_true.mpr ⟨i, a, hc, hl, hl'⟩
  unfold login
  rw [hv, hg]
  rfl

end BetterEfisis.Proof

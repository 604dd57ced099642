import BetterEfisis.Proof.Login

/-!
# The session cache

`login` stores the time of its answer whether or not the answer carries a token,
and it ignores that `account.save` may refuse to write: a new account is validated
before it has a `uniq`, so two accounts can share one, and from then on neither
can be saved. A refusal is therefore remembered as a session, and a session may
not be remembered at all. And the account it stores the answer in is the one the
database finds, which may take one text for another: then the token of `(U, p)` is
remembered as one of `(u, p)` (`cache_not_exact`).

Where the endpoint never refuses `(u, p)`, no account is created under the key of a
stored one or behind one that the database takes for it, and no other login is
answered into it, the row of `(u, p)` holds the last token issued for it and the time
of that token.
-/

namespace BetterEfisis.Proof

open Lib Betfair Sessions

/-- Runs of creations, logins and clock advances. -/
def NoEdit : Sessions.Act → Prop
  | .edit _ _ _ _ => False
  | _ => True

/--
The steps that keep the cache of `(u, p)`. No account is created with the key of
`(u, p)` while a stored one has it, and none with these credentials while the database
takes a stored one for it. A login that asks the endpoint and finds the account of
`(u, p)` is `login(u, p)`, and receives a token.
-/
def KeepsCache (same : String → String → Bool) (md5 : String → String) (u p : String)
    (w : Sessions) : Sessions.Act → Prop
  | .create username password service =>
      let a := Account.new username password service
      a.presentFields = true →
        (a.digest md5 = Account.sessionKey md5 u p →
            ∀ b ∈ w.accounts, b.uniq ≠ some (Account.sessionKey md5 u p))
          ∧ (AccountOf u p a → ∀ b ∈ w.accounts, Account.hasCreds same u p b = false)
  | .login username password d d' _ answer =>
      Account.betfairValidSsoid same w.accounts username password (w.now + d) (w.now + d + d')
          = .ok false →
        ∀ i a, Account.betfairByCreds same w.accounts username password = some (i, a) →
          AccountOf u p a → username = u ∧ password = p ∧ answer ≠ none
  | _ => True

/-- The token of `(u, p)` is issued to a call of `login` less than 1200 seconds before `now`. -/
def IssuedRecently (u p : String) (now : Int) (issued : List Issue) : Prop :=
  ∃ e ∈ issued, e.username = u ∧ e.password = p ∧ now - e.time < 1200

/--
A call of `login(u, p)` that reads the clock at `now`, `now'` and `now''` skips the
endpoint exactly when a token has been issued recently, and then returns the latest.
-/
def CacheExact (same : String → String → Bool) (md5 : String → String) (u p : String)
    (w : Sessions) : Prop :=
  (∃ a ∈ w.accounts, AccountOf u p a) →
    ∀ now now' now'' answer, w.now ≤ now → now ≤ now' → now' ≤ now'' →
      ((∃ t s, login same md5 w.accounts u p now now' now'' answer = .ok (t, .cached s))
          ↔ IssuedRecently u p now' w.issued)
        ∧ ∀ t s, login same md5 w.accounts u p now now' now'' answer = .ok (t, .cached s) →
            s = (latest w.issued u p).map Issue.token

variable {same : String → String → Bool} {md5 : String → String} {u p : String} {w w' : Sessions}

/-- What depends on the credentials stored, place by place. -/
structure SoleHolder (same : String → String → Bool) (md5 : String → String) (u p : String)
    (t : List Account) : Prop where
  hashed : Hashed md5 t
  present : ∀ (i : Nat) (a : Account), t[i]? = some a → a.presentFields = true
  /-- One account has the key. -/
  single : ∀ (i j : Nat) (a b : Account), t[i]? = some a → t[j]? = some b →
    a.uniq = some (Account.sessionKey md5 u p) → b.uniq = some (Account.sessionKey md5 u p) → i = j
  /-- The account of `(u, p)` is the one that is found for it. -/
  front : ∀ (i j : Nat) (a b : Account), t[i]? = some a → AccountOf u p a → j < i →
    t[j]? = some b → Account.hasCreds same u p b = false

structure CacheInv (same : String → String → Bool) (md5 : String → String) (u p : String)
    (w : Sessions) : Prop where
  stored : SoleHolder same md5 u p w.accounts
  /-- The account of `(u, p)` holds the latest session. -/
  row : ∀ (i : Nat) (a : Account), w.accounts[i]? = some a → AccountOf u p a →
    a.time = (latest w.issued u p).map Issue.time ∧ a.ssoid = (latest w.issued u p).map Issue.token
  /-- A session was issued to an account the database takes for it. -/
  issuedTo : ∀ e, latest w.issued u p = some e → ∃ (i : Nat) (a : Account),
    w.accounts[i]? = some a ∧ Account.hasCreds same u p a = true
  /-- The sessions are listed newest first, and none is from the future. -/
  ordered : w.issued.Pairwise (fun e f => f.time ≤ e.time)
  past : ∀ e ∈ w.issued, e.time ≤ w.now

theorem cacheInv_init (h : Sessions.Init w) : CacheInv same md5 u p w := by
  obtain ⟨h1, h2⟩ := h
  have hstored : SoleHolder same md5 u p w.accounts := by
    rw [h1]
    exact ⟨by simp [Hashed], by simp, by simp, by simp⟩
  refine ⟨hstored, ?_, ?_, ?_, ?_⟩ <;> simp [h1, h2, latest]

theorem latest_spec {issued : List Issue} {u p : String} {e : Issue}
    (h : latest issued u p = some e) : e ∈ issued ∧ e.username = u ∧ e.password = p := by
  have hq := List.find?_some h
  exact ⟨List.mem_of_find?_eq_some h, of_decide_eq_true hq⟩

/-- In an ordered list the latest is the first, and the youngest. -/
theorem latest_youngest {issued : List Issue} {u p : String} {e : Issue}
    (hord : issued.Pairwise (fun e f => f.time ≤ e.time)) (he : e ∈ issued)
    (hu : e.username = u) (hp : e.password = p) :
    ∃ l, latest issued u p = some l ∧ e.time ≤ l.time := by
  induction issued with
  | nil => exact absurd he (by simp)
  | cons x xs ih =>
      obtain ⟨hx, hxs⟩ := List.pairwise_cons.mp hord
      by_cases hq : x.username = u ∧ x.password = p
      · refine ⟨x, by simp [latest, hq], ?_⟩
        rcases List.mem_cons.mp he with rfl | h'
        · exact Int.le_refl _
        · exact hx e h'
      · rcases List.mem_cons.mp he with rfl | h'
        · exact absurd ⟨hu, hp⟩ hq
        · obtain ⟨l, hl, hle⟩ := ih hxs h'
          refine ⟨l, ?_, hle⟩
          unfold latest at hl ⊢
          rw [List.find?_cons, decide_eq_false hq]
          exact hl

/-- A session of somebody else changes nothing about the latest one of `(u, p)`. -/
theorem latest_other {issued : List Issue} {u p u' p' : String} {time : Int} {r : Login}
    (hne : ¬ (u' = u ∧ p' = p)) :
    latest (received u' p' time r ++ issued) u p = latest issued u p := by
  unfold received
  split
  · unfold latest
    rw [List.singleton_append, List.find?_cons, decide_eq_false hne]
  · rfl

/-- The key of the account of `(u, p)`. -/
theorem SoleHolder.key {t : List Account} (h : SoleHolder same md5 u p t) {i : Nat} {a : Account}
    (hi : t[i]? = some a) (ha : AccountOf u p a) : a.uniq = some (Account.sessionKey md5 u p) := by
  rw [h.hashed a (List.mem_of_getElem? hi), digest_of_accountOf ha]

/-- No account is found for `(u, p)` but its own, where it is stored. -/
theorem SoleHolder.found (hsame : ∀ s, same s s = true) {t : List Account}
    (h : SoleHolder same md5 u p t) {i : Nat} {a : Account} (hi : t[i]? = some a)
    (ha : AccountOf u p a) : Account.betfairByCreds same t u p = some (i, a) :=
  byCreds_iff.mpr ⟨hi, hasCreds_of_accountOf hsame ha, fun j b hj hb => h.front i j a b hi ha hj hb⟩

theorem digest_congr {a b : Account} (h : credentials a = credentials b) :
    a.digest md5 = b.digest md5 := by
  simp only [credentials, Prod.mk.injEq] at h
  obtain ⟨h1, h2, h3⟩ := h
  simp only [Account.digest, h1, h2, h3]

theorem presentFields_congr {a b : Account} (h : credentials a = credentials b) :
    a.presentFields = b.presentFields := by
  simp only [credentials, Prod.mk.injEq] at h
  obtain ⟨h1, h2, h3⟩ := h
  simp only [Account.presentFields, h1, h2, h3]

/-- A table with the same accounts, which are hashed again. -/
theorem SoleHolder.of_credentials {t t' : List Account} (h : SoleHolder same md5 u p t)
    (hhash : Hashed md5 t') (hsame : t'.map credentials = t.map credentials) :
    SoleHolder same md5 u p t' where
  hashed := hhash
  present := by
    intro i a hi
    obtain ⟨a₀, hi₀, ha⟩ := getElem?_of_credentials hsame hi
    rw [presentFields_congr ha]
    exact h.present i a₀ hi₀
  single := by
    intro i j a b hi hj hka hkb
    obtain ⟨a₀, hi₀, ha⟩ := getElem?_of_credentials hsame hi
    obtain ⟨b₀, hj₀, hb⟩ := getElem?_of_credentials hsame hj
    refine h.single i j a₀ b₀ hi₀ hj₀ ?_ ?_
    · rw [h.hashed a₀ (List.mem_of_getElem? hi₀), ← digest_congr ha,
        ← hhash a (List.mem_of_getElem? hi), hka]
    · rw [h.hashed b₀ (List.mem_of_getElem? hj₀), ← digest_congr hb,
        ← hhash b (List.mem_of_getElem? hj), hkb]
  front := by
    intro i j a b hi ha hj hb
    obtain ⟨a₀, hi₀, heq⟩ := getElem?_of_credentials hsame hi
    obtain ⟨b₀, hj₀, hb₀⟩ := getElem?_of_credentials hsame hb
    rw [hasCreds_congr hb₀]
    exact h.front i j a₀ b₀ hi₀ (heq.symm.trans ha) hj hj₀

theorem cacheInv_create (h : CacheInv same md5 u p w) {username password service : Option String}
    (hok : KeepsCache same md5 u p w (.create username password service)) :
    CacheInv same md5 u p
      { w with accounts := Account.create md5 w.accounts username password service } := by
  rcases create_cases md5 w.accounts username password service with he | ⟨hpres, he⟩
  · rw [he]
    exact h
  · have hhash := hashed_create h.stored.hashed username password service
    rw [he] at hhash
    rw [he]
    obtain ⟨hfree, hnew⟩ := hok hpres
    -- the new account has the key only if no stored one has it
    have hkey : ∀ (k : Nat) (b : Account), w.accounts[k]? = some b →
        ((Account.new username password service).beforeSave md5).uniq
          = some (Account.sessionKey md5 u p) → b.uniq ≠ some (Account.sessionKey md5 u p) :=
      fun k b hk hu => hfree (Option.some.inj hu) b (List.mem_of_getElem? hk)
    refine ⟨⟨hhash, ?_, ?_, ?_⟩, ?_, ?_, h.ordered, h.past⟩
    · intro i a hi
      rcases getElem?_snoc_cases hi with hold | ⟨_, rfl⟩
      · exact h.stored.present i a hold
      · exact hpres
    · intro i j a b hi hj ha hb
      rcases getElem?_snoc_cases hi with hi' | ⟨hil, rfl⟩ <;>
        rcases getElem?_snoc_cases hj with hj' | ⟨hjl, rfl⟩
      · exact h.stored.single i j a b hi' hj' ha hb
      · exact absurd ha (hkey i a hi' hb)
      · exact absurd hb (hkey j b hj' ha)
      · rw [hil, hjl]
    · intro i j a b hi ha hj hb
      rcases getElem?_snoc_cases hb with hb' | ⟨hjl, _⟩
      · rcases getElem?_snoc_cases hi with hi' | ⟨_, rfl⟩
        · exact h.stored.front i j a b hi' ha hj hb'
        · exact hnew ha b (List.mem_of_getElem? hb')
      · have hlt := (List.getElem?_eq_some_iff.mp hi).1
        rw [List.length_append, List.length_singleton] at hlt
        omega
    · intro i a hi ha
      rcases getElem?_snoc_cases hi with hold | ⟨_, rfl⟩
      · exact h.row i a hold ha
      · -- no token was issued for `(u, p)`, or an account taken for it would be stored already
        cases hl : latest w.issued u p with
        | none => exact ⟨rfl, rfl⟩
        | some e =>
            obtain ⟨k, b, hk, hb⟩ := h.issuedTo e hl
            rw [hnew ha b (List.mem_of_getElem? hk)] at hb
            exact absurd hb (by simp)
    · intro e he'
      obtain ⟨i, a, hi, hcreds⟩ := h.issuedTo e he'
      exact ⟨i, a, getElem?_snoc_of_some hi, hcreds⟩

/-- The sessions stay in order when one that is received now is put in front. -/
theorem ordered_received {issued : List Issue} {u p : String} {now now' : Int} {r : Login}
    (hord : issued.Pairwise (fun e f => f.time ≤ e.time)) (hpast : ∀ e ∈ issued, e.time ≤ now)
    (hle : now ≤ now') :
    (received u p now' r ++ issued).Pairwise (fun e f => f.time ≤ e.time)
      ∧ ∀ e ∈ received u p now' r ++ issued, e.time ≤ now' := by
  have hold : ∀ e ∈ issued, e.time ≤ now' := by
    intro e he
    have := hpast e he
    omega
  unfold received
  split
  · refine ⟨List.pairwise_cons.mpr ⟨hold, hord⟩, ?_⟩
    intro e he
    rcases List.mem_cons.mp he with rfl | h'
    · exact Int.le_refl _
    · exact hold e h'
  · exact ⟨hord, hold⟩

/-- The save of a session of the account of `(u, p)` goes through: nobody else has the key. -/
theorem SoleHolder.save_eq {t : List Account} (h : SoleHolder same md5 u p t) {i : Nat}
    {a : Account}
    (hi : t[i]? = some a) (ha : AccountOf u p a) (time : Option Int) (ssoid : Option String) :
    Account.save md5 t i { a with time := time, ssoid := ssoid }
      = t.set i (Account.beforeSave md5 { a with time := time, ssoid := ssoid }) := by
  have hkey := h.key hi ha
  have hfree : Account.uniqFree (t.eraseIdx i) { a with time := time, ssoid := ssoid } = true := by
    rw [uniqFree_eraseIdx]
    intro j b hj hne hu
    exact hne (h.single j i b a hj hi (hu.trans hkey) hkey)
  have hp : Account.presentFields { a with time := time, ssoid := ssoid } = true :=
    h.present i a hi
  exact if_pos (by rw [hp, hfree]; rfl)

/-- A login that asks the endpoint, and finds the account of `(u, p)` or another one. -/
theorem cacheInv_login (hsame : ∀ s, same s s = true) (h : CacheInv same md5 u p w)
    {u' p' : String} {now : Int} {i : Nat} {a : Account} {answer : Option String}
    (hc : Account.betfairByCreds same w.accounts u' p' = some (i, a))
    (hok : AccountOf u p a → u' = u ∧ p' = p ∧ answer ≠ none) (hle : w.now ≤ now) :
    CacheInv same md5 u p
      { accounts := Account.save md5 w.accounts i { a with time := some now, ssoid := answer }
        now := now
        issued := received u' p' now (.asked answer) ++ w.issued } := by
  obtain ⟨hi, hcreds⟩ := byCreds_row hc
  have hrows : (Account.save md5 w.accounts i
      { a with time := some now, ssoid := answer }).map credentials
      = w.accounts.map credentials := credentials_save hi (some now) answer
  have hstored := h.stored.of_credentials (hashed_save h.stored.hashed i _) hrows
  obtain ⟨hord, hpast⟩ := ordered_received (u := u') (p := p') (r := .asked answer) h.ordered
    h.past hle
  -- an account that the database takes for `(u, p)` is still stored
  have hstays : ∀ (k : Nat) (b : Account), w.accounts[k]? = some b →
      Account.hasCreds same u p b = true → ∃ (k : Nat) (b' : Account),
        (Account.save md5 w.accounts i { a with time := some now, ssoid := answer })[k]? = some b'
          ∧ Account.hasCreds same u p b' = true := by
    intro k b hk hb
    obtain ⟨b', hk', heq⟩ := getElem?_of_credentials hrows.symm hk
    exact ⟨k, b', hk', by rw [← hasCreds_congr heq]; exact hb⟩
  refine ⟨hstored, ?_, ?_, hord, hpast⟩
  · intro k b hk hb
    dsimp only at hk ⊢
    obtain ⟨b₀, hk₀, heq⟩ := getElem?_of_credentials hrows hk
    have hb₀ : AccountOf u p b₀ := heq.symm.trans hb
    by_cases ha : AccountOf u p a
    · -- the saved account is the one of `(u, p)`, and it has received a token
      obtain ⟨rfl, rfl, hanswer⟩ := hok ha
      obtain ⟨token, rfl⟩ := Option.ne_none_iff_exists'.mp hanswer
      have hki : k = i := h.stored.single k i b₀ a hk₀ hi (h.stored.key hk₀ hb₀)
        (h.stored.key hi ha)
      subst hki
      rw [h.stored.save_eq hi ha, getElem?_set_here hi] at hk
      cases hk
      have hlatest : latest (received u' p' now (.asked (some token)) ++ w.issued) u' p'
          = some ⟨u', p', token, now⟩ := by
        simp [received, latest]
      rw [hlatest]
      exact ⟨rfl, rfl⟩
    · have hother : ¬ (u' = u ∧ p' = p) := by
        rintro ⟨rfl, rfl⟩
        -- the account of `(u, p)` would have been found
        rw [h.stored.found hsame hk₀ hb₀] at hc
        cases hc
        exact ha hb₀
      rw [latest_other hother]
      rcases save_cases md5 w.accounts i { a with time := some now, ssoid := answer } with he
        | ⟨_, _, he⟩
      · rw [he] at hk
        exact h.row k b hk hb
      · rw [he] at hk
        rcases getElem?_set_cases hk with ⟨_, rfl⟩ | ⟨_, hk'⟩
        · exact absurd hb ha
        · exact h.row k b hk' hb
  · intro e he
    dsimp only at he ⊢
    by_cases hup : u' = u ∧ p' = p
    · obtain ⟨rfl, rfl⟩ := hup
      exact hstays i a hi hcreds
    · rw [latest_other hup] at he
      obtain ⟨k, b, hk, hb⟩ := h.issuedTo e he
      exact hstays k b hk hb

/-- Time changes nothing but the time. -/
theorem cacheInv_later (h : CacheInv same md5 u p w) {now : Int} (hle : w.now ≤ now) :
    CacheInv same md5 u p { w with now := now } := by
  refine ⟨h.stored, h.row, h.issuedTo, h.ordered, ?_⟩
  intro e he
  have hpast := h.past e he
  dsimp only
  omega

theorem cacheInv_step (hsame : ∀ s, same s s = true) {a : Sessions.Act}
    (h : CacheInv same md5 u p w) (hne : NoEdit a) (hok : KeepsCache same md5 u p w a)
    (hs : Sessions.act same md5 w a = some w') : CacheInv same md5 u p w' := by
  cases a with
  | create username password service =>
      injection hs with hs
      rw [← hs]
      exact cacheInv_create h hok
  | edit i username password service => exact absurd hne (by simp [NoEdit])
  | advance d =>
      injection hs with hs
      rw [← hs]
      exact cacheInv_later h (by omega)
  | login u' p' d d' d'' answer =>
      have hle : w.now ≤ w.now + d + d' + d'' := by omega
      rw [Sessions.act] at hs
      split at hs
      · rename_i t r hr
        injection hs with hs
        rw [← hs]
        rcases login_cases hr with ⟨_, _, b, _, _, _, _, rfl, rfl⟩ | ⟨i, row, hc, hl, rfl, rfl⟩
        · -- the endpoint was not asked, and only time has passed
          exact cacheInv_later h hle
        · have hasks : Account.betfairValidSsoid same w.accounts u' p' (w.now + d)
              (w.now + d + d') = .ok false := validSsoid_false.mpr ⟨i, row, hc, hl⟩
          exact cacheInv_login hsame h hc (hok hasks i row hc) hle
      · injection hs with hs
        rw [← hs]
        exact cacheInv_later h hle

theorem cacheInv_reachable (hsame : ∀ s, same s s = true)
    (h : Reachable (Sessions.act same md5) (fun w a => NoEdit a ∧ KeepsCache same md5 u p w a)
      Sessions.Init w) : CacheInv same md5 u p w :=
  h.invariant (fun _ => cacheInv_init)
    (fun _ _ _ hi hok hs => cacheInv_step hsame hi hok.1 hok.2 hs)

/-! ## The main result -/

/-- What the invariant says about the next call. -/
theorem cacheExact_of_cacheInv (hsame : ∀ s, same s s = true) (h : CacheInv same md5 u p w) :
    CacheExact same md5 u p w := by
  intro hexists now now' now'' answer _ hle _
  obtain ⟨a, hmem, ha⟩ := hexists
  obtain ⟨i, hi⟩ := List.mem_iff_getElem?.mp hmem
  have hc := h.stored.found hsame hi ha
  obtain ⟨htime, hssoid⟩ := h.row i a hi ha
  have hkey := h.stored.key hi ha
  -- the account found by its key is the one found by its credentials
  have hget : Account.betfairGetSsoid md5 w.accounts u p = some a := by
    cases hg : Account.betfairGetSsoid md5 w.accounts u p with
    | none =>
        have hno := List.find?_eq_none.mp hg a (List.mem_of_getElem? hi)
        exact absurd (decide_eq_true hkey) hno
    | some b =>
        have hfound := List.find?_some hg
        have hb : b.uniq = some (Account.sessionKey md5 u p) := of_decide_eq_true hfound
        obtain ⟨j, hj⟩ := List.mem_iff_getElem?.mp (List.mem_of_find?_eq_some hg)
        have hji := h.stored.single j i b a hj hi hb hkey
        rw [hji, hi] at hj
        exact hj.symm
  have hcached : ∀ t s, login same md5 w.accounts u p now now' now'' answer
      = .ok (t, .cached s) → Live now' a ∧ s = a.ssoid := by
    intro t s hr
    rcases login_cases hr with ⟨j, b, c, hc', _, hl', hg, hs, _⟩ | ⟨_, _, _, _, hs, _⟩
    · rw [hc] at hc'
      cases hc'
      rw [hget] at hg
      cases hg
      cases hs
      exact ⟨hl', rfl⟩
    · exact absurd hs (by simp)
  refine ⟨⟨?_, ?_⟩, ?_⟩
  · intro hskip
    obtain ⟨t, s, hr⟩ := hskip
    obtain ⟨⟨time, ht, hlt⟩, _⟩ := hcached t s hr
    rw [htime] at ht
    obtain ⟨e, he, rfl⟩ := Option.map_eq_some_iff.mp ht
    obtain ⟨hmem, hu, hp⟩ := latest_spec he
    exact ⟨e, hmem, hu, hp, hlt⟩
  · intro hrecent
    obtain ⟨e, hmem, hu, hp, hlt⟩ := hrecent
    obtain ⟨l, hl, hel⟩ := latest_youngest h.ordered hmem hu hp
    rw [hl] at htime
    have hlive' : Live now' a := ⟨l.time, htime, by omega⟩
    exact ⟨_, _, login_cached hc (live_earlier hle hlive') hlive' hget⟩
  · intro t s hr
    rw [(hcached t s hr).2, hssoid]

instance (a : Sessions.Act) : Decidable (NoEdit a) := by
  unfold NoEdit
  split <;> infer_instance

/-- What is said of the account that is found. -/
instance (x : Option (Nat × Account)) (q : Nat → Account → Prop) [∀ i a, Decidable (q i a)] :
    Decidable (∀ i a, x = some (i, a) → q i a) :=
  match x with
  | none => isTrue (fun _ _ h => absurd h (Option.some_ne_none _).symm)
  | some (i, a) => decidable_of_iff (q i a) ⟨fun h _ _ heq => by cases heq; exact h,
      fun h => h i a rfl⟩

instance (same : String → String → Bool) (md5 : String → String) (u p : String) (w : Sessions)
    (a : Sessions.Act) : Decidable (KeepsCache same md5 u p w a) := by
  unfold KeepsCache
  split <;> infer_instance

/-- Nobody is known yet. -/
def noAccounts : Sessions := ⟨[], 0, []⟩

theorem noAccounts_init : Sessions.Init noAccounts := ⟨rfl, rfl⟩

/-- The digests of the two accounts below. -/
def twoDigests (s : String) : String :=
  if s = "anasecretbetfair" then "52d3a9883a584339f2d5838047f3e6c7"
  else if s = "bobhunterbetfair" then "6e6c26888018c847e386abdb5df10d80"
  else s

/-- Bob is refused, Ana is not. -/
def oneRefused : List Sessions.Act :=
  [.create (some "ana") (some "secret") (some "betfair"),
    .create (some "bob") (some "hunter") (some "betfair"),
    .login "bob" "hunter" 0 0 1 none, .login "ana" "secret" 0 0 1 (some "t1"), .advance 600]

/-- The endpoint answers every call with a token. -/
def NoRefusal : Sessions.Act → Prop
  | .login _ _ _ _ _ answer => answer ≠ none
  | _ => True

instance (a : Sessions.Act) : Decidable (NoRefusal a) := by
  unfold NoRefusal
  split <;> infer_instance

/-- Nobody signs up after the first. -/
def SoleAccount (w : Sessions) : Sessions.Act → Prop
  | .create _ _ _ => w.accounts = []
  | _ => True

instance (w : Sessions) (a : Sessions.Act) : Decidable (SoleAccount w a) := by
  unfold SoleAccount
  split <;> infer_instance

/-- A stored account of `(u, p)`, with the session it has. -/
def holder (md5 : String → String) (u p : String) (ssoid : Option String) (time : Option Int) :
    Account :=
  ⟨some u, some p, some "betfair", some (Account.sessionKey md5 u p), ssoid, time⟩

/-- Ana's account, with the session it has. -/
def ana (md5 : String → String) : Option String → Option Int → Account := holder md5 "ana" "secret"

def createAna : Sessions.Act := .create (some "ana") (some "secret") (some "betfair")

/-- One account whose login is refused: it has a session without a token. -/
theorem refused_reachable (c : Collation) (md5 : String → String) :
    Reachable (Sessions.act c.same md5) (fun _ a => NoEdit a) Sessions.Init
      ⟨[ana md5 none (some 0)], 0, []⟩ := by
  have hrun : run (Sessions.act c.same md5) (fun _ a => NoEdit a) noAccounts
      [createAna, .login "ana" "secret" 0 0 0 none] = some ⟨[ana md5 none (some 0)], 0, []⟩ := by
    cases c <;> rfl
  exact ⟨noAccounts, noAccounts_init, path_of_run hrun⟩

/-- Neither of two accounts with one key can be saved. -/
theorem login_twins (c : Collation) (md5 : String → String) (token : String) :
    login c.same md5 [ana md5 none none, ana md5 none none] "ana" "secret" 0 0 0 (some token)
      = .ok ([ana md5 none none, ana md5 none none], .asked (some token)) := by
  have hasked : login c.same md5 [ana md5 none none, ana md5 none none] "ana" "secret" 0 0 0
      (some token) = .ok (Account.save md5 [ana md5 none none, ana md5 none none] 0
          (ana md5 (some token) (some 0)), .asked (some token)) := by
    cases c <;> rfl
  have hsave : Account.save md5 [ana md5 none none, ana md5 none none] 0
      (ana md5 (some token) (some 0)) = [ana md5 none none, ana md5 none none] := by
    simp [Account.save, Account.uniqFree, ana, holder]
  rw [hasked, hsave]

/-- Two accounts with one key, and a token that was issued and not stored. -/
theorem twins_reachable (c : Collation) (md5 : String → String) :
    Reachable (Sessions.act c.same md5) (fun _ a => NoEdit a ∧ NoRefusal a) Sessions.Init
      ⟨[ana md5 none none, ana md5 none none], 0, [⟨"ana", "secret", "t1", 0⟩]⟩ := by
  have hrun : run (Sessions.act c.same md5) (fun _ a => NoEdit a ∧ NoRefusal a) noAccounts
      [createAna, createAna] = some ⟨[ana md5 none none, ana md5 none none], 0, []⟩ := by
    cases c <;> rfl
  have hlogin : Sessions.act c.same md5 ⟨[ana md5 none none, ana md5 none none], 0, []⟩
      (.login "ana" "secret" 0 0 0 (some "t1"))
      = some ⟨[ana md5 none none, ana md5 none none], 0, [⟨"ana", "secret", "t1", 0⟩]⟩ := by
    simp [Sessions.act, login_twins, received]
  exact ⟨noAccounts, noAccounts_init,
    Lib.Path.tail (path_of_run hrun) (by decide) hlogin⟩

/-- Somebody logs in under Ana's name in capitals, and is given a session in her account. -/
theorem capitals_reachable (md5 : String → String) :
    Reachable (Sessions.act ignoreCase md5) (fun w a => NoEdit a ∧ NoRefusal a ∧ SoleAccount w a)
      Sessions.Init ⟨[ana md5 (some "t1") (some 0)], 0, [⟨"ANA", "secret", "t1", 0⟩]⟩ := by
  have hrun : run (Sessions.act ignoreCase md5)
      (fun w a => NoEdit a ∧ NoRefusal a ∧ SoleAccount w a)
      noAccounts [createAna, .login "ANA" "secret" 0 0 0 (some "t1")]
      = some ⟨[ana md5 (some "t1") (some 0)], 0, [⟨"ANA", "secret", "t1", 0⟩]⟩ := rfl
  exact ⟨noAccounts, noAccounts_init, path_of_run hrun⟩

/-- The session of Ana's account is valid, and is hers by its key. -/
theorem login_ana (c : Collation) (md5 : String → String) (ssoid answer : Option String) :
    login c.same md5 [ana md5 ssoid (some 0)] "ana" "secret" 0 0 0 answer
      = .ok ([ana md5 ssoid (some 0)], .cached ssoid) := by
  have hc : Account.betfairByCreds c.same [ana md5 ssoid (some 0)] "ana" "secret"
      = some (0, ana md5 ssoid (some 0)) := by
    cases c <;> rfl
  have hget : Account.betfairGetSsoid md5 [ana md5 ssoid (some 0)] "ana" "secret"
      = some (ana md5 ssoid (some 0)) := by
    simp [Account.betfairGetSsoid, ana, holder]
  have hlive : Live 0 (ana md5 ssoid (some 0)) := ⟨0, rfl, by decide⟩
  exact login_cached hc hlive hlive hget

end BetterEfisis.Proof

import BetterEfisis.Proof.Cache
import Mathlib.Data.List.Nodup

/-!
# Whose token it is

The age of a session is tested on the account with the given credentials, and the
token is then taken from the first account under their key. An account that is
edited keeps its session, and its new key is not compared with those of the
others, since `uniq` is recomputed after the validation. And a login whose
credentials the database takes for those of an account is answered into that
account. So the token of one pair of credentials can come out for another
(`token_mixed`).

Where no edit takes a live session to other credentials, none puts an account in
front of a live session under its key, and every login finds an account with its own
credentials, every token returned was issued for the credentials given. Nothing is
assumed of the digest, nor of how the database compares texts.
-/

namespace BetterEfisis.Proof

open Lib Betfair Sessions

/-- Runs in which every login that asks receives a token, and never one that was issued before. -/
def FreshTokens (w : Sessions) : Sessions.Act → Prop
  | .login _ _ _ _ _ answer => ∃ token, answer = some token ∧ ∀ e ∈ w.issued, e.token ≠ token
  | _ => True

/-- The edit of an account is saved. -/
def Saves (w : Sessions) (i : Nat) (a : Account) : Prop :=
  a.presentFields = true ∧ a.uniqFree (w.accounts.eraseIdx i) = true

/--
An edit of account `a` at place `i` to `a'` that keeps sessions apart, if it is saved:
it leaves the credentials of a live session alone, and gives no account the key of a
live session behind it, nor a live session the key of an account in front of it.
-/
def Apart (md5 : String → String) (w : Sessions) (i : Nat) (a a' : Account) : Prop :=
  (Live w.now a → a'.username = a.username ∧ a'.password = a.password)
    ∧ (∀ b ∈ w.accounts.drop (i + 1), Live w.now b → b.uniq ≠ some (a'.digest md5))
    ∧ (Live w.now a → ∀ b ∈ w.accounts.take i, b.uniq ≠ some (a'.digest md5))

/-- The account the database finds for `(u, p)` has these credentials, letter by letter. -/
def FindsOwn (same : String → String → Bool) (w : Sessions) (u p : String) : Prop :=
  ∀ i a, Account.betfairByCreds same w.accounts u p = some (i, a) → AccountOf u p a

/-- The edits and logins that keep sessions apart. -/
def KeepsSessions (same : String → String → Bool) (md5 : String → String) (w : Sessions) :
    Sessions.Act → Prop
  | .edit i username password service =>
      match w.accounts[i]? with
      | some a =>
          Saves w i (edited a username password service) →
            Apart md5 w i a (edited a username password service)
      | none => True
  | .login username password _ _ _ _ => FindsOwn same w username password
  | _ => True

/-- `token` was issued for `(u, p)`, and for nobody else. -/
def OwnToken (u p : String) (issued : List Issue) (token : String) : Prop :=
  (∃ e ∈ issued, e.username = u ∧ e.password = p ∧ e.token = token)
    ∧ ∀ e ∈ issued, e.token = token → e.username = u ∧ e.password = p

/-- What a call of `login(u, p)` returns was issued for `(u, p)`, before or by this call. -/
def TokensKeptApart (same : String → String → Bool) (md5 : String → String) (u p : String)
    (w : Sessions) : Prop :=
  ∀ now now' now'' token t r, w.now ≤ now → now ≤ now' → now' ≤ now'' →
    (∀ e ∈ w.issued, e.token ≠ token) →
    login same md5 w.accounts u p now now' now'' (some token) = .ok (t, r) →
    ∃ s, r.ssoid = some s ∧ OwnToken u p (received u p now'' r ++ w.issued) s

variable {same : String → String → Bool}

structure TokenInv (md5 : String → String) (w : Sessions) : Prop where
  hashed : ∀ (i : Nat) (a : Account), w.accounts[i]? = some a → a.uniq = some (a.digest md5)
  /-- A live session has a token that was issued for the credentials of its account. -/
  owned : ∀ (i : Nat) (a : Account), w.accounts[i]? = some a → Live w.now a →
    ∃ e ∈ w.issued, a.username = some e.username ∧ a.password = some e.password
      ∧ a.ssoid = some e.token
  /-- It is the first account under its key. -/
  first : ∀ (i j : Nat) (a b : Account), w.accounts[i]? = some a → Live w.now a → j < i →
    w.accounts[j]? = some b → b.uniq ≠ a.uniq
  distinct : (w.issued.map Issue.token).Nodup

theorem tokenInv_init {md5 : String → String} {w : Sessions} (h : Sessions.Init w) :
    TokenInv md5 w := by
  obtain ⟨h1, h2⟩ := h
  constructor <;> simp [h1, h2]

/-- Time only ends sessions. -/
theorem tokenInv_later {md5 : String → String} {w : Sessions} (h : TokenInv md5 w) {now : Int}
    (hle : w.now ≤ now) : TokenInv md5 { w with now := now } where
  hashed := h.hashed
  owned := fun i a hi hl => h.owned i a hi (live_earlier hle hl)
  first := fun i j a b hi hl => h.first i j a b hi (live_earlier hle hl)
  distinct := h.distinct

/-- A new account has no session, and comes after all others. -/
theorem tokenInv_create {md5 : String → String} {w : Sessions} (h : TokenInv md5 w)
    (username password service : Option String) :
    TokenInv md5 { w with accounts := Account.create md5 w.accounts username password service }
    := by
  rcases create_cases md5 w.accounts username password service with he | ⟨_, he⟩
  · rw [he]
    exact h
  · rw [he]
    have hnew : ¬ Live w.now ((Account.new username password service).beforeSave md5) := by
      intro hl
      obtain ⟨time, ht, _⟩ := hl
      exact absurd ht (by simp [Account.new, Account.beforeSave])
    refine ⟨?_, ?_, ?_, h.distinct⟩
    · refine hashed_iff.mp ?_
      rw [← he]
      exact hashed_create (hashed_iff.mpr h.hashed) username password service
    · intro i a hi hl
      rcases getElem?_snoc_cases hi with hold | ⟨_, rfl⟩
      · exact h.owned i a hold hl
      · exact absurd hl hnew
    · intro i j a b hi hl hj hb
      rcases getElem?_snoc_cases hi with hold | ⟨_, rfl⟩
      · have hlt := (List.getElem?_eq_some_iff.mp hold).1
        rcases getElem?_snoc_cases hb with hb' | ⟨hjl, _⟩
        · exact h.first i j a b hold hl hj hb'
        · omega
      · exact absurd hl hnew

theorem mem_take_of_getElem? {t : List Account} {i j : Nat} {b : Account} (hj : j < i)
    (hb : t[j]? = some b) : b ∈ t.take i := by
  have htake : (t.take i)[j]? = some b := by rw [List.getElem?_take_of_lt hj, hb]
  exact List.mem_of_getElem? htake

theorem mem_drop_of_getElem? {t : List Account} {i j : Nat} {b : Account} (hj : i < j)
    (hb : t[j]? = some b) : b ∈ t.drop (i + 1) := by
  have hdrop : (t.drop (i + 1))[j - (i + 1)]? = some b := by
    rw [List.getElem?_drop, ← hb]
    congr 1
    omega
  exact List.mem_of_getElem? hdrop

/-- An edit that keeps sessions apart. -/
theorem tokenInv_edit {md5 : String → String} {w : Sessions} (h : TokenInv md5 w)
    {i : Nat} {username password service : Option String} {a : Account}
    (hi : w.accounts[i]? = some a)
    (hok : KeepsSessions same md5 w (.edit i username password service)) :
    TokenInv md5 { w with
      accounts := Account.save md5 w.accounts i (edited a username password service) } := by
  rcases save_cases md5 w.accounts i (edited a username password service) with he
    | ⟨hpres, hfree, he⟩
  · rw [he]
    exact h
  · rw [he]
    have hapart : Apart md5 w i a (edited a username password service) := by
      rw [KeepsSessions, hi] at hok
      exact hok ⟨hpres, uniqFree_eraseIdx.mpr hfree⟩
    obtain ⟨hsame, hafter, hbefore⟩ := hapart
    -- the session of the account is the one it had
    have hlive : ∀ {now : Int}, Live now ((edited a username password service).beforeSave md5) →
        Live now a := fun hl => hl
    refine ⟨?_, ?_, ?_, h.distinct⟩
    · refine hashed_iff.mp ?_
      rw [← he]
      exact hashed_save (hashed_iff.mpr h.hashed) i _
    · intro k b hk hl
      rcases getElem?_set_cases hk with ⟨_, rfl⟩ | ⟨_, hk'⟩
      · obtain ⟨e, he', h1, h2, h3⟩ := h.owned i a hi (hlive hl)
        obtain ⟨hu, hp⟩ := hsame (hlive hl)
        exact ⟨e, he', hu.trans h1, hp.trans h2, h3⟩
      · exact h.owned k b hk' hl
    · intro k j b c hk hl hj hc
      rcases getElem?_set_cases hk with ⟨rfl, rfl⟩ | ⟨hne, hk'⟩ <;>
        rcases getElem?_set_cases hc with ⟨rfl, rfl⟩ | ⟨_, hc'⟩
      · omega
      · exact hbefore (hlive hl) c (mem_take_of_getElem? hj hc')
      · intro heq
        exact hafter b (mem_drop_of_getElem? hj hk') hl heq.symm
      · exact h.first k j b c hk' hl hj hc'

/-- A login that asks the endpoint and receives a token that was never issued before. -/
theorem tokenInv_login {md5 : String → String} {w : Sessions} (h : TokenInv md5 w)
    {u p token : String} {now : Int} {i : Nat} {a : Account} (hle : w.now ≤ now)
    (hi : w.accounts[i]? = some a) (ha : AccountOf u p a)
    (hfresh : ∀ e ∈ w.issued, e.token ≠ token) :
    TokenInv md5
      { accounts := Account.save md5 w.accounts i { a with time := some now, ssoid := some token }
        now := now
        issued := ⟨u, p, token, now⟩ :: w.issued } := by
  have hdistinct : ((⟨u, p, token, now⟩ :: w.issued).map Issue.token).Nodup := by
    rw [List.map_cons, List.nodup_cons]
    refine ⟨?_, h.distinct⟩
    intro hmem
    obtain ⟨e, he, heq⟩ := List.mem_map.mp hmem
    exact hfresh e he heq
  have howned : ∀ (k : Nat) (b : Account), w.accounts[k]? = some b → Live now b →
      ∃ e ∈ (⟨u, p, token, now⟩ :: w.issued : List Issue), b.username = some e.username
        ∧ b.password = some e.password ∧ b.ssoid = some e.token := by
    intro k b hk hl
    obtain ⟨e, he, hrest⟩ := h.owned k b hk (live_earlier hle hl)
    exact ⟨e, List.mem_cons_of_mem _ he, hrest⟩
  obtain ⟨hu, hp, _⟩ := accountOf_iff.mp ha
  rcases save_cases md5 w.accounts i { a with time := some now, ssoid := some token } with he
    | ⟨_, hfree, he⟩
  · rw [he]
    exact ⟨h.hashed, howned, fun k j b c hk hl => h.first k j b c hk (live_earlier hle hl),
      hdistinct⟩
  · rw [he]
    refine ⟨?_, ?_, ?_, hdistinct⟩
    · refine hashed_iff.mp ?_
      rw [← he]
      exact hashed_save (hashed_iff.mpr h.hashed) i _
    · intro k b hk hl
      rcases getElem?_set_cases hk with ⟨_, rfl⟩ | ⟨_, hk'⟩
      · exact ⟨_, List.mem_cons_self, hu, hp, rfl⟩
      · exact howned k b hk' hl
    · intro k j b c hk hl hj hc
      -- the saved account kept its key, which nobody else has
      have hkey : (Account.beforeSave md5 { a with time := some now, ssoid := some token }).uniq
          = a.uniq := (h.hashed i a hi).symm
      rcases getElem?_set_cases hk with ⟨rfl, rfl⟩ | ⟨hne, hk'⟩ <;>
        rcases getElem?_set_cases hc with ⟨rfl, rfl⟩ | ⟨hnc, hc'⟩
      · omega
      · rw [hkey]
        exact hfree j c hc' hnc
      · rw [hkey]
        exact (hfree k b hk' hne).symm
      · exact h.first k j b c hk' (live_earlier hle hl) hj hc'

theorem tokenInv_step {md5 : String → String} {w w' : Sessions} {a : Sessions.Act}
    (h : TokenInv md5 w) (hfresh : FreshTokens w a) (hok : KeepsSessions same md5 w a)
    (hs : Sessions.act same md5 w a = some w') : TokenInv md5 w' := by
  cases a with
  | create username password service =>
      injection hs with hs
      rw [← hs]
      exact tokenInv_create h username password service
  | edit i username password service =>
      rw [Sessions.act] at hs
      split at hs
      · rename_i row hi
        injection hs with hs
        rw [← hs]
        exact tokenInv_edit h hi hok
      · exact absurd hs (by simp)
  | advance d =>
      injection hs with hs
      rw [← hs]
      exact tokenInv_later h (by omega)
  | login u p d d' d'' answer =>
      have hle : w.now ≤ w.now + d + d' + d'' := by omega
      obtain ⟨token, rfl, hnew⟩ := hfresh
      rw [Sessions.act] at hs
      split at hs
      · rename_i t r hr
        injection hs with hs
        rw [← hs]
        rcases login_cases hr with ⟨_, _, _, _, _, _, _, rfl, rfl⟩ | ⟨i, row, hc, _, rfl, rfl⟩
        · exact tokenInv_later h hle
        · exact tokenInv_login h hle (byCreds_row hc).1 (hok i row hc) hnew
      · injection hs with hs
        rw [← hs]
        exact tokenInv_later h hle

theorem tokenInv_reachable {md5 : String → String} {w : Sessions}
    (h : Reachable (Sessions.act same md5)
      (fun w a => FreshTokens w a ∧ KeepsSessions same md5 w a) Sessions.Init w) : TokenInv md5 w :=
  h.invariant (fun _ => tokenInv_init) (fun _ _ _ hi hok hs => tokenInv_step hi hok.1 hok.2 hs)

/-! ## The main result -/

/-- A token is issued once, so its entry tells whose it is. -/
theorem ownToken_of_mem {u p token : String} {issued : List Issue} {e : Issue}
    (hnd : (issued.map Issue.token).Nodup) (he : e ∈ issued) (hu : e.username = u)
    (hp : e.password = p) (ht : e.token = token) : OwnToken u p issued token := by
  refine ⟨⟨e, he, hu, hp, ht⟩, ?_⟩
  intro f hf hft
  have hef : f = e := List.inj_on_of_nodup_map hnd hf he (hft.trans ht.symm)
  rw [hef]
  exact ⟨hu, hp⟩

/-- The account that a live session is read from is the one the session is of. -/
theorem getSsoid_eq {md5 : String → String} {u p : String} {w : Sessions} (h : TokenInv md5 w)
    {i : Nat} {a b : Account} (hi : w.accounts[i]? = some a)
    (ha : AccountOf u p a) (hl : Live w.now a)
    (hg : Account.betfairGetSsoid md5 w.accounts u p = some b) : b = a := by
  have hkey : a.uniq = some (Account.sessionKey md5 u p) := by
    rw [h.hashed i a hi, digest_of_accountOf ha]
  obtain ⟨hb, as, bs, heq, hnone⟩ := List.find?_eq_some_iff_append.mp hg
  have hplace : w.accounts[as.length]? = some b := by
    rw [heq]
    simp
  rcases Nat.lt_trichotomy as.length i with hlt | heqi | hgt
  · exact absurd ((of_decide_eq_true hb).trans hkey.symm)
      (h.first i as.length a b hi hl hlt hplace)
  · rw [heqi, hi] at hplace
    exact (Option.some.inj hplace).symm
  · -- nothing in front of the account that is found has the key
    have hmem : a ∈ as := by
      rw [heq, List.getElem?_append_left hgt] at hi
      exact List.mem_of_getElem? hi
    have hno := hnone a hmem
    simp [hkey] at hno

theorem tokensKeptApart_of_tokenInv {md5 : String → String} {u p : String} {w : Sessions}
    (h : TokenInv md5 w) (hfinds : FindsOwn same w u p) : TokensKeptApart same md5 u p w := by
  intro now now' now'' token t r hle _ _ hnew hr
  rcases login_cases hr with ⟨i, a, b, hc, hl, _, hg, rfl, _⟩ | ⟨i, a, _, _, rfl, _⟩
  · obtain ⟨hi, _⟩ := byCreds_row hc
    have ha := hfinds i a hc
    have hl₀ := live_earlier hle hl
    have hba := getSsoid_eq h hi ha hl₀ hg
    obtain ⟨e, he, hu, hp, ht⟩ := h.owned i a hi hl₀
    obtain ⟨hu', hp', _⟩ := accountOf_iff.mp ha
    rw [hu] at hu'
    rw [hp] at hp'
    refine ⟨e.token, by rw [hba]; exact ht, ?_⟩
    exact ownToken_of_mem h.distinct he (Option.some.inj hu') (Option.some.inj hp') rfl
  · refine ⟨token, rfl, ⟨_, List.mem_cons_self, rfl, rfl, rfl⟩, ?_⟩
    intro e he het
    rcases List.mem_cons.mp he with rfl | hold
    · exact ⟨rfl, rfl⟩
    · exact absurd het (hnew e hold)

/--
**In every run whose edits keep sessions apart and whose logins find their own
accounts, the token a login returns was issued for its credentials and for no
others, whatever the digest and however the database compares texts.**
-/
theorem tokensKeptApart_of_keepsSessions (same : String → String → Bool) (md5 : String → String)
    (u p : String) (w : Sessions)
    (h : Reachable (Sessions.act same md5)
      (fun w a => FreshTokens w a ∧ KeepsSessions same md5 w a) Sessions.Init w)
    (hfinds : FindsOwn same w u p) : TokensKeptApart same md5 u p w :=
  tokensKeptApart_of_tokenInv (tokenInv_reachable h) hfinds

instance (now : Int) (a : Account) : Decidable (Live now a) :=
  decidable_of_iff (a.time.any (fun time => decide (now - time < 1200)) = true)
    (by simp [Live, Option.any_eq_true])

instance (w : Sessions) : (a : Sessions.Act) → Decidable (FreshTokens w a)
  | .login _ _ _ _ _ answer =>
    decidable_of_iff
      (answer.any (fun token => decide (∀ e ∈ w.issued, e.token ≠ token)) = true)
      (by simp [FreshTokens, Option.any_eq_true])
  | .create .. | .edit .. | .advance _ => inferInstanceAs (Decidable True)

instance (w : Sessions) (i : Nat) (a : Account) : Decidable (Saves w i a) :=
  inferInstanceAs (Decidable (_ ∧ _))

instance (md5 : String → String) (w : Sessions) (i : Nat) (a a' : Account) :
    Decidable (Apart md5 w i a a') := inferInstanceAs (Decidable (_ ∧ _ ∧ _))

instance (same : String → String → Bool) (w : Sessions) (u p : String) :
    Decidable (FindsOwn same w u p) :=
  inferInstanceAs (Decidable (∀ i a, _ = some (i, a) → AccountOf u p a))

instance (same : String → String → Bool) (md5 : String → String) (w : Sessions) :
    (a : Sessions.Act) → Decidable (KeepsSessions same md5 w a)
  | .edit i username password service =>
    decidable_of_iff
      ((w.accounts[i]?).all (fun a => decide (Saves w i (edited a username password service) →
        Apart md5 w i a (edited a username password service))) = true)
      (by cases h : w.accounts[i]? <;> simp [KeepsSessions, h, or_iff_not_imp_left])
  | .login username password _ _ _ _ =>
      inferInstanceAs (Decidable (FindsOwn same w username password))
  | .create .. | .advance _ => inferInstanceAs (Decidable True)

/-- The digests of the accounts below. -/
def threeDigests (s : String) : String :=
  if s = "bobhunterother" then "1cf2df4c6e8bb39b5bf8bdf7419952df" else twoDigests s

/-- Ana and Bob log in, and Bob's account moves to another service and back. -/
def movedBack : List Sessions.Act :=
  [createAna, .create (some "bob") (some "hunter") (some "betfair"),
    .login "ana" "secret" 0 0 0 (some "t1"), .login "bob" "hunter" 0 0 0 (some "t2"),
    .edit 1 (some "bob") (some "hunter") (some "other"),
    .edit 1 (some "bob") (some "hunter") (some "betfair")]

/-- The next login with Bob's credentials finds his session. -/
theorem tokensKeptApart_movedBack :
    ∃ w, login ignoreCase threeDigests w.accounts "bob" "hunter" 0 0 0 (some "t3")
        = .ok (w.accounts, .cached (some "t2"))
      ∧ TokensKeptApart ignoreCase threeDigests "bob" "hunter" w := by
  obtain ⟨w, hr, hcached, hfinds⟩ := reachable_of_run (Sessions.act ignoreCase threeDigests)
    (fun w a => FreshTokens w a ∧ KeepsSessions ignoreCase threeDigests w a) movedBack
    (fun w => login ignoreCase threeDigests w.accounts "bob" "hunter" 0 0 0 (some "t3")
      = .ok (w.accounts, .cached (some "t2")) ∧ FindsOwn ignoreCase w "bob" "hunter")
    noAccounts_init (by decide +kernel)
  exact ⟨w, hcached,
    tokensKeptApart_of_keepsSessions ignoreCase threeDigests "bob" "hunter" w hr hfinds⟩

/-! ## The three ways to mix them up -/

/-- No edit of an account whose session is live. -/
def EditsExpired (w : Sessions) : Sessions.Act → Prop
  | .edit i _ _ _ => ∀ a, w.accounts[i]? = some a → ¬ Live w.now a
  | _ => True

instance (w : Sessions) : (a : Sessions.Act) → Decidable (EditsExpired w a)
  | .edit i _ _ _ =>
    decidable_of_iff ((w.accounts[i]?).all (fun a => decide (¬ Live w.now a)) = true)
      (by simp [EditsExpired, Option.all_eq_true])
  | .create .. | .login .. | .advance _ => inferInstanceAs (Decidable True)

def createZoe : Sessions.Act := .create (some "zoe") (some "pw") (some "betfair")

/-- Zoe's account, with her session. -/
def zoe (md5 : String → String) : Account := holder md5 "zoe" "pw" (some "t0") (some 0)

/-- Ana logs in and then changes her password. -/
theorem changed_reachable (c : Collation) (md5 : String → String) :
    Reachable (Sessions.act c.same md5) FreshTokens Sessions.Init
      ⟨[holder md5 "ana" "changed" (some "t1") (some 0)], 0, [⟨"ana", "secret", "t1", 0⟩]⟩ := by
  have hrun : run (Sessions.act c.same md5) FreshTokens noAccounts
      [createAna, .login "ana" "secret" 0 0 0 (some "t1"),
        .edit 0 (some "ana") (some "changed") (some "betfair")]
      = some ⟨[holder md5 "ana" "changed" (some "t1") (some 0)], 0,
          [⟨"ana", "secret", "t1", 0⟩]⟩ := by
    cases c <;> rfl
  exact ⟨noAccounts, noAccounts_init, path_of_run hrun⟩

/-- Zoe's account, edited to credentials that run together to the same text as Ana's. -/
def posing (md5 : String → String) : Account := holder md5 "an" "asecret" (some "t0") (some 0)

/-- The two pairs of credentials have one key. -/
theorem key_posing (md5 : String → String) :
    Account.sessionKey md5 "an" "asecret" = Account.sessionKey md5 "ana" "secret" := rfl

/-- The session of an account in front has expired, and then it takes Ana's key. -/
theorem posing_reachable (c : Collation) {md5 : String → String} (hinj : Function.Injective md5) :
    Reachable (Sessions.act c.same md5) (fun w a => FreshTokens w a ∧ EditsExpired w a)
      Sessions.Init
      ⟨[posing md5, ana md5 (some "t1") (some 1200)], 1200,
        [⟨"ana", "secret", "t1", 1200⟩, ⟨"zoe", "pw", "t0", 0⟩]⟩ := by
  have hne : Account.sessionKey md5 "zoe" "pw" ≠ Account.sessionKey md5 "ana" "secret" :=
    fun h => absurd (hinj h) (by decide)
  have hzoe : run (Sessions.act c.same md5) (fun w a => FreshTokens w a ∧ EditsExpired w a)
      noAccounts
      [createZoe, .login "zoe" "pw" 0 0 0 (some "t0"), .advance 1200, createAna]
      = some ⟨[zoe md5, ana md5 none none], 1200, [⟨"zoe", "pw", "t0", 0⟩]⟩ := by
    cases c <;> rfl
  have hlogin : Sessions.act c.same md5
      ⟨[zoe md5, ana md5 none none], 1200, [⟨"zoe", "pw", "t0", 0⟩]⟩
      (.login "ana" "secret" 0 0 0 (some "t1"))
      = some ⟨[zoe md5, ana md5 (some "t1") (some 1200)], 1200,
          [⟨"ana", "secret", "t1", 1200⟩, ⟨"zoe", "pw", "t0", 0⟩]⟩ := by
    have hasked : login c.same md5 [zoe md5, ana md5 none none] "ana" "secret" 1200 1200 1200
        (some "t1")
        = .ok (Account.save md5 [zoe md5, ana md5 none none] 1 (ana md5 (some "t1") (some 1200)),
            .asked (some "t1")) := by
      cases c <;> rfl
    have hfree : (ana md5 (some "t1") (some 1200)).uniqFree
        ([zoe md5, ana md5 none none].eraseIdx 1) = true := by
      simp [Account.uniqFree, zoe, ana, holder, hne]
    have hsave : Account.save md5 [zoe md5, ana md5 none none] 1 (ana md5 (some "t1") (some 1200))
        = [zoe md5, ana md5 (some "t1") (some 1200)] := if_pos (by rw [hfree]; rfl)
    simp [Sessions.act, hasked, hsave, received]
  have hedit : Sessions.act c.same md5 ⟨[zoe md5, ana md5 (some "t1") (some 1200)], 1200,
        [⟨"ana", "secret", "t1", 1200⟩, ⟨"zoe", "pw", "t0", 0⟩]⟩
      (.edit 0 (some "an") (some "asecret") (some "betfair"))
      = some ⟨[posing md5, ana md5 (some "t1") (some 1200)], 1200,
          [⟨"ana", "secret", "t1", 1200⟩, ⟨"zoe", "pw", "t0", 0⟩]⟩ := by
    have hfree : (edited (zoe md5) (some "an") (some "asecret") (some "betfair")).uniqFree
        ([zoe md5, ana md5 (some "t1") (some 1200)].eraseIdx 0) = true := by
      simp [Account.uniqFree, edited, zoe, ana, holder, hne.symm]
    have hsave : Account.save md5 [zoe md5, ana md5 (some "t1") (some 1200)] 0
        (edited (zoe md5) (some "an") (some "asecret") (some "betfair"))
        = [posing md5, ana md5 (some "t1") (some 1200)] := if_pos (by rw [hfree]; rfl)
    show some (⟨Account.save md5 [zoe md5, ana md5 (some "t1") (some 1200)] 0
      (edited (zoe md5) (some "an") (some "asecret") (some "betfair")), _, _⟩ : Sessions) = _
    rw [hsave]
  have hexpired : ¬ Live 1200 (zoe md5) := by
    rw [live_iff rfl]
    omega
  refine ⟨noAccounts, noAccounts_init,
    Lib.Path.tail (Lib.Path.tail (path_of_run hzoe) ?_ hlogin) ?_ hedit⟩
  · exact ⟨⟨"t1", rfl, by simp⟩, trivial⟩
  · refine ⟨trivial, ?_⟩
    intro a ha
    cases ha
    exact hexpired

/-- Somebody logs in under Ana's name in capitals. -/
theorem shouted_reachable (md5 : String → String) :
    Reachable (Sessions.act ignoreCase md5) (fun w a => FreshTokens w a ∧ NoEdit a) Sessions.Init
      ⟨[ana md5 (some "t1") (some 0)], 0, [⟨"ANA", "secret", "t1", 0⟩]⟩ := by
  have hrun : run (Sessions.act ignoreCase md5) (fun w a => FreshTokens w a ∧ NoEdit a) noAccounts
      [createAna, .login "ANA" "secret" 0 0 0 (some "t1")]
      = some ⟨[ana md5 (some "t1") (some 0)], 0, [⟨"ANA", "secret", "t1", 0⟩]⟩ := rfl
  exact ⟨noAccounts, noAccounts_init, path_of_run hrun⟩

/--
**A changed password, a key that two pairs of credentials share and a query that
does not tell the cases of a letter apart all bring out the token of somebody else.**
-/
theorem token_mixed :
    (¬ ∃ (c : Collation) (md5 : String → String), ∀ u p w,
        Reachable (Sessions.act c.same md5) FreshTokens Sessions.Init w →
          TokensKeptApart c.same md5 u p w)
      ∧ (¬ ∃ (c : Collation) (md5 : String → String), Function.Injective md5 ∧ ∀ u p w,
        Reachable (Sessions.act c.same md5) (fun w a => FreshTokens w a ∧ EditsExpired w a)
          Sessions.Init w → TokensKeptApart c.same md5 u p w)
      ∧ ¬ ∃ md5 : String → String, ∀ u p w,
        Reachable (Sessions.act ignoreCase md5) (fun w a => FreshTokens w a ∧ NoEdit a)
          Sessions.Init w → TokensKeptApart ignoreCase md5 u p w := by
  refine ⟨?_, ?_, ?_⟩
  · intro h
    obtain ⟨c, md5, hall⟩ := h
    have hown := hall "ana" "changed" _ (changed_reachable c md5)
    have hget : Account.betfairGetSsoid md5 [holder md5 "ana" "changed" (some "t1") (some 0)]
        "ana" "changed" = some (holder md5 "ana" "changed" (some "t1") (some 0)) := by
      simp [Account.betfairGetSsoid, holder]
    have hlive : Live 0 (holder md5 "ana" "changed" (some "t1") (some 0)) := ⟨0, rfl, by decide⟩
    have hcreds : Account.betfairByCreds c.same [holder md5 "ana" "changed" (some "t1") (some 0)]
        "ana" "changed" = some (0, holder md5 "ana" "changed" (some "t1") (some 0)) := by
      cases c <;> rfl
    obtain ⟨s, hs, ⟨e, he, _, hp, _⟩, _⟩ := hown 0 0 0 "t2" _ _ (Int.le_refl _) (Int.le_refl _)
      (Int.le_refl _) (by simp) (login_cached hcreds hlive hlive hget)
    rw [List.mem_singleton.mp he] at hp
    exact absurd hp (by decide)
  · intro h
    obtain ⟨c, md5, hinj, hall⟩ := h
    have hown := hall "ana" "secret" _ (posing_reachable c hinj)
    have hget : Account.betfairGetSsoid md5 [posing md5, ana md5 (some "t1") (some 1200)]
        "ana" "secret" = some (posing md5) := by
      simp [Account.betfairGetSsoid, posing, holder, key_posing]
    have hlive : Live 1200 (ana md5 (some "t1") (some 1200)) := ⟨1200, rfl, by decide⟩
    have hcreds : Account.betfairByCreds c.same [posing md5, ana md5 (some "t1") (some 1200)]
        "ana" "secret" = some (1, ana md5 (some "t1") (some 1200)) := by
      cases c <;> rfl
    obtain ⟨s, hs, _, hown'⟩ := hown 1200 1200 1200 "t2" _ _ (Int.le_refl _) (Int.le_refl _)
      (Int.le_refl _) (by simp) (login_cached hcreds hlive hlive hget)
    cases hs
    obtain ⟨hu, _⟩ := hown' ⟨"zoe", "pw", "t0", 0⟩ (by simp [received]) rfl
    exact absurd hu (by decide)
  · intro h
    obtain ⟨md5, hall⟩ := h
    have hown := hall "ana" "secret" _ (shouted_reachable md5)
    obtain ⟨s, hs, ⟨e, he, hu, _, _⟩, _⟩ := hown 0 0 0 "t2" _ _ (Int.le_refl _) (Int.le_refl _)
      (Int.le_refl _) (by simp) (login_ana .ignoreCase md5 (some "t1") (some "t2"))
    rw [List.mem_singleton.mp he] at hu
    exact absurd hu (by decide)

end BetterEfisis.Proof

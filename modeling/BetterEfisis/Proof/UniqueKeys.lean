import BetterEfisis.Lib.Keyed
import BetterEfisis.Proof.Tokens
import Mathlib.Logic.Equiv.Basic

/-!
# One account to a key

`validates_uniqueness_of :uniq` runs before `before_save` computes the key. A new
account has no `uniq` when it is validated and an edited one has its old one, so
what is checked is never the value that is stored, and an account can be created
twice (`keys_shared`).

The keys stay apart exactly as long as every account that is created or edited,
and is presentable, runs its three fields together to a text no other account
has. Equal fields are one way to break that, and not the only one: `"an"` with
`"asecret"` runs together to the text of `"ana"` with `"secret"`.
-/

namespace BetterEfisis.Proof

open Lib Betfair Sessions

/-- What `before_save` takes the digest of. -/
def keyText (a : Account) : String :=
  a.username.getD "" ++ a.password.getD "" ++ a.service.getD ""

/-- No account of `t` runs together to the text of `a`. -/
def NewText (t : List Account) (a : Account) : Prop := ∀ b ∈ t, keyText b ≠ keyText a

/-- The creations and edits that give no account the text of another. -/
def NewKeys (w : Sessions) : Sessions.Act → Prop
  | .create username password service =>
      (Account.new username password service).presentFields = true →
        NewText w.accounts (Account.new username password service)
  | .edit i username password service =>
      match w.accounts[i]? with
      | some a =>
          (edited a username password service).presentFields = true →
            NewText (w.accounts.eraseIdx i) (edited a username password service)
      | none => True
  | _ => True

/-- No two accounts share their `uniq`, nor their username, password and service. -/
def UniqueKeys (w : Sessions) : Prop :=
  Keyed Account.uniq w.accounts
    ∧ Keyed (fun a => (a.username, a.password, a.service)) w.accounts

theorem digest_eq (md5 : String → String) (a : Account) : a.digest md5 = md5 (keyText a) := rfl

/-- Where all are hashed, the fields of two accounts differ if their keys do. -/
theorem keyed_fields {md5 : String → String} {t : List Account} (h : Hashed md5 t)
    (hk : Keyed Account.uniq t) : Keyed (fun a => (a.username, a.password, a.service)) t := by
  refine hk.of_coarser ?_
  intro a ha b hb heq
  simp only [Prod.mk.injEq] at heq
  obtain ⟨hu, hp, hs⟩ := heq
  rw [h a ha, h b hb]
  simp [Account.digest, hu, hp, hs]

/-- Distinct digests of stored accounts are distinct texts. -/
theorem newText_iff {md5 : String → String} (hmd5 : Function.Injective md5) {t : List Account}
    (h : Hashed md5 t) {a : Account} :
    NewText t a ↔ ∀ b ∈ t, b.uniq ≠ some (a.digest md5) := by
  constructor
  · intro hn b hb heq
    rw [h b hb, digest_eq, digest_eq] at heq
    exact hn b hb (hmd5 (Option.some.inj heq))
  · intro hn b hb heq
    refine hn b hb ?_
    rw [h b hb, digest_eq, digest_eq, heq]

/-- A creation keeps the keys apart exactly if it adds no text that is stored. -/
theorem keyed_create {md5 : String → String} (hmd5 : Function.Injective md5) {t : List Account}
    (h : Hashed md5 t) (hk : Keyed Account.uniq t) (u p s : Option String) :
    Keyed Account.uniq (Account.create md5 t u p s) ↔
      ((Account.new u p s).presentFields = true → NewText t (Account.new u p s)) := by
  by_cases hp : (Account.new u p s).presentFields = true
  · -- the new account has no `uniq` yet, and every stored one has
    have hfree : (Account.new u p s).uniqFree t = true := by
      simp only [Account.uniqFree, Bool.not_eq_true', List.any_eq_false, decide_eq_true_eq]
      intro b hb
      rw [h b hb]
      exact Option.some_ne_none _
    have he : Account.create md5 t u p s = t ++ [(Account.new u p s).beforeSave md5] := by
      unfold Account.create
      exact if_pos (by rw [hp, hfree]; rfl)
    rw [he, keyed_snoc, newText_iff hmd5 h]
    constructor
    · intro hs _
      exact hs.2
    · intro hn
      exact ⟨hk, hn hp⟩
  · have he : Account.create md5 t u p s = t := by
      unfold Account.create
      exact if_neg (by simp [hp])
    rw [he]
    exact ⟨fun _ hpres => absurd hpres hp, fun _ => hk⟩

/-- And so does a save of the account at place `i` under its old `uniq`. -/
theorem keyed_save {md5 : String → String} (hmd5 : Function.Injective md5) {t : List Account}
    (h : Hashed md5 t) (hk : Keyed Account.uniq t) {i : Nat} {a a' : Account}
    (hi : t[i]? = some a) (hold : a'.uniq = a.uniq) :
    Keyed Account.uniq (Account.save md5 t i a') ↔
      (a'.presentFields = true → NewText (t.eraseIdx i) a') := by
  by_cases hp : a'.presentFields = true
  · -- the key that is validated is the one the account has had so far
    have hfree : a'.uniqFree (t.eraseIdx i) = true := by
      rw [uniqFree_eraseIdx]
      intro j b hj hne heq
      exact hne (keyed_iff.mp hk j i b a hj hi (heq.trans hold))
    have he : Account.save md5 t i a' = t.set i (a'.beforeSave md5) := by
      unfold Account.save
      exact if_pos (by rw [hp, hfree]; rfl)
    have herase : Hashed md5 (t.eraseIdx i) := fun b hb => h b (List.mem_of_mem_eraseIdx hb)
    rw [he, keyed_set hk hi, newText_iff hmd5 herase]
    constructor
    · intro hs _ b hb
      obtain ⟨j, hne, hj⟩ := List.mem_eraseIdx_iff_getElem?.mp hb
      exact hs j b hj hne
    · intro hn j b hj hne
      exact hn hp b (List.mem_eraseIdx_iff_getElem?.mpr ⟨j, hne, hj⟩)
  · have he : Account.save md5 t i a' = t := by
      unfold Account.save
      exact if_neg (by simp [hp])
    rw [he]
    exact ⟨fun _ hpres => absurd hpres hp, fun _ => hk⟩

variable {same : String → String → Bool}

/-- A login saves the account it found with the fields it has. -/
theorem keyed_login {md5 : String → String} (hmd5 : Function.Injective md5) {t t' : List Account}
    (h : Hashed md5 t) (hk : Keyed Account.uniq t) {u p : String} {now now' now'' : Int}
    {answer : Option String} {r : Login}
    (hl : login same md5 t u p now now' now'' answer = .ok (t', r)) :
    Hashed md5 t' ∧ Keyed Account.uniq t' := by
  rcases login_cases hl with ⟨_, _, _, _, _, _, _, _, rfl⟩ | ⟨i, a, hc, _, _, rfl⟩
  · exact ⟨h, hk⟩
  · obtain ⟨hi, _⟩ := byCreds_row hc
    have hiff := @keyed_save md5 hmd5 t h hk i a { a with time := some now'', ssoid := answer } hi
      rfl
    refine ⟨hashed_save h i _, hiff.mpr ?_⟩
    intro _ b hb heq
    obtain ⟨j, hne, hj⟩ := List.mem_eraseIdx_iff_getElem?.mp hb
    have huniq : b.uniq = a.uniq := by
      rw [h b (List.mem_of_getElem? hj), h a (List.mem_of_getElem? hi), digest_eq, digest_eq]
      exact congrArg (fun text => some (md5 text)) heq
    exact hne (keyed_iff.mp hk j i b a hj hi huniq)

/-- **What a step does to the keys.** -/
theorem keys_act {md5 : String → String} (hmd5 : Function.Injective md5) {w w' : Sessions}
    {a : Sessions.Act} (h : Hashed md5 w.accounts) (hk : Keyed Account.uniq w.accounts)
    (hs : Sessions.act same md5 w a = some w') :
    Hashed md5 w'.accounts ∧ (Keyed Account.uniq w'.accounts ↔ NewKeys w a) := by
  cases a with
  | create u p s =>
      injection hs with hs
      rw [← hs]
      exact ⟨hashed_create h u p s, keyed_create hmd5 h hk u p s⟩
  | edit i u p s =>
      rw [Sessions.act] at hs
      rw [NewKeys]
      cases hi : w.accounts[i]? with
      | none =>
          rw [hi] at hs
          exact absurd hs (by simp)
      | some a =>
          rw [hi] at hs
          injection hs with hs
          rw [← hs]
          exact ⟨hashed_save h i _, keyed_save hmd5 h hk hi rfl⟩
  | login u p d d' d'' answer =>
      rw [Sessions.act] at hs
      split at hs
      · rename_i t r hl
        injection hs with hs
        rw [← hs]
        obtain ⟨hh, hk'⟩ := keyed_login hmd5 h hk hl
        exact ⟨hh, iff_of_true hk' trivial⟩
      · injection hs with hs
        rw [← hs]
        exact ⟨h, iff_of_true hk trivial⟩
  | advance d =>
      injection hs with hs
      rw [← hs]
      exact ⟨h, iff_of_true hk trivial⟩

theorem keys_reachable {md5 : String → String} (hmd5 : Function.Injective md5) {w : Sessions}
    (h : Reachable (Sessions.act same md5) NewKeys Sessions.Init w) :
    Hashed md5 w.accounts ∧ Keyed Account.uniq w.accounts := by
  refine h.invariant (I := fun w => Hashed md5 w.accounts ∧ Keyed Account.uniq w.accounts) ?_ ?_
  · intro w hw
    rw [hw.1]
    exact ⟨fun a ha => absurd ha List.not_mem_nil, keyed_nil⟩
  · intro w a w' hinv hok hs
    obtain ⟨hhash, hiff⟩ := keys_act hmd5 hinv.1 hinv.2 hs
    exact ⟨hhash, hiff.mpr hok⟩

/--
**The keys are unique as long as no account is given the text of another.** A step
that does give it one ends that.
-/
theorem uniqueKeys_of_newKeys (same : String → String → Bool) (md5 : String → String)
    (hmd5 : Function.Injective md5) :
    ∀ w, Reachable (Sessions.act same md5) NewKeys Sessions.Init w →
      UniqueKeys w
        ∧ ∀ a w', Sessions.act same md5 w a = some w' → (UniqueKeys w' ↔ NewKeys w a) := by
  intro w h
  obtain ⟨hhash, hkeyed⟩ := keys_reachable hmd5 h
  refine ⟨⟨hkeyed, keyed_fields hhash hkeyed⟩, ?_⟩
  intro a w' hs
  obtain ⟨hhash', hiff⟩ := keys_act hmd5 hhash hkeyed hs
  rw [← hiff]
  exact ⟨fun hu => hu.1, fun hk => ⟨hk, keyed_fields hhash' hk⟩⟩

instance (t : List Account) (a : Account) : Decidable (NewText t a) :=
  inferInstanceAs (Decidable (∀ b ∈ t, _))

instance (w : Sessions) : (a : Sessions.Act) → Decidable (NewKeys w a)
  | .create .. => inferInstanceAs (Decidable (_ → _))
  | .edit i username password service =>
    decidable_of_iff
      ((w.accounts[i]?).all (fun a => decide (
        (edited a username password service).presentFields = true →
          NewText (w.accounts.eraseIdx i) (edited a username password service))) = true)
      (by cases h : w.accounts[i]? <;> simp [NewKeys, h, or_iff_not_imp_left])
  | .login .. | .advance _ => inferInstanceAs (Decidable True)

/-- A digest that is one to one, and right on the texts of `movedBack`. -/
def pairedDigests : Equiv.Perm String :=
  (Equiv.swap "anasecretbetfair" "52d3a9883a584339f2d5838047f3e6c7").trans
    ((Equiv.swap "bobhunterbetfair" "6e6c26888018c847e386abdb5df10d80").trans
      (Equiv.swap "bobhunterother" "1cf2df4c6e8bb39b5bf8bdf7419952df"))

/-- Ana's and Bob's keys after Bob's account has moved to another service and back. -/
theorem uniqueKeys_movedBack :
    ∃ w, w.accounts.map Account.uniq
        = [some "52d3a9883a584339f2d5838047f3e6c7", some "6e6c26888018c847e386abdb5df10d80"]
      ∧ UniqueKeys w := by
  obtain ⟨w, hr, hkeys⟩ := reachable_of_run (Sessions.act ignoreCase pairedDigests) NewKeys
    movedBack
    (fun w => w.accounts.map Account.uniq
      = [some "52d3a9883a584339f2d5838047f3e6c7", some "6e6c26888018c847e386abdb5df10d80"])
    noAccounts_init (by decide +kernel)
  exact ⟨w, hkeys, (uniqueKeys_of_newKeys ignoreCase pairedDigests pairedDigests.injective w hr).1⟩

/-- Creations only of accounts whose three fields no stored account has. -/
def CreatesNew (w : Sessions) : Sessions.Act → Prop
  | .create username password service =>
      ∀ a ∈ w.accounts, (a.username, a.password, a.service) ≠ (username, password, service)
  | .edit _ _ _ _ => False
  | _ => True

instance (w : Sessions) : (a : Sessions.Act) → Decidable (CreatesNew w a)
  | .create .. => inferInstanceAs (Decidable (∀ a ∈ w.accounts, _))
  | .edit .. => inferInstanceAs (Decidable False)
  | .login .. | .advance _ => inferInstanceAs (Decidable True)

/--
**An account can be created twice, and two accounts with different fields can be
given one key, whatever the digest and however the database compares texts.**
-/
theorem keys_shared :
    (¬ ∃ (same : String → String → Bool) (md5 : String → String), Function.Injective md5
        ∧ ∀ w, Reachable (Sessions.act same md5) always Sessions.Init w → UniqueKeys w)
      ∧ ¬ ∃ (same : String → String → Bool) (md5 : String → String), Function.Injective md5
        ∧ ∀ w, Reachable (Sessions.act same md5) CreatesNew Sessions.Init w → UniqueKeys w := by
  constructor
  · intro h
    obtain ⟨same, md5, _, hall⟩ := h
    have hrun : run (Sessions.act same md5) always noAccounts [createAna, createAna]
        = some ⟨[ana md5 none none, ana md5 none none], 0, []⟩ := rfl
    have hkeyed := (hall _ ⟨noAccounts, noAccounts_init, path_of_run hrun⟩).1
    exact absurd (keyed_iff.mp hkeyed 0 1 _ _ rfl rfl rfl) (by decide)
  · intro h
    obtain ⟨same, md5, _, hall⟩ := h
    have hrun : run (Sessions.act same md5) CreatesNew noAccounts
        [createAna, .create (some "an") (some "asecret") (some "betfair")]
        = some ⟨[ana md5 none none, holder md5 "an" "asecret" none none], 0, []⟩ := rfl
    have hkeyed := (hall _ ⟨noAccounts, noAccounts_init, path_of_run hrun⟩).1
    exact absurd (keyed_iff.mp hkeyed 0 1 _ _ rfl rfl rfl) (by decide)

end BetterEfisis.Proof

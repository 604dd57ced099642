import BetterEfisis.Nightly
import BetterEfisis.Proof.Login

/-!
# The nightly import is restartable

On its tables an attempt is three batch inserts, each of which may be repeated and
none of which sees the work of another. So whatever the attempts before have done
is absorbed by the one that completes (`runStages_absorb`); what is left to say is
that a row keeps its place and its generated id.

The login comes before all this, and it does write: the session it opens goes into
the account. So an attempt that fails while fetching leaves the store as it was but
for that (`Untouched`), and not quite as it was (`fetching_not_silent`).
-/

namespace BetterEfisis.Proof

open Lib EventWorker

variable {md5 : String → String} {parseDate : String → Option Int}
  {same : String → String → Bool} {apiAccount : List Account → Option Account} {r : Answers}

/-- The three tables without generated ids. -/
abbrev Tables := List Event × List Market × List Selection

def tables (s : Store) : Tables := (s.events, rows s.markets, rows s.selections)

/-- Everything but the three tables and the accounts. -/
def elsewhere (s : Store) : Store :=
  { s with accounts := [], events := [], markets := [], selections := [] }

/-- Outside the three tables, only the sessions of accounts have changed. -/
structure SessionsOnly (s s' : Store) : Prop where
  accounts : s'.accounts.map credentials = s.accounts.map credentials
  elsewhere : elsewhere s' = elsewhere s

/-- In the three tables nothing has changed. -/
structure Untouched (s s' : Store) : Prop extends SessionsOnly s s' where
  events : s'.events = s.events
  markets : s'.markets = s.markets
  selections : s'.selections = s.selections

/-- The three tables have kept their rows, with their ids. -/
structure Grown (s s' : Store) : Prop extends SessionsOnly s s' where
  events : s.events <+: s'.events
  markets : s.markets <+: s'.markets
  selections : s.selections <+: s'.selections

theorem SessionsOnly.refl (s : Store) : SessionsOnly s s := ⟨rfl, rfl⟩

theorem SessionsOnly.symm {s s' : Store} (h : SessionsOnly s s') : SessionsOnly s' s :=
  ⟨h.accounts.symm, h.elsewhere.symm⟩

theorem SessionsOnly.trans {s s' s'' : Store} (h : SessionsOnly s s') (h' : SessionsOnly s' s'') :
    SessionsOnly s s'' :=
  ⟨h'.accounts.trans h.accounts, h'.elsewhere.trans h.elsewhere⟩

theorem Untouched.refl (s : Store) : Untouched s s := ⟨SessionsOnly.refl s, rfl, rfl, rfl⟩

theorem Untouched.trans {s s' s'' : Store} (h : Untouched s s') (h' : Untouched s' s'') :
    Untouched s s'' :=
  ⟨h.toSessionsOnly.trans h'.toSessionsOnly, h'.events.trans h.events,
    h'.markets.trans h.markets, h'.selections.trans h.selections⟩

/-! ## The login -/

theorem apiNew_credentials {l : Logon} {t t' : List Account}
    (h : apiNew md5 same apiAccount l t = .ok t') : t'.map credentials = t.map credentials := by
  obtain ⟨account, _, h⟩ := bind_eq_ok.mp h
  obtain ⟨u, _, h⟩ := bind_eq_ok.mp h
  obtain ⟨p, _, h⟩ := bind_eq_ok.mp h
  obtain ⟨⟨t₁, l₁⟩, hlogin, h⟩ := bind_eq_ok.mp h
  cases h
  rcases login_cases hlogin with ⟨_, _, _, _, _, _, _, _, rfl⟩ | ⟨i, a, hc, _, _, rfl⟩
  · rfl
  · exact credentials_save (byCreds_row hc).1 _ _

/-! ## The imports as stages -/

def eventStage (b : Batch) (t : Tables) : Tables :=
  (Event.validation.importRows t.1 b.events, t.2.1, t.2.2)

def marketStage (b : Batch) (t : Tables) : Tables :=
  (t.1, Market.validation.importRows t.2.1 b.markets, t.2.2)

def selectionStage (b : Batch) (t : Tables) : Tables :=
  (t.1, t.2.1, Selection.validation.importRows t.2.2 b.selections)

/-- The imports of an attempt. -/
def stages (b : Batch) : List (Tables → Tables) := [eventStage b, marketStage b, selectionStage b]

theorem stages_restartable (b : Batch) : Restartable (stages b) where
  idem := by
    intro f hf t
    simp only [stages, List.mem_cons, List.not_mem_nil, or_false] at hf
    rcases hf with rfl | rfl | rfl
    · simp only [eventStage, Validation.importRows_idem]
    · simp only [marketStage, Validation.importRows_idem]
    · simp only [selectionStage, Validation.importRows_idem]
  comm := by
    intro f hf g hg t
    simp only [stages, List.mem_cons, List.not_mem_nil, or_false] at hf hg
    rcases hf with rfl | rfl | rfl <;> rcases hg with rfl | rfl | rfl <;> rfl

/-- An import that does not raise inserts the valid rows. -/
theorem importRows_ok {t t' batch : List Event} (h : Event.importRows t batch = .ok t') :
    t' = Event.validation.importRows t batch := by
  unfold Event.importRows at h
  split at h
  · cases h
    rfl
  · exact absurd h (by simp)

/-- A batch whose rows are all stored, or all fail, raises nothing. -/
theorem importRows_again {t batch : List Event} :
    Event.importRows (Event.validation.importRows t batch) batch
      = .ok (Event.validation.importRows t batch) := by
  have hnone := Validation.filter_valid_importRows (V := Event.validation) t batch
  unfold Event.importRows
  rw [hnone, Validation.importRows_idem]
  exact if_pos List.nodup_nil

/-- **What a completed attempt does.** -/
theorem perform_ok {l : Logon} {ids ids' : Nat → Nat} {s s' : Store} :
    perform md5 parseDate same apiAccount r l ids ids' s = .ok s' ↔
      ∃ t b events, apiNew md5 same apiAccount l s.accounts = .ok t
        ∧ collect md5 parseDate r = .ok b ∧ Event.importRows s.events b.events = .ok events
        ∧ s' = { s with
            accounts := t
            events := events
            markets := Market.validation.importSaved ids s.markets b.markets
            selections := Selection.validation.importSaved ids' s.selections b.selections } := by
  constructor
  · intro h
    obtain ⟨t, ht, h⟩ := bind_eq_ok.mp h
    obtain ⟨b, hb, h⟩ := bind_eq_ok.mp h
    obtain ⟨events, he, h⟩ := bind_eq_ok.mp h
    cases h
    exact ⟨t, b, events, ht, hb, he, rfl⟩
  · intro h
    obtain ⟨t, b, events, ht, hb, he, rfl⟩ := h
    exact bind_eq_ok.mpr ⟨t, ht, bind_eq_ok.mpr ⟨b, hb, bind_eq_ok.mpr ⟨events, he, rfl⟩⟩⟩

/-- An attempt goes on with its next statement. -/
theorem path_perform {w : Nightly} {s : Store} {pc : Pc} (l : Logon) (ids : Nat → Nat)
    (h : Path (Nightly.act md5 parseDate same apiAccount r) always w ⟨s, some pc⟩) :
    Path (Nightly.act md5 parseDate same apiAccount r) always w
      ⟨(step md5 parseDate same apiAccount r l ids s pc).1,
        Nightly.goesTo (step md5 parseDate same apiAccount r l ids s pc).2⟩ := by
  have hs : Nightly.act md5 parseDate same apiAccount r ⟨s, some pc⟩ (.perform l ids) = some
      ⟨(step md5 parseDate same apiAccount r l ids s pc).1,
        Nightly.goesTo (step md5 parseDate same apiAccount r l ids s pc).2⟩ := rfl
  exact Lib.Path.tail h trivial hs

/-- The attempt that `perform` is, statement by statement. -/
theorem perform_path {l : Logon} {ids ids' : Nat → Nat} {s s' : Store}
    (h : perform md5 parseDate same apiAccount r l ids ids' s = .ok s') :
    Path (Nightly.act md5 parseDate same apiAccount r) always ⟨s, none⟩ ⟨s', none⟩ := by
  obtain ⟨t, b, events, ht, hb, he, rfl⟩ := perform_ok.mp h
  have hbegin : Nightly.act md5 parseDate same apiAccount r ⟨s, none⟩ .begin
      = some ⟨s, some .login⟩ := rfl
  have h0 : Path (Nightly.act md5 parseDate same apiAccount r) always ⟨s, none⟩ ⟨s, some .login⟩ :=
    Lib.Path.tail (Lib.Path.refl _) trivial hbegin
  have h1 := path_perform l ids h0
  simp only [step, ht, Nightly.goesTo] at h1
  have h2 := path_perform l ids h1
  simp only [step, hb, Nightly.goesTo] at h2
  have h3 := path_perform l ids h2
  simp only [step, he, Nightly.goesTo] at h3
  exact path_perform l ids' (path_perform l ids h3)

/-- Whatever attempt is in progress can fail. -/
theorem path_over {w : Nightly} {s : Store} {x : Option Pc}
    (h : Path (Nightly.act md5 parseDate same apiAccount r) always w ⟨s, x⟩) :
    Path (Nightly.act md5 parseDate same apiAccount r) always w ⟨s, none⟩ := by
  cases x with
  | none => exact h
  | some pc =>
      have hfail : Nightly.act md5 parseDate same apiAccount r ⟨s, some pc⟩ .fail
          = some ⟨s, none⟩ := rfl
      exact Lib.Path.tail h trivial hfail

/-- What holds of the store at any point of any attempt on `S`. -/
structure NightInv (md5 : String → String) (parseDate : String → Option Int) (r : Answers)
    (S : Store) (w : Nightly) : Prop where
  sessions : SessionsOnly S w.store
  /-- The tables are what some imports of the same batch have made of those of `S`. -/
  done : ∃ fs, (∀ f ∈ fs, ∃ b, collect md5 parseDate r = .ok b ∧ f ∈ stages b)
    ∧ tables w.store = runStages fs (tables S)
  /-- The events are those of `S`, or all of them are imported. -/
  events : w.store.events = S.events
    ∨ ∃ b, collect md5 parseDate r = .ok b ∧ Event.importRows S.events b.events = .ok w.store.events
  markets : S.markets <+: w.store.markets
  selections : S.selections <+: w.store.selections
  /-- What the attempt in progress imports is the batch. -/
  batch : ∀ b, (w.at_ = some (.importEvents b) ∨ w.at_ = some (.importMarkets b)
    ∨ w.at_ = some (.importSelections b)) → collect md5 parseDate r = .ok b

theorem nightInv_init (S : Store) : NightInv md5 parseDate r S ⟨S, none⟩ where
  sessions := SessionsOnly.refl S
  done := ⟨[], by simp, rfl⟩
  events := Or.inl rfl
  markets := List.prefix_refl _
  selections := List.prefix_refl _
  batch := by
    intro b hb
    simp at hb

/-- An attempt that writes nothing and imports nothing next. -/
theorem nightInv_idle {S s : Store} {x y : Option Pc} (h : NightInv md5 parseDate r S ⟨s, x⟩)
    (hy : y = none ∨ y = some .login ∨ y = some .fetch) : NightInv md5 parseDate r S ⟨s, y⟩ := by
  refine ⟨h.sessions, h.done, h.events, h.markets, h.selections, ?_⟩
  intro b hb
  rcases hy with rfl | rfl | rfl <;> simp at hb

/-- One more stage of the batch is done. -/
theorem done_snoc {S : Store} {t : Tables} {b : Batch} (f : Tables → Tables)
    (hb : collect md5 parseDate r = .ok b) (hf : f ∈ stages b)
    (h : ∃ fs, (∀ f ∈ fs, ∃ b, collect md5 parseDate r = .ok b ∧ f ∈ stages b)
      ∧ t = runStages fs (tables S)) :
    ∃ fs, (∀ f ∈ fs, ∃ b, collect md5 parseDate r = .ok b ∧ f ∈ stages b)
      ∧ f t = runStages fs (tables S) := by
  obtain ⟨fs, hfs, ht⟩ := h
  refine ⟨fs ++ [f], ?_, ?_⟩
  · intro g hg
    rcases List.mem_append.mp hg with h' | h'
    · exact hfs g h'
    · rw [List.mem_singleton.mp h']
      exact ⟨b, hb, hf⟩
  · rw [runStages, List.foldl_append, ht]
    rfl

/-- One statement of an attempt. -/
theorem nightInv_perform {S s : Store} {pc : Pc} (l : Logon) (ids : Nat → Nat)
    (h : NightInv md5 parseDate r S ⟨s, some pc⟩) :
    NightInv md5 parseDate r S ⟨(step md5 parseDate same apiAccount r l ids s pc).1,
      Nightly.goesTo (step md5 parseDate same apiAccount r l ids s pc).2⟩ := by
  -- an attempt that is over leaves the store where it is
  have idle : NightInv md5 parseDate r S ⟨s, none⟩ := nightInv_idle h (Or.inl rfl)
  cases pc with
  | login =>
      cases ha : apiNew md5 same apiAccount l s.accounts with
      | error x => simp only [step, ha]; exact idle
      | ok t =>
          simp only [step, ha]
          have hsess : SessionsOnly s { s with accounts := t } := ⟨apiNew_credentials ha, rfl⟩
          refine ⟨h.sessions.trans hsess, h.done, h.events, h.markets, h.selections, ?_⟩
          intro b hb
          simp [Nightly.goesTo] at hb
  | fetch =>
      cases hc : collect md5 parseDate r with
      | error x => simp only [step, hc]; exact idle
      | ok b =>
          simp only [step, hc]
          refine ⟨h.sessions, h.done, h.events, h.markets, h.selections, ?_⟩
          intro b' hb'
          simp only [Nightly.goesTo, Option.some.injEq, Pc.importEvents.injEq, reduceCtorEq,
            or_false] at hb'
          rw [hc, hb']
  | importEvents b =>
      have hb := h.batch b (Or.inl rfl)
      cases hi : Event.importRows s.events b.events with
      | error x => simp only [step, hi]; exact idle
      | ok t =>
          simp only [step, hi]
          have ht := importRows_ok hi
          refine ⟨h.sessions.trans ⟨rfl, rfl⟩, ?_, Or.inr ⟨b, hb, ?_⟩, h.markets, h.selections, ?_⟩
          · have := done_snoc (eventStage b) hb (by simp [stages]) h.done
            rw [ht]
            exact this
          · rcases h.events with he | ⟨b', hb', he⟩
            · dsimp only at he ⊢
              rw [← he]
              exact hi
            · -- the events of this batch were imported before
              rw [hb] at hb'
              cases hb'
              have hold := importRows_ok he
              dsimp only at he hold ⊢
              rw [he, ht, hold, Validation.importRows_idem]
          · intro b' hb'
            simp only [Nightly.goesTo, Option.some.injEq, Pc.importMarkets.injEq, reduceCtorEq,
              or_false, false_or] at hb'
            rw [← hb']
            exact hb
  | importMarkets b =>
      have hb := h.batch b (Or.inr (Or.inl rfl))
      refine ⟨h.sessions.trans ⟨rfl, rfl⟩, ?_, h.events, ?_, h.selections, ?_⟩
      · have := done_snoc (marketStage b) hb (by simp [stages]) h.done
        simp only [step, tables, rows_importSaved]
        exact this
      · exact h.markets.trans (List.prefix_append _ _)
      · intro b' hb'
        simp only [step, Nightly.goesTo, Option.some.injEq, Pc.importSelections.injEq,
          reduceCtorEq, false_or] at hb'
        rw [← hb']
        exact hb
  | importSelections b =>
      have hb := h.batch b (Or.inr (Or.inr rfl))
      refine ⟨h.sessions.trans ⟨rfl, rfl⟩, ?_, h.events, h.markets, ?_, ?_⟩
      · have := done_snoc (selectionStage b) hb (by simp [stages]) h.done
        simp only [step, tables, rows_importSaved]
        exact this
      · exact h.selections.trans (List.prefix_append _ _)
      · intro b' hb'
        simp [step, Nightly.goesTo] at hb'

theorem nightInv_step {S : Store} {w w' : Nightly} {a : Nightly.Act}
    (h : NightInv md5 parseDate r S w)
    (hs : Nightly.act md5 parseDate same apiAccount r w a = some w') :
    NightInv md5 parseDate r S w' := by
  obtain ⟨s, x⟩ := w
  cases a with
  | begin =>
      cases x with
      | none =>
          cases hs
          exact nightInv_idle h (Or.inr (Or.inl rfl))
      | some pc => cases hs
  | perform l ids =>
      cases x with
      | none => cases hs
      | some pc =>
          cases hs
          exact nightInv_perform l ids h
  | fail =>
      cases x with
      | none => cases hs
      | some pc =>
          cases hs
          exact nightInv_idle h (Or.inl rfl)

theorem nightInv_path {S : Store} {w : Nightly}
    (h : Path (Nightly.act md5 parseDate same apiAccount r) always ⟨S, none⟩ w) :
    NightInv md5 parseDate r S w :=
  h.preserves (fun _ _ _ hi _ hs => nightInv_step hi hs) (nightInv_init S)

/-! ## What a later attempt finds -/

theorem NightInv.grown {S : Store} {w : Nightly} (h : NightInv md5 parseDate r S w) :
    Grown S w.store := by
  refine ⟨h.sessions, ?_, h.markets, h.selections⟩
  rcases h.events with he | ⟨b, _, he⟩
  · exact he ▸ List.prefix_refl _
  · rw [importRows_ok he]
    exact Validation.importRows_prefix _ _

/-- The tables a completed attempt leaves are those one alone would have left. -/
theorem tables_absorb {S S₁ S₂ : Store} {x : Option Pc} {l : Logon} {ids ids' : Nat → Nat}
    {b : Batch} (h : NightInv md5 parseDate r S ⟨S₁, x⟩) (hb : collect md5 parseDate r = .ok b)
    (hp : perform md5 parseDate same apiAccount r l ids ids' S₁ = .ok S₂) :
    tables S₂ = runStages (stages b) (tables S) := by
  obtain ⟨t, b', events, ht, hb', he, rfl⟩ := perform_ok.mp hp
  rw [hb] at hb'
  cases hb'
  have hown : tables { S₁ with
        accounts := t
        events := events
        markets := Market.validation.importSaved ids S₁.markets b.markets
        selections := Selection.validation.importSaved ids' S₁.selections b.selections }
      = runStages (stages b) (tables S₁) := by
    rw [importRows_ok he]
    simp [tables, runStages, stages, eventStage, marketStage, selectionStage]
  -- what the attempts before have done is some of this attempt's stages
  obtain ⟨fs, hfs, hdone⟩ := h.done
  have hsub : ∀ f ∈ fs, f ∈ stages b := by
    intro f hf
    obtain ⟨b', hb', hf'⟩ := hfs f hf
    rw [hb] at hb'
    cases hb'
    exact hf'
  rw [hown, hdone]
  exact runStages_absorb (stages_restartable b) fs hsub _

/-- The import of the events raises on `S₁` where it raises on `S`. -/
theorem events_importable {S S₁ : Store} {x : Option Pc} {b : Batch} {events : List Event}
    (h : NightInv md5 parseDate r S ⟨S₁, x⟩) (hb : collect md5 parseDate r = .ok b)
    (he : Event.importRows S₁.events b.events = .ok events) :
    ∃ events', Event.importRows S.events b.events = .ok events' := by
  rcases h.events with heq | ⟨b', hb', he'⟩
  · dsimp only at heq
    exact ⟨events, heq ▸ he⟩
  · rw [hb] at hb'
    cases hb'
    exact ⟨_, he'⟩

/-- An attempt after a completed one does nothing but log in. -/
theorem perform_again {S S' : Store} {l l' : Logon} {ids ids' : Nat → Nat}
    (hp : perform md5 parseDate same apiAccount r l ids ids' S = .ok S') {t' : List Account}
    (hl : apiNew md5 same apiAccount l' S'.accounts = .ok t') (ids₁ ids₂ : Nat → Nat) :
    perform md5 parseDate same apiAccount r l' ids₁ ids₂ S' = .ok { S' with accounts := t' } := by
  obtain ⟨t, b, events, ht, hb, he, rfl⟩ := perform_ok.mp hp
  have heq := importRows_ok he
  have hm : Market.validation.importSaved ids₁
      (Market.validation.importSaved ids S.markets b.markets) b.markets
      = Market.validation.importSaved ids S.markets b.markets :=
    importSaved_of_done (by rw [rows_importSaved, Validation.importRows_idem])
  have hs : Selection.validation.importSaved ids₂
      (Selection.validation.importSaved ids' S.selections b.selections) b.selections
      = Selection.validation.importSaved ids' S.selections b.selections :=
    importSaved_of_done (by rw [rows_importSaved, Validation.importRows_idem])
  refine perform_ok.mpr ⟨t', b, events, hl, hb, ?_, ?_⟩
  · rw [heq]
    exact importRows_again
  · dsimp only
    rw [hm, hs]

/-! ## Attempts that are still fetching -/

/-- No attempt gets past the fetching. -/
def StillFetching (w : Nightly) (_ : Nightly.Act) : Prop :=
  w.at_ = none ∨ w.at_ = some .login ∨ w.at_ = some .fetch

theorem untouched_step {w w' : Nightly} {a : Nightly.Act} (hf : StillFetching w a)
    (hs : Nightly.act md5 parseDate same apiAccount r w a = some w') :
    Untouched w.store w'.store := by
  obtain ⟨s, x⟩ := w
  cases a with
  | begin =>
      cases x with
      | none =>
          cases hs
          exact Untouched.refl s
      | some pc => cases hs
  | fail =>
      cases x with
      | none => cases hs
      | some pc =>
          cases hs
          exact Untouched.refl s
  | perform l ids =>
      rcases hf with hx | hx | hx <;> dsimp only at hx <;> subst hx
      · cases hs
      · cases hs
        dsimp only [step]
        split
        · rename_i t ha
          exact ⟨⟨apiNew_credentials ha, rfl⟩, rfl, rfl, rfl⟩
        · exact Untouched.refl s
      · cases hs
        dsimp only [step]
        split <;> exact Untouched.refl s

theorem untouched_path {w w' : Nightly}
    (h : Path (Nightly.act md5 parseDate same apiAccount r) StillFetching w w') :
    Untouched w.store w'.store :=
  h.preserves (I := fun v => Untouched w.store v.store)
    (fun _ _ _ hi hok hs => hi.trans (untouched_step hok hs)) (Untouched.refl _)

/-- The digests of the two texts used here. -/
def hexdigest (s : String) : String :=
  if s = "anasecretbetfair" then "52d3a9883a584339f2d5838047f3e6c7"
  else if s = "1.1747972" then "11cca5382060611dd949a325c6dd6e04" else ""

/-- The one date used here. -/
def kickOff (s : String) : Option Int :=
  if s = "2014-03-02T15:00:00.000Z" then some 1393772400 else none

/-- All accounts are those of the one user there is. -/
def soleUser (t : List Account) : Option Account :=
  t.find? (fun a => decide (a.service = some "betfair"))

/-- That user has an account, which nobody has logged in with. -/
def signedUp (md5 : String → String) : Store :=
  { Store.boot with
    accounts := Account.create md5 [] (some "ana") (some "secret") (some "betfair") }

/-- One match, with one market and one runner. -/
def oneMatch (countryCode : Option String) : List Listed :=
  [⟨⟨"7", some "A v B", countryCode, some "2014-03-02T15:00:00.000Z", some 1⟩,
    some [⟨"1.17", some "Match Odds", none, some [⟨some 47972, some "A", some 0⟩]⟩]⟩]

/-- A British one. -/
def british : Answers := some (oneMatch (some "GB"))

/-- A login at the time 0 that is given a token. -/
def firstLogon : Logon := ⟨0, 0, 0, some "t"⟩

/-- What an attempt leaves that fails once the events are imported. -/
def interrupted : Store :=
  { signedUp hexdigest with
    accounts := [⟨some "ana", some "secret", some "betfair",
      some "52d3a9883a584339f2d5838047f3e6c7", some "t", some 0⟩]
    events := [⟨7, some "A v B", some 1393772400, some "GB", some .notStarted, some false⟩] }

theorem interrupted_run :
    run (Nightly.act hexdigest kickOff ignoreCase soleUser british) always
      ⟨signedUp hexdigest, none⟩
      [.begin, .perform firstLogon id, .perform firstLogon id, .perform firstLogon id, .fail]
      = some ⟨interrupted, none⟩ := by rfl

instance (w : Nightly) (a : Nightly.Act) : Decidable (StillFetching w a) :=
  inferInstanceAs (Decidable (_ ∨ _ ∨ _))

end BetterEfisis.Proof

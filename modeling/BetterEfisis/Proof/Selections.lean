import BetterEfisis.Lib.Keyed
import BetterEfisis.Lib.Trace
import BetterEfisis.Proof.Collected

/-!
# One selection to a runner

A runner of a market is told from the others by its selection id and its handicap.
The key of its row is the digest of the market id and the selection id, run
together, so runners that differ can have one key, and then only those are stored
that come in the first batch. A new handicap of a selection that is stored already
is never imported (`selections_lost`).

No runner is stored twice: what is listed again has the key it had before.
-/

namespace BetterEfisis.Proof

open Lib EventWorker

variable {md5 : String → String} {parseDate : String → Option Int}
  {same : String → String → Bool} {apiAccount : List Account → Option Account}

/-- What tells runners apart: the market, the selection id and the handicap. -/
abbrev Triple := String × Option Int × Option Rat

/-- The runner a row is that of. -/
def triple (x : Selection) : Triple := (x.marketId, x.selectionId, x.handicap)

/-- The runners of an entry. -/
def triples (x : Entry) : List Triple :=
  x.runners.map (fun r => (x.market.marketId, r.selectionId, r.handicap))

/-- All runners of some entries. -/
def listed (xs : List Entry) : List Triple := xs.flatMap triples

/-- The market ids of an answer are distinct, and each market lists a runner once. -/
def Distinct (n : Imports.Night) : Prop :=
  Keyed (fun x => x.market.marketId) (processed n.answers)
    ∧ ∀ x ∈ processed n.answers, (triples x).Nodup

/-- Each runner listed so far has one row, and there are no other rows. -/
def OneToOne (l : Logged Store Entry) : Prop :=
  Keyed triple (rows l.state.selections)
    ∧ ∀ t, t ∈ (rows l.state.selections).map triple ↔ t ∈ listed l.log

/--
The nights on which every runner that has not been listed before has both ids, and
runs together to a text that no runner listed before has.
-/
def NewTexts (l : Logged Store Entry) (n : Imports.Night) : Prop :=
  ∀ t ∈ listed (processed n.answers), t ∉ listed l.log →
    (t.2.1.isSome = true ∧ presentText (some t.1) = true)
      ∧ ∀ t' ∈ listed l.log, uniqText t'.1 t'.2.1 ≠ uniqText t.1 t.2.1

/-! ## The rows of a night -/

theorem map_triple_selections (md5 : String → String) (xs : List Entry) :
    (xs.flatMap (Entry.selections md5)).map triple = listed xs := map_selections md5 triple xs

theorem nodup_listed {n : Imports.Night} (h : Distinct n) :
    (listed (processed n.answers)).Nodup := by
  obtain ⟨hmarkets, hrunners⟩ := h
  refine List.nodup_flatMap.mpr ⟨hrunners, ?_⟩
  refine (List.pairwise_map.mp hmarkets).imp ?_
  intro x y hne t hx hy
  -- the first component of a triple is the id of its market
  obtain ⟨_, _, rfl⟩ := List.mem_map.mp hx
  obtain ⟨_, _, heq⟩ := List.mem_map.mp hy
  exact hne (congrArg Prod.fst heq).symm

structure SelectionInv (md5 : String → String) (l : Logged Store Entry) : Prop where
  digested : Digested md5 l.state.selections
  oneToOne : OneToOne l

/-- The rows after a night are those before it, and those of its runners that are let through. -/
theorem rows_night {l l' : Logged Store Entry} {n : Imports.Night}
    (hs : logged (Imports.act md5 parseDate same apiAccount) Imports.entries l n = some l') :
    rows l'.state.selections = Selection.validation.importRows (rows l.state.selections)
      ((processed n.answers).flatMap (Entry.selections md5)) := by
  obtain ⟨hact, _⟩ := logged_eq_some.mp hs
  obtain ⟨_, hselections⟩ := night_tables hact
  rw [hselections, rows_importSaved]

theorem listed_night {l l' : Logged Store Entry} {n : Imports.Night}
    (hs : logged (Imports.act md5 parseDate same apiAccount) Imports.entries l n = some l') :
    listed l'.log = listed l.log ++ listed (processed n.answers) := by
  obtain ⟨_, hlog⟩ := logged_eq_some.mp hs
  rw [hlog]
  exact List.flatMap_append

theorem keyed_batch {n : Imports.Night} (hn : Distinct n) :
    Keyed triple ((processed n.answers).flatMap (Entry.selections md5)) := by
  unfold Keyed
  rw [map_triple_selections md5]
  exact nodup_listed hn

/-- A runner that is listed again has the key it had before. -/
theorem keyed_night {l l' : Logged Store Entry} {n : Imports.Night} (h : SelectionInv md5 l)
    (hn : Distinct n)
    (hs : logged (Imports.act md5 parseDate same apiAccount) Imports.entries l n = some l') :
    Keyed triple (rows l'.state.selections) := by
  rw [rows_night hs]
  refine keyed_importRows h.oneToOne.1 (keyed_batch hn) ?_
  intro a ha b hb heq
  obtain ⟨h1, h2⟩ : a.marketId = b.marketId ∧ a.selectionId = b.selectionId :=
    ⟨congrArg Prod.fst heq, congrArg (fun t => t.2.1) heq⟩
  show a.uniq = b.uniq
  rw [h.digested a ha, uniq_eq hb, h1, h2]

/-- No row is that of a runner that has not been listed. -/
theorem listed_of_stored {l l' : Logged Store Entry} {n : Imports.Night} (h : SelectionInv md5 l)
    (hs : logged (Imports.act md5 parseDate same apiAccount) Imports.entries l n = some l')
    {t : Triple}
    (ht : t ∈ (rows l'.state.selections).map triple) : t ∈ listed l'.log := by
  obtain ⟨x, hx, rfl⟩ := List.mem_map.mp ht
  rw [rows_night hs] at hx
  rw [listed_night hs, List.mem_append]
  rcases Validation.mem_importRows.mp hx with hold | ⟨hnew, _⟩
  · exact Or.inl ((h.oneToOne.2 _).mp (List.mem_map_of_mem hold))
  · have hmem := List.mem_map_of_mem (f := triple) hnew
    rw [map_triple_selections md5] at hmem
    exact Or.inr hmem

/-- All that can go wrong in a night is that a runner of it is not stored. -/
theorem oneToOne_iff_stored {l l' : Logged Store Entry} {n : Imports.Night}
    (h : SelectionInv md5 l) (hn : Distinct n)
    (hs : logged (Imports.act md5 parseDate same apiAccount) Imports.entries l n = some l') :
    OneToOne l' ↔ ∀ b ∈ (processed n.answers).flatMap (Entry.selections md5),
      ∃ a ∈ rows l'.state.selections, triple a = triple b := by
  constructor
  · intro h' b hb
    have hmem := List.mem_map_of_mem (f := triple) hb
    rw [map_triple_selections md5] at hmem
    exact List.mem_map.mp ((h'.2 _).mpr (listed_night hs ▸ List.mem_append_right _ hmem))
  · intro h'
    refine ⟨keyed_night h hn hs, fun t => ⟨listed_of_stored h hs, fun ht => ?_⟩⟩
    rw [listed_night hs, List.mem_append] at ht
    rcases ht with hold | hnew
    · obtain ⟨x, hx, rfl⟩ := List.mem_map.mp ((h.oneToOne.2 t).mpr hold)
      rw [rows_night hs]
      exact List.mem_map_of_mem (Validation.mem_importRows.mpr (Or.inl hx))
    · rw [← map_triple_selections md5] at hnew
      obtain ⟨b, hb, rfl⟩ := List.mem_map.mp hnew
      exact List.mem_map.mpr (h' b hb)

/-- A runner is stored after a night if it was before, or if its text is new. -/
theorem stored_or_valid_iff (hmd5 : Function.Injective md5) {l : Logged Store Entry}
    (h : SelectionInv md5 l) {xs : List Entry} {b : Selection}
    (hb : b ∈ xs.flatMap (Entry.selections md5)) :
    ((∃ a ∈ rows l.state.selections, triple a = triple b)
        ∨ Selection.validation.valid (rows l.state.selections) b = true)
      ↔ (triple b ∉ listed l.log →
        (b.selectionId.isSome = true ∧ presentText (some b.marketId) = true)
          ∧ ∀ t ∈ listed l.log, uniqText t.1 t.2.1 ≠ uniqText b.marketId b.selectionId) := by
  have hold : (∃ a ∈ rows l.state.selections, triple a = triple b) ↔ triple b ∈ listed l.log := by
    rw [← h.oneToOne.2]
    exact List.mem_map.symm
  -- the texts stored are those of the runners listed
  have htexts : (∀ y ∈ rows l.state.selections,
        uniqText y.marketId y.selectionId ≠ uniqText b.marketId b.selectionId)
      ↔ ∀ t ∈ listed l.log, uniqText t.1 t.2.1 ≠ uniqText b.marketId b.selectionId := by
    simp only [← h.oneToOne.2, List.forall_mem_map]
    rfl
  rw [hold, valid_selection_iff hmd5 h.digested (uniq_eq hb), htexts, or_iff_not_imp_left]

/-- **What a night does to the rows of the runners.** -/
theorem selections_night (hmd5 : Function.Injective md5) {l l' : Logged Store Entry}
    {n : Imports.Night} (h : SelectionInv md5 l) (hn : Distinct n)
    (hs : logged (Imports.act md5 parseDate same apiAccount) Imports.entries l n = some l') :
    Digested md5 l'.state.selections ∧ (OneToOne l' ↔ NewTexts l n) := by
  obtain ⟨hact, _⟩ := logged_eq_some.mp hs
  obtain ⟨_, hselections⟩ := night_tables hact
  refine ⟨hselections ▸ digested_importSaved h.digested _ _, ?_⟩
  rw [oneToOne_iff_stored h hn hs, rows_night hs, allStored_iff (keyed_batch hn)]
  unfold NewTexts
  rw [← map_triple_selections md5, List.forall_mem_map]
  exact forall₂_congr fun b hb => stored_or_valid_iff hmd5 h hb

theorem selectionInv_init (md5 : String → String) {l : Logged Store Entry}
    (h : unobserved Imports.Init l) : SelectionInv md5 l := by
  obtain ⟨hinit, hlog⟩ := h
  have hnone : rows l.state.selections = [] := by rw [hinit.selections]; rfl
  refine ⟨?_, ?_, ?_⟩
  · intro x hx
    rw [hnone] at hx
    exact absurd hx List.not_mem_nil
  · rw [hnone]
    exact keyed_nil
  · rw [hnone, hlog]
    exact fun t => Iff.rfl

theorem selectionInv_reachable (hmd5 : Function.Injective md5) {l : Logged Store Entry}
    (h : Reachable (logged (Imports.act md5 parseDate same apiAccount) Imports.entries)
      (fun l n => Distinct n ∧ NewTexts l n) (unobserved Imports.Init) l) : SelectionInv md5 l := by
  refine h.invariant (fun _ => selectionInv_init md5) ?_
  intro l n l' hinv hok hs
  obtain ⟨hhash, hiff⟩ := selections_night hmd5 hinv hok.1 hs
  exact ⟨hhash, hiff.mpr hok.2⟩

/-! ## The main result -/

/--
**Every runner listed has one row, and no other rows are stored, as long as no
runner that is new lacks an id or runs together to the text of one before.** A
night with such a runner ends that.
-/
theorem oneToOne_of_newTexts (md5 : String → String) (hmd5 : Function.Injective md5)
    (parseDate : String → Option Int) (same : String → String → Bool)
    (apiAccount : List Account → Option Account) :
    ∀ l, Reachable (logged (Imports.act md5 parseDate same apiAccount) Imports.entries)
        (fun l n => Distinct n ∧ NewTexts l n) (unobserved Imports.Init) l →
      OneToOne l
        ∧ ∀ n l', Distinct n →
          logged (Imports.act md5 parseDate same apiAccount) Imports.entries l n = some l' →
          (OneToOne l' ↔ NewTexts l n) := by
  intro l h
  have hinv := selectionInv_reachable hmd5 h
  exact ⟨hinv.oneToOne, fun n l' hn hs => (selections_night hmd5 hinv hn hs).2⟩

instance (n : Imports.Night) : Decidable (Distinct n) := inferInstanceAs (Decidable (_ ∧ _))

instance (l : Logged Store Entry) (n : Imports.Night) : Decidable (NewTexts l n) :=
  inferInstanceAs (Decidable (∀ t ∈ _, _ → _))

/-- The login of the next day, when the session of the first has run out. -/
def nextLogon : Logon := ⟨86400, 86400, 86400, some "u"⟩

/-- A match that is listed two nights in a row has its runner stored once. -/
theorem oneToOne_twoNights :
    ∃ l : Logged Store Entry, (rows l.state.selections).map triple = [("1.17", some 47972, some 0)]
      ∧ OneToOne l := by
  obtain ⟨l, hr, hrows⟩ := reachable_of_run
    (logged (Imports.act runnerDigests kickOff ignoreCase soleUser) Imports.entries)
    (fun l n => Distinct n ∧ NewTexts l n)
    [⟨oneMatch (some "GB"), firstLogon, id, id⟩, ⟨oneMatch (some "GB"), nextLogon, id, id⟩]
    (fun l => l.log.length = 2
      ∧ (rows l.state.selections).map triple = [("1.17", some 47972, some 0)])
    (signedUp_init runnerDigests) (by decide +kernel)
  have hinj := runnerDigests.injective
  exact ⟨l, hrows.2, (oneToOne_of_newTexts runnerDigests hinj kickOff ignoreCase soleUser l hr).1⟩

/-- The match 7 with a market of its own, which lists one runner. -/
def oneRunner (marketId : String) (selectionId : Int) (handicap : Rat) : List Listed :=
  [⟨⟨"7", some "A v B", some "GB", some "2014-03-02T15:00:00.000Z", some 1⟩,
    some [⟨marketId, some "Asian Handicap", none,
      some [⟨some selectionId, some "A", some handicap⟩]⟩]⟩]

/-- That match on a night of its own. -/
def nightOf (l : Logon) (t : String × Int × Rat) : Imports.Night :=
  ⟨oneRunner t.1 t.2.1 t.2.2, l, id, id⟩

theorem distinct_nightOf (l : Logon) (t : String × Int × Rat) : Distinct (nightOf l t) := by
  refine ⟨List.nodup_singleton _, ?_⟩
  intro x hx
  rw [List.mem_singleton.mp hx]
  exact List.nodup_singleton _

theorem listed_nightOf (l : Logon) (t : String × Int × Rat) :
    listed (processed (nightOf l t).answers) = [(t.1, some t.2.1, some t.2.2)] := rfl

/-- Such a night completes if its login does. -/
theorem nightOf_completes {l : Logged Store Entry} (lg : Logon) (t : String × Int × Rat)
    (h : ∃ accounts, apiNew md5 ignoreCase soleUser lg l.state.accounts = .ok accounts) :
    ∃ l', logged (Imports.act md5 kickOff ignoreCase soleUser) Imports.entries l (nightOf lg t)
      = some l' := by
  obtain ⟨accounts, ha⟩ := h
  obtain ⟨b, e, hb, he⟩ : ∃ b e, collect md5 kickOff (some (nightOf lg t).answers) = .ok b
      ∧ b.events = [e] := ⟨_, _, rfl, rfl⟩
  have himport : ∃ events, Event.importRows l.state.events b.events = .ok events := by
    refine ⟨_, if_pos ?_⟩
    have hsub := (List.filter_sublist (p := Event.validation.valid l.state.events)
      (l := b.events)).map Event.id
    rw [he] at hsub ⊢
    exact hsub.nodup (List.nodup_singleton _)
  obtain ⟨events, hevents⟩ := himport
  obtain ⟨s', hs'⟩ := night_completes (n := nightOf lg t) ha hb hevents
  exact ⟨⟨s', _⟩, logged_eq_some.mpr ⟨hs', rfl⟩⟩

/-- A runner that runs together to the text of one of the night before is not stored. -/
theorem lost_of_sameText (hmd5 : Function.Injective md5) (t t' : String × Int × Rat)
    (hpresent : presentText (some t.1) = true) (hne : t ≠ t')
    (htext : t.1 ++ toString t.2.1 = t'.1 ++ toString t'.2.1) :
    ∃ l, Reachable (logged (Imports.act md5 kickOff ignoreCase soleUser) Imports.entries)
      (fun _ n => Distinct n) (unobserved Imports.Init) l ∧ ¬ OneToOne l := by
  have hinit := selectionInv_init md5 (signedUp_init md5)
  obtain ⟨l, hs⟩ := nightOf_completes (l := ⟨signedUp md5, []⟩) firstLogon t ⟨_, rfl⟩
  have hlogin : ∃ accounts,
      apiNew md5 ignoreCase soleUser nextLogon l.state.accounts = .ok accounts := by
    cases hs
    exact ⟨_, rfl⟩
  obtain ⟨l', hs'⟩ := nightOf_completes nextLogon t' hlogin
  have hlog : listed l.log = [(t.1, some t.2.1, some t.2.2)] := by
    rw [(logged_eq_some.mp hs).2]
    rfl
  -- the first night stores its runner
  obtain ⟨hhash, hfirst⟩ := selections_night hmd5 hinit (distinct_nightOf firstLogon t) hs
  have hone : OneToOne l := by
    refine hfirst.mpr ?_
    intro x hx _
    rw [listed_nightOf, List.mem_singleton] at hx
    subst hx
    exact ⟨⟨rfl, hpresent⟩, fun x' hx' => absurd hx' List.not_mem_nil⟩
  obtain ⟨_, hsecond⟩ := selections_night hmd5 ⟨hhash, hone⟩ (distinct_nightOf nextLogon t') hs'
  refine ⟨l', ?_, ?_⟩
  · have hp : Path (logged (Imports.act md5 kickOff ignoreCase soleUser) Imports.entries)
        (fun _ n => Distinct n) ⟨signedUp md5, []⟩ l :=
      Lib.Path.tail (Lib.Path.refl _) (distinct_nightOf _ _) hs
    exact ⟨_, signedUp_init md5, Lib.Path.tail hp (distinct_nightOf _ _) hs'⟩
  · intro hone'
    have hnew := hsecond.mp hone' (t'.1, some t'.2.1, some t'.2.2) (List.mem_singleton.mpr rfl)
    rw [hlog] at hnew
    refine (hnew ?_).2 _ (List.mem_singleton.mpr rfl) htext
    intro hmem
    obtain ⟨h1, h2, h3⟩ : t'.1 = t.1 ∧ t'.2.1 = t.2.1 ∧ t'.2.2 = t.2.2 := by
      simpa using List.mem_singleton.mp hmem
    exact hne (Prod.ext h1.symm (Prod.ext h2.symm h3.symm))

/--
**A runner that is listed with a new handicap on the second night is not stored,
whatever the digest.**
-/
theorem selections_lost :
    ¬ ∃ md5 : String → String, Function.Injective md5
      ∧ ∀ parseDate same apiAccount l,
        Reachable (logged (Imports.act md5 parseDate same apiAccount) Imports.entries)
          (fun _ n => Distinct n) (unobserved Imports.Init) l → OneToOne l := by
  intro h
  obtain ⟨md5, hmd5, hall⟩ := h
  obtain ⟨l, hr, hno⟩ := lost_of_sameText hmd5 ("1.17", 47972, 0) ("1.17", 47972, 1)
    (by decide) (by decide) rfl
  exact hno (hall kickOff ignoreCase soleUser l hr)

end BetterEfisis.Proof

import BetterEfisis.Proof.Feed

/-!
# Refreshes that meet an unknown runner

`parse_runners` takes the `id` of whatever `find_by` answers. The markets a refresh
selects are imported one statement before their selections, and if the attempt fails in
between they stay alone until the next one. And a selection that is handed to the import
is dropped where its key is that of another runner.

A refresh knows every runner if it reads its markets when all runners listed with them
have been handed to `Selection.import`, no catalogue that is imported while it runs lists
another one for them, and no import drops a runner that is not stored.
-/

namespace BetterEfisis.Proof

open Lib Betfair Refreshing

variable {md5 : String → String} {parseDate : String → Option Int}
  {same : String → String → Bool} {apiAccount : List Account → Option Account}

/-- What a runner is looked up by: its market and its selection id. -/
abbrev Pair := String × Option Int

def pair (y : Selection) : Pair := (y.marketId, y.selectionId)

/-- The runners of an entry. -/
def pairs (x : Entry) : List Pair := x.runners.map (fun r => (x.market.marketId, r.selectionId))

/-- The runners listed by the catalogues whose markets have been imported. -/
def required (ns : List Note) : List Pair :=
  ns.flatMap (fun n => match n with
    | .market x => pairs x
    | .runners _ => [])

/-- The runners that have been handed to `Selection.import`. -/
def handed (ns : List Note) : List Pair :=
  ns.flatMap (fun n => match n with
    | .market _ => []
    | .runners x => pairs x)

/-- The runners that are stored. -/
def stored (t : List (Saved Selection)) : List Pair := (rows t).map pair

/--
Every runner listed with a market that a run has selected is found, and no book of such
a market that lists only them makes `parse_runners` raise.
-/
def NeverUnknown (l : Logged Refreshing Note) : Prop :=
  (∀ k, ∀ p ∈ required l.log, p.1 ∈ l.state.selected k →
      ∃ y, Selection.findBy l.state.store.selections p.1 p.2 = some y)
    ∧ ∀ k m, m.marketId ∈ l.state.selected k →
      (∀ r ∈ m.runners, (m.marketId, r.selectionId) ∈ required l.log) →
        ∃ bs, parseRunners l.state.store.selections m = .ok bs

/--
The steps in which a refresh reads its markets when all runners listed with them have
been handed to `Selection.import`.
-/
def LoadsHanded (l : Logged Refreshing Note) (a : Act) : Prop :=
  ∀ p ∈ required l.log, p.1 ∈ loads l.state a → p ∈ handed l.log

/--
The steps that list no further runner for a market a run has selected: where a catalogue
of it is imported, its runners have been handed to `Selection.import` before.
-/
def ListsHanded (l : Logged Refreshing Note) (a : Act) : Prop :=
  ∀ p ∈ required (notes l.state a), (∃ k, p.1 ∈ l.state.selected k) → p ∈ handed l.log

/--
The steps in which every runner handed to `Selection.import` is stored already, or has
both ids and runs together to a text that no stored one has.
-/
def KeepsHanded (l : Logged Refreshing Note) : Act → Prop
  | .import_ i _ _ =>
      match l.state.imports[i]? with
      | some ⟨r, .running (.importSelections _), _⟩ =>
          ∀ p ∈ (processed (r.getD [])).flatMap pairs, p ∉ stored l.state.store.selections →
            (p.2.isSome = true ∧ presentText (some p.1) = true)
              ∧ ∀ y ∈ rows l.state.store.selections,
                uniqText y.marketId y.selectionId ≠ uniqText p.1 p.2
      | _ => True
  | _ => True

/-! ## Looking a runner up -/

theorem findBy_iff {t : List (Saved Selection)} {p : Pair} :
    (∃ y, Selection.findBy t p.1 p.2 = some y) ↔ p ∈ stored t := by
  unfold Selection.findBy stored
  rw [← Option.isSome_iff_exists, List.find?_isSome, List.mem_map]
  constructor
  · intro h
    obtain ⟨y, hy, hp⟩ := h
    obtain ⟨h1, h2⟩ := of_decide_eq_true hp
    exact ⟨y.row, mem_rows.mpr ⟨y, hy, rfl⟩, Prod.ext h1 h2⟩
  · intro h
    obtain ⟨row, hrow, rfl⟩ := h
    obtain ⟨y, hy, rfl⟩ := mem_rows.mp hrow
    exact ⟨y, hy, decide_eq_true ⟨rfl, rfl⟩⟩

/-- A book whose runners are all stored is parsed. -/
theorem parseRunners_ok {t : List (Saved Selection)} {m : MarketBook}
    (h : ∀ r ∈ m.runners, (m.marketId, r.selectionId) ∈ stored t) :
    ∃ bs, parseRunners t m = .ok bs := by
  have hrunner : ∀ r ∈ m.runners, ∃ bs, runnerBooks t m.marketId r = .ok bs := by
    intro r hr
    obtain ⟨y, hy⟩ := findBy_iff.mpr (h r hr)
    unfold runnerBooks
    rw [hy]
    exact ⟨_, rfl⟩
  obtain ⟨ps, hps⟩ := mapM_ok hrunner
  exact ⟨_, (parseRunners_eq t m).trans (foldlM_append_eq_ok.mpr ⟨ps, hps, rfl⟩)⟩

theorem map_pair_selections (md5 : String → String) (xs : List Entry) :
    (xs.flatMap (Entry.selections md5)).map pair = xs.flatMap pairs := map_selections md5 pair xs

/-! ## What the imports do to the runners stored -/

theorem mem_stored_importSaved {t : List (Saved Selection)} {ids : Nat → Nat} {xs : List Entry}
    {p : Pair} (h : p ∈ stored (Selection.validation.importSaved ids t
      (xs.flatMap (Entry.selections md5)))) : p ∈ stored t ∨ p ∈ xs.flatMap pairs := by
  obtain ⟨y, hy, rfl⟩ := List.mem_map.mp h
  rw [rows_importSaved] at hy
  rcases Validation.mem_importRows.mp hy with hold | ⟨hnew, _⟩
  · exact Or.inl (List.mem_map_of_mem hold)
  · rw [← map_pair_selections md5]
    exact Or.inr (List.mem_map_of_mem hnew)

theorem stored_mono {t : List (Saved Selection)} {ids : Nat → Nat} {batch : List Selection}
    {p : Pair} (h : p ∈ stored t) : p ∈ stored (Selection.validation.importSaved ids t batch) := by
  obtain ⟨y, hy, rfl⟩ := List.mem_map.mp h
  refine List.mem_map_of_mem ?_
  rw [rows_importSaved]
  exact Validation.mem_importRows.mpr (Or.inl hy)

/-- Nothing is dropped that is not stored, so all that is handed over is. -/
theorem stored_of_kept (hmd5 : Function.Injective md5) {t : List (Saved Selection)}
    (h : Digested md5 t) (ids : Nat → Nat) {xs : List Entry}
    (hkeep : ∀ p ∈ xs.flatMap pairs, p ∉ stored t →
      (p.2.isSome = true ∧ presentText (some p.1) = true)
        ∧ ∀ y ∈ rows t, uniqText y.marketId y.selectionId ≠ uniqText p.1 p.2)
    {p : Pair} (hp : p ∈ xs.flatMap pairs) :
    p ∈ stored (Selection.validation.importSaved ids t (xs.flatMap (Entry.selections md5))) := by
  by_cases hold : p ∈ stored t
  · exact stored_mono hold
  · have hok := hkeep p hp hold
    rw [← map_pair_selections md5] at hp
    obtain ⟨y, hy, rfl⟩ := List.mem_map.mp hp
    refine List.mem_map_of_mem ?_
    rw [rows_importSaved]
    exact Validation.mem_importRows.mpr
      (Or.inr ⟨hy, (valid_selection_iff hmd5 h (uniq_eq hy)).mpr hok⟩)

/-! ## What the steps preserve -/

/-- Every runner listed with a market that is selected is stored. -/
def Known (l : Logged Refreshing Note) : Prop :=
  ∀ k, ∀ p ∈ required l.log, p.1 ∈ l.state.selected k → p ∈ stored l.state.store.selections

structure FeedInv (md5 : String → String) (parseDate : String → Option Int)
    (l : Logged Refreshing Note) : Prop where
  digested : Digested md5 l.state.store.selections
  batched : Batched md5 parseDate l.state
  /-- The runners stored are those handed over. -/
  stored : ∀ p, p ∈ stored l.state.store.selections ↔ p ∈ handed l.log

theorem neverUnknown_iff {l : Logged Refreshing Note} : NeverUnknown l ↔ Known l := by
  constructor
  · intro h k p hp hsel
    exact findBy_iff.mp (h.1 k p hp hsel)
  · intro h
    refine ⟨fun k p hp hsel => findBy_iff.mpr (h k p hp hsel), ?_⟩
    intro k m hm hbook
    exact parseRunners_ok (fun r hr => h k _ (hbook r hr) hm)

theorem required_append (ns ns' : List Note) : required (ns ++ ns') = required ns ++ required ns' :=
  List.flatMap_append

theorem handed_append (ns ns' : List Note) : handed (ns ++ ns') = handed ns ++ handed ns' :=
  List.flatMap_append

theorem handed_importMarkets (r : Answers) (b : Batch) :
    handed (done r (.importMarkets b)) = [] := by
  refine List.flatMap_eq_nil_iff.mpr ?_
  intro n hn
  obtain ⟨x, _, rfl⟩ := List.mem_map.mp hn
  rfl

theorem required_importSelections (r : Answers) (b : Batch) :
    required (done r (.importSelections b)) = [] := by
  refine List.flatMap_eq_nil_iff.mpr ?_
  intro n hn
  obtain ⟨x, _, rfl⟩ := List.mem_map.mp hn
  rfl

theorem handed_importSelections (r : Answers) (b : Batch) :
    handed (done r (.importSelections b)) = (processed (r.getD [])).flatMap pairs :=
  List.flatMap_map _ _ _

theorem feedInv_init {l : Logged Refreshing Note} (h : unobserved Refreshing.Init l) :
    FeedInv md5 parseDate l ∧ Known l := by
  obtain ⟨hinit, hlog⟩ := h
  refine ⟨⟨?_, ?_, ?_⟩, ?_⟩
  · intro y hy
    rw [hinit.store.selections] at hy
    exact absurd hy List.not_mem_nil
  · intro i job pc b hj
    rw [hinit.imports] at hj
    exact absurd hj (by simp)
  · intro p
    rw [hinit.store.selections, hlog]
    exact Iff.rfl
  · intro k p hp
    rw [hlog] at hp
    exact absurd hp List.not_mem_nil

theorem feedInv_step (hmd5 : Function.Injective md5) {l l' : Logged Refreshing Note} {a : Act}
    (h : FeedInv md5 parseDate l) (hok : KeepsHanded l a)
    (hs : logged (Refreshing.act md5 parseDate same apiAccount) notes l a = some l') :
    FeedInv md5 parseDate l' := by
  have hbatched := batched_step h.batched (logged_eq_some.mp hs).1
  cases feed_cases h.batched hs with
  | quiet _ hselections _ hlog =>
      refine ⟨?_, hbatched, ?_⟩
      · rw [hselections]
        exact h.digested
      · rw [hselections, hlog]
        exact h.stored
  | loaded hstore _ _ hlog =>
      refine ⟨?_, hbatched, ?_⟩
      · rw [hstore]
        exact h.digested
      · rw [hstore, hlog]
        exact h.stored
  | markets _ hselections _ hlog =>
      refine ⟨?_, hbatched, ?_⟩
      · rw [hselections]
        exact h.digested
      · rw [hselections, hlog, handed_append, handed_importMarkets, List.append_nil]
        exact h.stored
  | selections hj hselections _ hlog =>
      simp only [KeepsHanded, hj] at hok
      refine ⟨?_, hbatched, ?_⟩
      · rw [hselections]
        exact digested_importSaved h.digested _ _
      · intro p
        rw [hselections, hlog, handed_append, handed_importSelections, List.mem_append,
          ← h.stored]
        constructor
        · exact mem_stored_importSaved
        · intro hp
          rcases hp with hold | hnew
          · exact stored_mono hold
          · exact stored_of_kept hmd5 h.digested _ hok hnew

/-- What a step adds to the log is what it gets done. -/
theorem notes_eq {l l' : Logged Refreshing Note} {a : Act} {ns : List Note}
    (hs : logged (Refreshing.act md5 parseDate same apiAccount) notes l a = some l')
    (hlog : l'.log = l.log ++ ns) : notes l.state a = ns :=
  List.append_cancel_left ((logged_eq_some.mp hs).2.symm.trans hlog)

/-- A step that lists nothing lists nothing for a selected market. -/
theorem listsHanded_of_nothing {l : Logged Refreshing Note} {a : Act}
    (h : required (notes l.state a) = []) : ListsHanded l a := by
  intro p hp _
  rw [h] at hp
  exact absurd hp List.not_mem_nil

/--
**A step keeps the selected runners known exactly if it reads no market too early and
lists no runner too late.**
-/
theorem known_step {l l' : Logged Refreshing Note} {a : Act} (h : FeedInv md5 parseDate l)
    (hknown : Known l)
    (hs : logged (Refreshing.act md5 parseDate same apiAccount) notes l a = some l') :
    Known l' ↔ LoadsHanded l a ∧ ListsHanded l a := by
  cases feed_cases h.batched hs with
  | quiet hno hselections hselected hlog =>
      have hloads : LoadsHanded l a := by
        intro p _ hid
        rw [hno] at hid
        exact absurd hid List.not_mem_nil
      have hnotes := notes_eq hs (hlog.trans (List.append_nil _).symm)
      refine iff_of_true ?_ ⟨hloads, listsHanded_of_nothing (by rw [hnotes]; rfl)⟩
      intro k p hp hsel
      rw [hlog] at hp
      rw [hselections]
      exact hknown k p hp (hselected k p.1 hsel)
  | @loaded k _ _ hstore hsel hothers hlog =>
      have hnotes := notes_eq hs (hlog.trans (List.append_nil _).symm)
      constructor
      · intro h'
        refine ⟨?_, listsHanded_of_nothing (by rw [hnotes]; rfl)⟩
        intro p hp hid
        rw [← h.stored, ← hstore]
        exact h' k p (hlog ▸ hp) (hsel ▸ hid)
      · rintro ⟨hhanded, _⟩ j p hp hid
        rw [hlog] at hp
        rw [hstore]
        by_cases hjk : j = k
        · rw [hjk, hsel] at hid
          exact (h.stored p).mpr (hhanded p hp hid)
        · rw [hothers j hjk] at hid
          exact hknown j p hp hid
  | markets hj hselections hrefreshes hlog =>
      have hsame : ∀ k, l'.state.selected k = l.state.selected k := by
        intro k
        unfold selected
        rw [hrefreshes]
      have hnotes := notes_eq hs hlog
      constructor
      · intro h'
        refine ⟨fun p _ hid => absurd hid List.not_mem_nil, ?_⟩
        intro p hp hsel
        obtain ⟨k, hid⟩ := hsel
        rw [hnotes] at hp
        rw [← h.stored, ← hselections]
        refine h' k p ?_ (hsame k ▸ hid)
        rw [hlog, required_append]
        exact List.mem_append_right _ hp
      · rintro ⟨_, hlisted⟩ k p hp hid
        rw [hsame k] at hid
        rw [hlog, required_append, List.mem_append] at hp
        rw [hselections]
        rcases hp with hold | hnew
        · exact hknown k p hold hid
        · -- a run has the market selected already
          exact (h.stored p).mpr (hlisted p (hnotes ▸ hnew) ⟨k, hid⟩)
  | selections hj hselections hrefreshes hlog =>
      have hnotes := notes_eq hs hlog
      refine iff_of_true ?_ ⟨fun p _ hid => absurd hid List.not_mem_nil,
        listsHanded_of_nothing (by rw [hnotes, required_importSelections])⟩
      intro k p hp hid
      rw [hlog, required_append, required_importSelections, List.append_nil] at hp
      rw [hselections]
      exact stored_mono (hknown k p hp (selectsNothing_of_same hrefreshes k p.1 hid))

/-! ## The main result -/

/--
**No refresh meets an unknown runner as long as every refresh reads its markets when
all runners listed with them have been handed to `Selection.import`, which drops none
that is not stored, and no catalogue imported meanwhile lists another one for them.** A
refresh that reads them earlier ends that, and so does such a catalogue.
-/
theorem neverUnknown_of_handed (md5 : String → String) (hmd5 : Function.Injective md5)
    (parseDate : String → Option Int) (same : String → String → Bool)
    (apiAccount : List Account → Option Account) :
    ∀ l, Reachable (logged (Refreshing.act md5 parseDate same apiAccount) notes)
        (fun l a => LoadsHanded l a ∧ ListsHanded l a ∧ KeepsHanded l a)
        (unobserved Refreshing.Init) l →
      NeverUnknown l
        ∧ ∀ a l', logged (Refreshing.act md5 parseDate same apiAccount) notes l a = some l' →
          (NeverUnknown l' ↔ LoadsHanded l a ∧ ListsHanded l a) := by
  intro l h
  have hinv : FeedInv md5 parseDate l ∧ Known l := by
    refine h.invariant (I := fun l => FeedInv md5 parseDate l ∧ Known l)
      (fun _ => feedInv_init) ?_
    intro l a l' hinv hok hs
    obtain ⟨hloads, hlists, hkeeps⟩ := hok
    exact ⟨feedInv_step hmd5 hinv.1 hkeeps hs, (known_step hinv.1 hinv.2 hs).mpr ⟨hloads, hlists⟩⟩
  refine ⟨neverUnknown_iff.mpr hinv.2, ?_⟩
  intro a l' hs
  rw [neverUnknown_iff]
  exact known_step hinv.1 hinv.2 hs

instance (l : Logged Refreshing Note) (a : Act) : Decidable (LoadsHanded l a) :=
  inferInstanceAs (Decidable (∀ p ∈ _, _ → _))

/-- Only runs there are have selected anything. -/
theorem selected_lt {w : Refreshing} {k : Nat} {id : String} (h : id ∈ w.selected k) :
    k < w.refreshes.length := by
  obtain ⟨job, _, hj, _, _⟩ := mem_selected.mp h
  exact (List.getElem?_eq_some_iff.mp hj).1

instance (w : Refreshing) (id : String) : Decidable (∃ k, id ∈ w.selected k) :=
  decidable_of_iff (∃ k ∈ List.range w.refreshes.length, id ∈ w.selected k) (by
    constructor
    · rintro ⟨k, _, h⟩
      exact ⟨k, h⟩
    · rintro ⟨k, h⟩
      exact ⟨k, List.mem_range.mpr (selected_lt h), h⟩)

instance (l : Logged Refreshing Note) (a : Act) : Decidable (ListsHanded l a) :=
  inferInstanceAs (Decidable (∀ p ∈ _, _ → _))

instance (l : Logged Refreshing Note) (a : Act) : Decidable (KeepsHanded l a) := by
  unfold KeepsHanded
  split
  · split <;> infer_instance
  · infer_instance

/-- Someone to log in with, nothing imported, and no jobs. -/
def idle : Logged Refreshing Note := ⟨⟨signedUp runnerDigests, [], []⟩, []⟩

theorem idle_init : unobserved Refreshing.Init idle := ⟨⟨⟨rfl, rfl, rfl⟩, rfl, rfl⟩, rfl⟩

/-- The first `n` statements of a new import job `i`. -/
def importing (i n : Nat) (ls : List Listed) : List Act :=
  .enqueueImport (some ls) :: .startImport i
    :: List.replicate n (.import_ i firstLogon (fun j => 10 * i + j))

/-- A refresh of event `eventId`, the first of all, that logs in and reads its markets. -/
def refreshing (eventId : Int) : List Act :=
  [.enqueueRefresh eventId, .startRefresh 0, .refresh 0 firstLogon none, .refresh 0 firstLogon none]

/-- A refresh that begins when the match is imported with its market and its runner. -/
theorem neverUnknown_imported :
    ∃ l : Logged Refreshing Note, l.state.selected 0 = ["1.17"]
      ∧ required l.log = [("1.17", some 47972)] ∧ NeverUnknown l := by
  obtain ⟨l, hr, hsel, hreq⟩ := reachable_of_run
    (logged (Refreshing.act runnerDigests kickOff ignoreCase soleUser) notes)
    (fun l a => LoadsHanded l a ∧ ListsHanded l a ∧ KeepsHanded l a)
    (importing 0 5 (oneMatch (some "GB")) ++ refreshing 7)
    (fun l => l.state.selected 0 = ["1.17"] ∧ required l.log = [("1.17", some 47972)])
    idle_init (by decide +kernel)
  have hinj := runnerDigests.injective
  exact ⟨l, hsel, hreq,
    (neverUnknown_of_handed runnerDigests hinj kickOff ignoreCase soleUser l hr).1⟩

/-- A match with one market, and one runner. -/
def matchOdds (eventId marketId : String) (selectionId : Int) : List Listed :=
  [⟨⟨eventId, some "A v B", some "GB", some "2014-03-02T15:00:00.000Z", some 1⟩,
    some [⟨marketId, some "Match Odds", none, some [⟨some selectionId, some "A", some 0⟩]⟩]⟩]

/-- A runner of a market that is selected and not stored. -/
def Unknown (l : Logged Refreshing Note) (p : Pair) : Prop :=
  p.1 ∈ l.state.selected 0 ∧ p ∈ required l.log ∧ p ∉ stored l.state.store.selections

instance (l : Logged Refreshing Note) (p : Pair) : Decidable (Unknown l p) :=
  inferInstanceAs (Decidable (_ ∧ _))

theorem not_neverUnknown {l : Logged Refreshing Note} {p : Pair} (h : Unknown l p) :
    ¬ NeverUnknown l := by
  obtain ⟨hsel, hreq, hno⟩ := h
  intro hall
  exact hno (neverUnknown_iff.mp hall 0 p hreq hsel)

/--
**A refresh meets an unknown runner between the import of the markets and that of the
selections, when it begins there and when it is under way, and for ever where a runner
runs together to the text of another.**
-/
theorem unknown_met :
    (¬ ∀ md5, Function.Injective md5 → ∀ parseDate same apiAccount l,
        Reachable (logged (Refreshing.act md5 parseDate same apiAccount) notes)
          (fun l a => ListsHanded l a ∧ KeepsHanded l a) (unobserved Refreshing.Init) l →
        NeverUnknown l)
      ∧ (¬ ∀ md5, Function.Injective md5 → ∀ parseDate same apiAccount l,
        Reachable (logged (Refreshing.act md5 parseDate same apiAccount) notes)
          (fun l a => LoadsHanded l a ∧ KeepsHanded l a) (unobserved Refreshing.Init) l →
        NeverUnknown l)
      ∧ ¬ ∀ md5, Function.Injective md5 → ∀ parseDate same apiAccount l,
        Reachable (logged (Refreshing.act md5 parseDate same apiAccount) notes)
          (fun l a => LoadsHanded l a ∧ ListsHanded l a) (unobserved Refreshing.Init) l →
        NeverUnknown l := by
  refine ⟨?_, ?_, ?_⟩
  · intro hall
    obtain ⟨l, hr, hunknown⟩ := reachable_of_run
      (logged (Refreshing.act runnerDigests kickOff ignoreCase soleUser) notes)
      (fun l a => ListsHanded l a ∧ KeepsHanded l a)
      (importing 0 4 (oneMatch (some "GB")) ++ refreshing 7)
      (fun l => Unknown l ("1.17", some 47972)) idle_init (by decide +kernel)
    exact not_neverUnknown hunknown
      (hall runnerDigests runnerDigests.injective kickOff ignoreCase soleUser l hr)
  · intro hall
    -- a later catalogue of the market lists a second runner
    obtain ⟨l, hr, hunknown⟩ := reachable_of_run
      (logged (Refreshing.act runnerDigests kickOff ignoreCase soleUser) notes)
      (fun l a => LoadsHanded l a ∧ KeepsHanded l a)
      (importing 0 5 (matchOdds "7" "1.17" 47972) ++ refreshing 7
        ++ importing 1 4 (matchOdds "7" "1.17" 47999))
      (fun l => Unknown l ("1.17", some 47999)) idle_init (by decide +kernel)
    exact not_neverUnknown hunknown
      (hall runnerDigests runnerDigests.injective kickOff ignoreCase soleUser l hr)
  · intro hall
    obtain ⟨l, hr, hunknown⟩ := reachable_of_run
      (logged (Refreshing.act runnerDigests kickOff ignoreCase soleUser) notes)
      (fun l a => LoadsHanded l a ∧ ListsHanded l a)
      (importing 0 5 (matchOdds "7" "1.1" 23) ++ importing 1 5 (matchOdds "8" "1.12" 3)
        ++ refreshing 8)
      (fun l => Unknown l ("1.12", some 3)) idle_init (by decide +kernel)
    exact not_neverUnknown hunknown
      (hall runnerDigests runnerDigests.injective kickOff ignoreCase soleUser l hr)

end BetterEfisis.Proof

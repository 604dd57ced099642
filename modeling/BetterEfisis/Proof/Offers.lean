import BetterEfisis.Betfair.Helpers
import BetterEfisis.Lib.Keyed

/-!
# What is read back of a market book

`parse_runners` writes the side of an offer as a text into an integer column, where
both texts are stored as 0, and looks the runner of an offer up without its handicap.
Price and size are written into float columns, which do not keep every number. The order
comes back.
-/

namespace BetterEfisis.Proof

open Lib Betfair

/-- The side an offer is on. -/
inductive Side where
  | back
  | lay
deriving DecidableEq, Repr

/-- What the code assigns for it. -/
def Side.text : Side → String
  | .back => "BACK"
  | .lay => "LAY"

/-- A runner of a market book, with the handicap that the book gives for it. -/
structure Quoted where
  runner : RunnerBook
  handicap : Option Rat
deriving DecidableEq, Repr

/-- A market book whose runners are told apart by selection id and handicap. -/
structure FullBook where
  marketId : String
  runners : List Quoted
  distinct : Keyed (fun r => (r.runner.selectionId, r.handicap)) runners

/-- An offer, and whose it is. -/
structure Quote where
  runner : Quoted
  side : Side
  offer : Offer
deriving DecidableEq, Repr

/-- The offers of a runner, those to back first. -/
def Quoted.quotes (r : Quoted) : List Quote :=
  r.runner.availableToBack.map (fun o => ⟨r, .back, o⟩)
    ++ r.runner.availableToLay.map (fun o => ⟨r, .lay, o⟩)

namespace FullBook

/-- All offers of the book, in order. -/
def quotes (m : FullBook) : List Quote := m.runners.flatMap Quoted.quotes

/-- The book as far as `parse_runners` reads it. -/
def read (m : FullBook) : MarketBook := ⟨m.marketId, m.runners.map Quoted.runner⟩

end FullBook

/-- The selection of a runner: same market, selection id and handicap. -/
def IsOf (marketId : String) (r : Quoted) (s : Saved Selection) : Prop :=
  s.row.marketId = marketId ∧ s.row.selectionId = r.runner.selectionId
    ∧ s.row.handicap = r.handicap

/-- Every runner of the book has a stored selection. -/
def RunnersStored (t : List (Saved Selection)) (m : FullBook) : Prop :=
  ∀ r ∈ m.runners, ∃ s ∈ t, IsOf m.marketId r s

/-- A row is read back as the offer; `decode` is how a reader takes the `side` column. -/
def ReadBack (decode : Int → Option Side) (t : List (Saved Selection)) (marketId : String)
    (q : Quote) (row : StoredBook) : Prop :=
  row.price = q.offer.price ∧ row.size = q.offer.size ∧ decode row.side = some q.side
    ∧ ∃ s ∈ t, s.id = row.selectionId ∧ IsOf marketId q.runner s

/-- Storing the book adds one row to an offer, in order, and they are read back as the offers. -/
def Survives (float : Rat → Rat) (decode : Int → Option Side) (t : List (Saved Selection))
    (m : FullBook) : Prop :=
  ∃ books, parseRunners t m.read = .ok books
    ∧ ∀ before, ∃ added, Book.importRows float before books = before ++ added
      ∧ List.Forall₂ (ReadBack decode t m.marketId) m.quotes added

/-- The prices and sizes are numbers that a float column keeps. -/
def Representable (float : Rat → Rat) (m : FullBook) : Prop :=
  ∀ q ∈ m.quotes, float q.offer.price = q.offer.price ∧ float q.offer.size = q.offer.size

/-- All offers are on the side that a reader takes 0 for. -/
def OneSided (decode : Int → Option Side) (m : FullBook) : Prop :=
  ∀ q ∈ m.quotes, decode 0 = some q.side

/-- The first selection stored for the ids of a runner that offers something has its handicap. -/
def FirstHasHandicap (t : List (Saved Selection)) (m : FullBook) : Prop :=
  ∀ q ∈ m.quotes, ∀ s, Selection.findBy t m.marketId q.runner.runner.selectionId = some s →
    s.row.handicap = q.runner.handicap

/-! ## The rows of a book -/

theorem toI_text (side : Side) : toI side.text = 0 := by cases side <;> decide

theorem mem_quotes {m : FullBook} {q : Quote} (h : q ∈ m.quotes) : q.runner ∈ m.runners := by
  obtain ⟨r, hr, hq⟩ := List.mem_flatMap.mp h
  rcases List.mem_append.mp hq with hq | hq
  · obtain ⟨o, _, rfl⟩ := List.mem_map.mp hq
    exact hr
  · obtain ⟨o, _, rfl⟩ := List.mem_map.mp hq
    exact hr

/-- A selection is found for a runner that has one. -/
theorem findBy_of_stored {t : List (Saved Selection)} {marketId : String} {r : Quoted}
    (h : ∃ s ∈ t, IsOf marketId r s) :
    ∃ s ∈ t, Selection.findBy t marketId r.runner.selectionId = some s
      ∧ s.row.marketId = marketId ∧ s.row.selectionId = r.runner.selectionId := by
  obtain ⟨s₀, hs₀, hm, hr, _⟩ := h
  cases hf : Selection.findBy t marketId r.runner.selectionId with
  | some s =>
      have hids := List.find?_some hf
      exact ⟨s, List.mem_of_find?_eq_some hf, rfl, of_decide_eq_true hids⟩
  | none =>
      unfold Selection.findBy at hf
      rw [List.find?_eq_none] at hf
      exact absurd (decide_eq_true ⟨hm, hr⟩) (hf s₀ hs₀)

/-- The id that is looked up for a runner. -/
def lookedUp (t : List (Saved Selection)) (marketId : String) (r : Quoted) : Nat :=
  ((Selection.findBy t marketId r.runner.selectionId).map Saved.id).getD 0

/-- The book made of an offer. -/
def Quote.book (t : List (Saved Selection)) (marketId : String) (q : Quote) : Book :=
  q.offer.book q.side.text (lookedUp t marketId q.runner)

/-- **One book to an offer, in order.** -/
theorem parseRunners_quotes {t : List (Saved Selection)} {m : FullBook} (h : RunnersStored t m) :
    parseRunners t m.read = .ok (m.quotes.map (Quote.book t m.marketId)) := by
  rw [parseRunners_eq, foldlM_append_eq_ok]
  refine ⟨m.runners.map (fun r => r.quotes.map (Quote.book t m.marketId)), ?_, ?_⟩
  · show (m.runners.map Quoted.runner).mapM _ = _
    rw [List.mapM_map]
    refine mapM_eq_ok_map ?_
    intro r hr
    obtain ⟨s, _, hs, _⟩ := findBy_of_stored (h r hr)
    have hid : lookedUp t m.marketId r = s.id := by
      unfold lookedUp
      rw [hs]
      rfl
    refine bind_eq_ok.mpr ⟨s, notNil_eq_ok.mpr hs, ?_⟩
    unfold Quoted.quotes
    rw [List.map_append, List.map_map, List.map_map]
    simp only [Function.comp_def, Quote.book, hid]
    rfl
  · unfold FullBook.quotes
    rw [List.nil_append, List.map_flatMap, List.flatMap_def]

/-- The selection under the id that is looked up is the one that is found. -/
theorem readBack_iff {float : Rat → Rat} {decode : Int → Option Side}
    {t : List (Saved Selection)}
    (ht : Keyed Saved.id t) {marketId : String} {q : Quote}
    (h : ∃ s ∈ t, IsOf marketId q.runner s) :
    ReadBack decode t marketId q ((q.book t marketId).stored float) ↔
      (float q.offer.price = q.offer.price ∧ float q.offer.size = q.offer.size)
        ∧ decode 0 = some q.side
        ∧ ∀ s, Selection.findBy t marketId q.runner.runner.selectionId = some s →
          s.row.handicap = q.runner.handicap := by
  obtain ⟨s, hs, hfound, hm, hr⟩ := findBy_of_stored h
  have hrow : (q.book t marketId).stored float
      = ⟨float q.offer.price, float q.offer.size, 0, s.id⟩ := by
    unfold Quote.book lookedUp Offer.book Book.stored
    rw [hfound, toI_text]
    rfl
  rw [hrow]
  constructor
  · intro hback
    obtain ⟨hprice, hsize, hside, s', hs', hid, _, _, hhandicap⟩ := hback
    refine ⟨⟨hprice, hsize⟩, hside, fun s₁ h₁ => ?_⟩
    -- an id belongs to one selection, so the runner's is the one that was found
    have hsame : s' = s := List.inj_on_of_nodup_map ht hs' hs hid
    rw [hfound] at h₁
    rw [← Option.some.inj h₁, ← hsame]
    exact hhandicap
  · intro hcond
    obtain ⟨⟨hprice, hsize⟩, hside, hhandicap⟩ := hcond
    exact ⟨hprice, hsize, hside, s, hs, rfl, hm, hr, hhandicap s hfound⟩

/-! ## The main result -/

/--
**A market book survives storage exactly when its prices and sizes are numbers the
columns keep, all its offers are on one side, the one 0 is read as, and each is found the
selection with its handicap.**
-/
theorem survives_iff (float : Rat → Rat) (decode : Int → Option Side)
    (t : List (Saved Selection)) (m : FullBook) (ht : Keyed Saved.id t) (h : RunnersStored t m) :
    Survives float decode t m ↔
      Representable float m ∧ OneSided decode m ∧ FirstHasHandicap t m := by
  have hparse := parseRunners_quotes h
  have hrows : Survives float decode t m ↔ ∀ q ∈ m.quotes,
      ReadBack decode t m.marketId q ((q.book t m.marketId).stored float) := by
    constructor
    · intro hsurvives
      obtain ⟨books, hbooks, hadd⟩ := hsurvives
      rw [hparse] at hbooks
      cases hbooks
      obtain ⟨added, hadded, hback⟩ := hadd []
      rw [Book.importRows, List.nil_append, List.nil_append] at hadded
      rw [← hadded, List.map_map, List.forall₂_map_right_iff, List.forall₂_same] at hback
      exact hback
    · intro hback
      refine ⟨_, hparse, fun before => ⟨_, rfl, ?_⟩⟩
      rw [List.map_map, List.forall₂_map_right_iff, List.forall₂_same]
      exact hback
  rw [hrows]
  unfold Representable OneSided FirstHasHandicap
  rw [← forall₂_and, ← forall₂_and]
  refine forall₂_congr fun q hq => ?_
  exact readBack_iff ht (h q.runner (mem_quotes hq))

/-- Selection 47 of market 1.1, stored for two handicaps. -/
def twoHandicaps : List (Saved Selection) :=
  [⟨1, ⟨"1.1", some 47, some "A", some 0, "u"⟩⟩, ⟨2, ⟨"1.1", some 47, some "A", some 1, "u"⟩⟩]

/-- The runner with that handicap, and these offers. -/
def quoted (handicap : Rat) (backs lays : List Offer) : Quoted :=
  ⟨⟨some 47, backs, lays⟩, some handicap⟩

/-- Its market book, without other runners. -/
def bookOf (r : Quoted) : FullBook := ⟨"1.1", [r], List.nodup_singleton _⟩

instance (float : Rat → Rat) (m : FullBook) : Decidable (Representable float m) :=
  inferInstanceAs (Decidable (∀ q ∈ m.quotes, _))

instance (decode : Int → Option Side) (m : FullBook) : Decidable (OneSided decode m) :=
  inferInstanceAs (Decidable (∀ q ∈ m.quotes, _))

/-- A number from 1 up to a million, as MySQL hands back a `FLOAT`: with six digits. -/
def sixDigits (q : Rat) : Rat :=
  let scale : Rat :=
    if q < 10 then 100000 else if q < 100 then 10000 else if q < 1000 then 1000
    else if q < 10000 then 100 else if q < 100000 then 10 else 1
  ((q * scale + 1 / 2).floor : Rat) / scale

/-- A book to back only, with the selection of its runner stored first. -/
theorem survives_oneBack :
    Survives sixDigits (fun _ => some .back) twoHandicaps
      (bookOf (quoted 0 [⟨2, 10⟩] [])) := by
  refine (survives_iff sixDigits (fun _ => some .back) twoHandicaps _ (by decide) ?_).mpr
    ⟨by decide +kernel, by decide, ?_⟩
  · intro r hr
    rw [List.mem_singleton.mp hr]
    exact ⟨_, List.mem_cons_self, rfl, rfl, rfl⟩
  · intro q hq s hs
    rw [List.mem_singleton.mp hq] at hs ⊢
    cases hs
    rfl

/--
**No reader can tell the sides apart, nor the handicaps**, whatever the float columns
keep. And a size with seven digits does not come back.
-/
theorem book_not_survives :
    (∀ float, ¬ ∃ decode, ∀ t m, Keyed Saved.id t → RunnersStored t m → Survives float decode t m)
      ∧ (∀ float decode, ¬ Survives float decode twoHandicaps (bookOf (quoted 1 [⟨2, 10⟩] [])))
      ∧ ∀ decode, ¬ Survives sixDigits decode twoHandicaps
          (bookOf (quoted 0 [⟨2, 4902168 / 100⟩] [])) := by
  have hstored : ∀ handicap backs lays, handicap = 0 ∨ handicap = 1 →
      RunnersStored twoHandicaps (bookOf (quoted handicap backs lays)) := by
    intro handicap backs lays hh r hr
    rw [List.mem_singleton.mp hr]
    rcases hh with rfl | rfl
    · exact ⟨_, List.mem_cons_self, rfl, rfl, rfl⟩
    · exact ⟨_, List.mem_cons_of_mem _ List.mem_cons_self, rfl, rfl, rfl⟩
  have hids : Keyed Saved.id twoHandicaps := by decide
  refine ⟨?_, ?_, ?_⟩
  · intro float hall
    obtain ⟨decode, hall⟩ := hall
    have hs := hall twoHandicaps (bookOf (quoted 0 [⟨2, 10⟩] [⟨3, 5⟩])) hids
      (hstored 0 _ _ (Or.inl rfl))
    obtain ⟨books, hbooks, hadd⟩ := hs
    cases hbooks
    obtain ⟨added, hadded, hback⟩ := hadd []
    cases hadded
    -- the rows of the two offers have the same side
    obtain ⟨hb, hback⟩ := List.forall₂_cons.mp hback
    obtain ⟨hl, _⟩ := List.forall₂_cons.mp hback
    have hsame : some Side.back = some Side.lay := hb.2.2.1.symm.trans hl.2.2.1
    exact absurd hsame (by simp)
  · intro float decode hs
    obtain ⟨books, hbooks, hadd⟩ := hs
    cases hbooks
    obtain ⟨added, hadded, hback⟩ := hadd []
    cases hadded
    -- the row refers to the selection with handicap 0
    obtain ⟨hb, _⟩ := List.forall₂_cons.mp hback
    obtain ⟨s, hs, hid, _, _, hhandicap⟩ := hb.2.2.2
    rcases List.mem_cons.mp hs with rfl | hs
    · exact absurd hhandicap (by decide)
    · rw [List.mem_singleton.mp hs] at hid
      exact absurd hid (by simp [Book.stored, Offer.book])
  · intro decode hs
    obtain ⟨books, hbooks, hadd⟩ := hs
    cases hbooks
    obtain ⟨added, hadded, hback⟩ := hadd []
    cases hadded
    obtain ⟨hb, _⟩ := List.forall₂_cons.mp hback
    exact absurd hb.2.1 (by decide +kernel)

end BetterEfisis.Proof

import BetterEfisis.Lib.Keyed
import BetterEfisis.Lib.Trace
import BetterEfisis.Model.Associations
import BetterEfisis.Proof.Collected

/-!
# The associations of what is imported

The import gives a market the id of its event, which is the primary key of the
event, and a selection the id of its market at the exchange, which is not that of
its row. So the first hop finds what has been imported, and the second one compares
generated keys with the leading integers of exchange ids.

For the associations to be right, every market that has a selection must happen to
have been given the key its exchange id is cast to. Of the markets whose exchange ids
begin with the same number, one can have that luck.
-/

namespace BetterEfisis.Proof

open Lib EventWorker

variable {md5 : String → String} {parseDate : String → Option Int}
  {same : String → String → Bool} {apiAccount : List Account → Option Account}

/-- The row of the market is that of an entry of the event's catalogue. -/
def ImportedFor (xs : List Entry) (m : Saved Market) (e : Event) : Prop :=
  ∃ x ∈ xs, toI x.eventId = e.id ∧ x.row = m.row

/-- The row of the selection is that of a runner of the market. -/
def ImportedFrom (md5 : String → String) (xs : List Entry) (y : Saved Selection)
    (m : Saved Market) : Prop :=
  ∃ x ∈ xs, x.market.marketId = m.row.marketId ∧ y.row ∈ x.selections md5

/-- The associations find what was imported, and nothing else. -/
structure Associated (md5 : String → String) (l : Logged Store Entry) : Prop where
  markets : ∀ e ∈ l.state.events, ∀ m ∈ l.state.markets,
    m ∈ Event.market l.state.markets e ↔ ImportedFor l.log m e
  selections : ∀ m ∈ l.state.markets, ∀ y ∈ l.state.selections,
    y ∈ Market.selection l.state.selections m ↔ ImportedFrom md5 l.log y m
  market : ∀ y ∈ l.state.selections, ∃ m, Selection.market l.state.markets y = some m
    ∧ ImportedFrom md5 l.log y m

/-- The markets a night adds. -/
def newMarkets (s : Store) (n : Imports.Night) : List (Saved Market) :=
  Market.validation.inserted n.ids s.markets ((processed n.answers).map Entry.row)

/-- The market ids of the answer are distinct, and so are the keys the database gives. -/
def DistinctKeys (l : Logged Store Entry) (n : Imports.Night) : Prop :=
  Keyed (fun x => x.market.marketId) (processed n.answers)
    ∧ Keyed Saved.id (l.state.markets ++ newMarkets l.state n)

/--
The nights on which every market that is given a selection has, or is given, the key
that its exchange id is cast to.
-/
def LuckyKeys (md5 : String → String) (l : Logged Store Entry) (n : Imports.Night) : Prop :=
  ∀ x ∈ processed n.answers,
    (∃ y ∈ x.selections md5, Selection.validation.valid (rows l.state.selections) y = true) →
      ∀ m ∈ l.state.markets ++ newMarkets l.state n, m.row.marketId = x.market.marketId →
        (m.id : Int) = toI m.row.marketId

/-- Every market that has a selection has that key. -/
def Lucky (s : Store) : Prop :=
  ∀ y ∈ rows s.selections, ∀ m ∈ s.markets, m.row.marketId = y.marketId →
    (m.id : Int) = toI m.row.marketId

structure AssocInv (md5 : String → String) (l : Logged Store Entry) : Prop where
  ids : Keyed Saved.id l.state.markets
  marketIds : Keyed (fun m : Saved Market => m.row.marketId) l.state.markets
  /-- The rows are those of entries, -/
  markets : ∀ m ∈ rows l.state.markets, ∃ x ∈ l.log, x.row = m
  selections : ∀ y ∈ rows l.state.selections, ∃ x ∈ l.log, y ∈ x.selections md5
  /-- and every entry has its market stored. -/
  stored : ∀ x ∈ l.log, ∃ m ∈ rows l.state.markets, m.marketId = x.market.marketId

/-- The rows of an entry's runners have the id of its market. -/
theorem marketId_of_selection {x : Entry} {y : Selection} (h : y ∈ x.selections md5) :
    y.marketId = x.market.marketId := by
  obtain ⟨r, _, rfl⟩ := List.mem_map.mp h
  rfl

theorem importedFor_iff {l : Logged Store Entry} (h : AssocInv md5 l) {m : Saved Market}
    (hm : m ∈ l.state.markets) (e : Event) :
    ImportedFor l.log m e ↔ m.row.eventId = e.id := by
  constructor
  · intro hfor
    obtain ⟨x, _, hid, hrow⟩ := hfor
    rw [← hrow]
    exact hid
  · intro hid
    obtain ⟨x, hx, hrow⟩ := h.markets m.row (mem_rows.mpr ⟨m, hm, rfl⟩)
    refine ⟨x, hx, ?_, hrow⟩
    rw [← hrow] at hid
    exact hid

theorem importedFrom_iff {l : Logged Store Entry} (h : AssocInv md5 l) {y : Saved Selection}
    (hy : y ∈ l.state.selections) (m : Saved Market) :
    ImportedFrom md5 l.log y m ↔ m.row.marketId = y.row.marketId := by
  constructor
  · intro hfrom
    obtain ⟨x, _, hid, hrow⟩ := hfrom
    rw [marketId_of_selection hrow, hid]
  · intro hid
    obtain ⟨x, hx, hrow⟩ := h.selections y.row (mem_rows.mpr ⟨y, hy, rfl⟩)
    exact ⟨x, hx, by rw [hid, marketId_of_selection hrow], hrow⟩

/-- The market of a stored selection. -/
theorem market_stored {l : Logged Store Entry} (h : AssocInv md5 l) {y : Selection}
    (hy : y ∈ rows l.state.selections) : ∃ m ∈ l.state.markets, m.row.marketId = y.marketId := by
  obtain ⟨x, hx, hrow⟩ := h.selections y hy
  obtain ⟨row, hmem, hid⟩ := h.stored x hx
  obtain ⟨m, hm, rfl⟩ := mem_rows.mp hmem
  exact ⟨m, hm, by rw [hid, marketId_of_selection hrow]⟩

/-- **The associations are right exactly if every market with a selection is lucky.** -/
theorem associated_iff {l : Logged Store Entry} (h : AssocInv md5 l) :
    Associated md5 l ↔ Lucky l.state := by
  constructor
  · intro hassoc row hrow m hm hid
    obtain ⟨y, hy, rfl⟩ := mem_rows.mp hrow
    -- the market that is found is the one that was imported, so it is `m`
    obtain ⟨m', hfound, hfrom⟩ := hassoc.market y hy
    obtain ⟨hm', hkey⟩ := Selection.market_mem hfound
    have hid' := (importedFrom_iff h hy m').mp hfrom
    have hsame : m' = m := List.inj_on_of_nodup_map h.marketIds hm' hm (hid'.trans hid.symm)
    rw [← hsame, hkey, hid']
  · intro hlucky
    have found : ∀ y ∈ l.state.selections, ∃ m ∈ l.state.markets,
        m.row.marketId = y.row.marketId ∧ (m.id : Int) = toI y.row.marketId := by
      intro y hy
      have hrow : y.row ∈ rows l.state.selections := mem_rows.mpr ⟨y, hy, rfl⟩
      obtain ⟨m, hm, hid⟩ := market_stored h hrow
      exact ⟨m, hm, hid, by rw [hlucky y.row hrow m hm hid, hid]⟩
    refine ⟨?_, ?_, ?_⟩
    · intro e _ m hm
      rw [Event.mem_market, importedFor_iff h hm]
      exact and_iff_right hm
    · intro m hm y hy
      rw [Market.mem_selection, importedFrom_iff h hy, and_iff_right hy]
      obtain ⟨m', hm', hid', hkey'⟩ := found y hy
      constructor
      · intro hkey
        have hsame : m' = m := List.inj_on_of_nodup_map h.ids hm' hm (by omega)
        rw [← hsame, hid']
      · intro hid
        have hsame : m' = m := List.inj_on_of_nodup_map h.marketIds hm' hm (hid'.trans hid.symm)
        rw [← hsame, hkey']
    · intro y hy
      obtain ⟨m, hm, hid, hkey⟩ := found y hy
      refine ⟨m, Selection.market_eq hm hkey ?_, (importedFrom_iff h hy m).mpr hid⟩
      intro m' hm' heq
      exact List.inj_on_of_nodup_map h.ids hm' hm heq

/-! ## What a night preserves -/

theorem assocInv_init (md5 : String → String) {l : Logged Store Entry}
    (h : unobserved Imports.Init l) : AssocInv md5 l := by
  obtain ⟨hinit, hlog⟩ := h
  refine ⟨?_, ?_, ?_, ?_, ?_⟩
  · rw [hinit.markets]
    exact keyed_nil
  · rw [hinit.markets]
    exact keyed_nil
  · rw [hinit.markets]
    exact fun m hm => absurd hm List.not_mem_nil
  · rw [hinit.selections]
    exact fun y hy => absurd hy List.not_mem_nil
  · rw [hlog]
    exact fun x hx => absurd hx List.not_mem_nil

theorem assocInv_step {l l' : Logged Store Entry} {n : Imports.Night} (h : AssocInv md5 l)
    (hn : DistinctKeys l n)
    (hs : logged (Imports.act md5 parseDate same apiAccount) Imports.entries l n = some l') :
    AssocInv md5 l' := by
  obtain ⟨hact, hlog⟩ := logged_eq_some.mp hs
  obtain ⟨hmarkets, hselections⟩ := night_tables hact
  have hlog' : l'.log = l.log ++ processed n.answers := hlog
  have hrows : rows l'.state.markets = Market.validation.importRows (rows l.state.markets)
      ((processed n.answers).map Entry.row) := by
    rw [hmarkets, rows_importSaved]
  refine ⟨?_, ?_, ?_, ?_, ?_⟩
  · rw [hmarkets, Validation.importSaved_eq]
    exact hn.2
  · refine keyed_rows.mp ?_
    rw [hrows]
    refine keyed_importRows (keyed_rows.mpr h.marketIds) ?_ (fun _ _ _ _ hk => hk)
    unfold Keyed
    rw [List.map_map]
    exact hn.1
  · intro m hm
    rw [hrows] at hm
    rw [hlog']
    rcases Validation.mem_importRows.mp hm with hold | ⟨hnew, _⟩
    · obtain ⟨x, hx, hrow⟩ := h.markets m hold
      exact ⟨x, List.mem_append_left _ hx, hrow⟩
    · obtain ⟨x, hx, hrow⟩ := List.mem_map.mp hnew
      exact ⟨x, List.mem_append_right _ hx, hrow⟩
  · intro y hy
    rw [hselections, rows_importSaved] at hy
    rw [hlog']
    rcases Validation.mem_importRows.mp hy with hold | ⟨hnew, _⟩
    · obtain ⟨x, hx, hrow⟩ := h.selections y hold
      exact ⟨x, List.mem_append_left _ hx, hrow⟩
    · obtain ⟨x, hx, hrow⟩ := List.mem_flatMap.mp hnew
      exact ⟨x, List.mem_append_right _ hx, hrow⟩
  · intro x hx
    rw [hlog'] at hx
    rw [hrows]
    rcases List.mem_append.mp hx with hold | hnew
    · obtain ⟨m, hm, hid⟩ := h.stored x hold
      exact ⟨m, Validation.mem_importRows.mpr (Or.inl hm), hid⟩
    · exact Validation.key_stored (V := Market.validation) (List.mem_map_of_mem hnew) rfl

/-- **A night keeps every market with a selection lucky exactly if its keys are.** -/
theorem lucky_step {l l' : Logged Store Entry} {n : Imports.Night} (h : AssocInv md5 l)
    (hlucky : Lucky l.state)
    (hs : logged (Imports.act md5 parseDate same apiAccount) Imports.entries l n = some l') :
    Lucky l'.state ↔ LuckyKeys md5 l n := by
  obtain ⟨hact, _⟩ := logged_eq_some.mp hs
  obtain ⟨hmarkets, hselections⟩ := night_tables hact
  have htable : l'.state.markets = l.state.markets ++ newMarkets l.state n := hmarkets
  have hrows : rows l'.state.selections = Selection.validation.importRows
      (rows l.state.selections) ((processed n.answers).flatMap (Entry.selections md5)) := by
    rw [hselections, rows_importSaved]
  unfold Lucky
  rw [htable, hrows]
  constructor
  · intro hall x hx hnew m hm hid
    obtain ⟨y, hy, hvalid⟩ := hnew
    have hy' : y ∈ (processed n.answers).flatMap (Entry.selections md5) :=
      List.mem_flatMap.mpr ⟨x, hx, hy⟩
    refine hall y (Validation.mem_importRows.mpr (Or.inr ⟨hy', hvalid⟩)) m hm ?_
    rw [hid, marketId_of_selection hy]
  · intro hkeys y hy m hm hid
    rcases Validation.mem_importRows.mp hy with hold | ⟨hnew, hvalid⟩
    · rcases List.mem_append.mp hm with hm | hm
      · exact hlucky y hold m hm hid
      · -- the market of a stored selection is stored, so it is not added
        obtain ⟨m', hm', hid'⟩ := market_stored h hold
        obtain ⟨_, hfree⟩ := Validation.row_inserted hm
        exact absurd (hid'.trans hid.symm)
          ((Validation.valid_iff.mp hfree).2 m'.row (mem_rows.mpr ⟨m', hm', rfl⟩))
    · obtain ⟨x, hx, hrow⟩ := List.mem_flatMap.mp hnew
      refine hkeys x hx ⟨y, hrow, hvalid⟩ m hm ?_
      rw [hid, marketId_of_selection hrow]

theorem lucky_reachable {l : Logged Store Entry}
    (h : Reachable (logged (Imports.act md5 parseDate same apiAccount) Imports.entries)
      (fun l n => DistinctKeys l n ∧ LuckyKeys md5 l n) (unobserved Imports.Init) l) :
    AssocInv md5 l ∧ Lucky l.state := by
  refine h.invariant (I := fun l => AssocInv md5 l ∧ Lucky l.state) ?_ ?_
  · intro l hinit
    refine ⟨assocInv_init md5 hinit, ?_⟩
    intro y hy
    rw [hinit.1.selections] at hy
    exact absurd hy List.not_mem_nil
  · intro l n l' hinv hok hs
    exact ⟨assocInv_step hinv.1 hok.1 hs, (lucky_step hinv.1 hinv.2 hs).mpr hok.2⟩

/-! ## The main result -/

/--
**The associations follow the catalogues as long as every market that is given a
selection has the key its exchange id is cast to.** A night on which one has another
key ends that.
-/
theorem associated_of_luckyKeys (md5 : String → String) (parseDate : String → Option Int)
    (same : String → String → Bool) (apiAccount : List Account → Option Account) :
    ∀ l, Reachable (logged (Imports.act md5 parseDate same apiAccount) Imports.entries)
        (fun l n => DistinctKeys l n ∧ LuckyKeys md5 l n) (unobserved Imports.Init) l →
      Associated md5 l
        ∧ ∀ n l', DistinctKeys l n →
          logged (Imports.act md5 parseDate same apiAccount) Imports.entries l n = some l' →
          (Associated md5 l' ↔ LuckyKeys md5 l n) := by
  intro l h
  obtain ⟨hinv, hlucky⟩ := lucky_reachable h
  refine ⟨(associated_iff hinv).mpr hlucky, ?_⟩
  intro n l' hn hs
  rw [associated_iff (assocInv_step hinv hn hs)]
  exact lucky_step hinv hlucky hs

instance (l : Logged Store Entry) (n : Imports.Night) : Decidable (DistinctKeys l n) :=
  inferInstanceAs (Decidable (_ ∧ _))

instance (md5 : String → String) (l : Logged Store Entry) (n : Imports.Night) :
    Decidable (LuckyKeys md5 l n) :=
  inferInstanceAs (Decidable (∀ x ∈ _, _ → _))

/-- The first market of all is given the key 1, to which `1.17` is cast. -/
theorem associated_first :
    ∃ l : Logged Store Entry, l.state.markets.map Saved.id = [1] ∧ Associated hexdigest l := by
  obtain ⟨l, hr, hids⟩ := reachable_of_run
    (logged (Imports.act hexdigest kickOff ignoreCase soleUser) Imports.entries)
    (fun l n => DistinctKeys l n ∧ LuckyKeys hexdigest l n)
    [⟨oneMatch (some "GB"), firstLogon, fun i => i + 1, fun i => i + 1⟩]
    (fun l => l.state.markets.map Saved.id = [1])
    (signedUp_init hexdigest) (by decide +kernel)
  exact ⟨l, hids, (associated_of_luckyKeys hexdigest kickOff ignoreCase soleUser l hr).1⟩

/-- A match with two markets, each with one runner. -/
def twoMarketsListed : List Listed :=
  [⟨⟨"7", some "A v B", some "GB", some "2014-03-02T15:00:00.000Z", some 2⟩,
    some [⟨"1.17", some "Match Odds", none, some [⟨some 47972, some "A", some 0⟩]⟩,
      ⟨"1.18", some "Over/Under 2.5 Goals", none, some [⟨some 47973, some "Over", some 0⟩]⟩]⟩]

/-- Its first night, on which the markets are given the keys 1 and 2. -/
def firstNight : Imports.Night := ⟨twoMarketsListed, firstLogon, fun i => i + 1, fun i => i + 1⟩

/-- **The second market is not associated with its selection, whatever the digest.** -/
theorem associations_broken :
    ¬ ∃ md5 : String → String, ∀ parseDate same apiAccount l,
      Reachable (logged (Imports.act md5 parseDate same apiAccount) Imports.entries) DistinctKeys
        (unobserved Imports.Init) l → Associated md5 l := by
  intro h
  obtain ⟨md5, hall⟩ := h
  have hinit := signedUp_init md5
  obtain ⟨l, hs⟩ : ∃ l, logged (Imports.act md5 kickOff ignoreCase soleUser) Imports.entries
      ⟨signedUp md5, []⟩ firstNight = some l := ⟨_, rfl⟩
  have hkeys : DistinctKeys ⟨signedUp md5, []⟩ firstNight := by
    refine ⟨by decide, ?_⟩
    have hids : ((signedUp md5).markets ++ newMarkets (signedUp md5) firstNight).map Saved.id
        = [1, 2] := rfl
    show List.Nodup _
    rw [hids]
    decide
  have hassoc := hall kickOff ignoreCase soleUser l
    ⟨_, hinit, Lib.Path.tail (Lib.Path.refl _) hkeys hs⟩
  have hlucky : Lucky (signedUp md5) := fun y hy => absurd hy List.not_mem_nil
  have hinv := assocInv_init md5 hinit
  have hall' := (lucky_step hinv hlucky hs).mp
    ((associated_iff (assocInv_step hinv hkeys hs)).mp hassoc)
  have hpresent : presentText (some "1.18") = true := by decide
  -- the key of the market `1.18` is 2, and its id is cast to 1
  have htwo := hall' ⟨"7", ⟨"1.18", some "Over/Under 2.5 Goals", none,
    some [⟨some 47973, some "Over", some 0⟩]⟩⟩ (List.mem_cons_of_mem _ (List.mem_singleton_self _))
    ⟨_, List.mem_singleton_self _,
      Validation.valid_iff.mpr ⟨present_selection_iff.mpr ⟨rfl, hpresent⟩,
        fun y hy => absurd hy List.not_mem_nil⟩⟩
    ⟨2, ⟨"1.18", 7, some "Over/Under 2.5 Goals", none, "unknown"⟩⟩
    (List.mem_cons_of_mem _ (List.mem_singleton_self _)) rfl
  exact absurd htwo (by decide)

end BetterEfisis.Proof

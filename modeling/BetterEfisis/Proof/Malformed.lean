import BetterEfisis.Proof.Collected
import BetterEfisis.Proof.Versus

/-!
# Malformed events in the list

A list with malformed events is imported as if these were not in it where each of them
comes to nothing: `valid_event?` gets a name to scan, and what it lets through has a
date that parses and rows that fail the validations. Everything is collected before
anything is imported, so a single event that raises costs the whole list.
-/

namespace BetterEfisis.Proof

open Lib EventWorker

variable {md5 : String → String} {parseDate : String → Option Int}
  {same : String → String → Bool} {apiAccount : List Account → Option Account}

/-- The ways an event can be malformed. -/
def Malformed (parseDate : String → Option Int) (e : ApiEvent) : Prop :=
  e.name = none ∨ (∃ name, e.name = some name ∧ ¬ TwoTeams name) ∨ e.countryCode = none
    ∨ ∀ d, dateTimeParse parseDate e.openDate ≠ .ok d

/-- The answers about the markets of an event are well formed. -/
structure Answered (l : Listed) : Prop where
  count : ∃ n, l.event.marketCount = some n
  catalogue : ∀ n, l.event.marketCount = some n → 0 < n →
    ∃ catalogue, l.catalogue = some catalogue ∧ ∀ m ∈ catalogue, ∃ rs, m.runners = some rs

/-- The list of a night, some of whose malformed events are marked. -/
structure MarkedList (parseDate : String → Option Int) where
  entries : List (Listed × Bool)
  malformed : ∀ l, (l, true) ∈ entries → Malformed parseDate l.event
  answered : ∀ l, (l, true) ∈ entries → Answered l

/-- A listed event that comes to nothing. -/
structure Harmless (md5 : String → String) (parseDate : String → Option Int) (s : Store)
    (l : Listed) : Prop where
  name : l.event.name ≠ none
  date : Accepted l → ∃ d, dateTimeParse parseDate l.event.openDate = .ok d
  event : Accepted l →
    presentText l.event.countryCode = false ∨ ∃ e ∈ s.events, e.id = toI l.event.id
  markets : ∀ x ∈ l.entries, ∃ row ∈ rows s.markets, row.marketId = x.market.marketId
  selections : ∀ x ∈ l.entries, ∀ r ∈ x.selections md5,
    Selection.validation.valid (rows s.selections) r = false

/-! ## What is collected -/

/-- The loop gets past a listed event. -/
def Passes (parseDate : String → Option Int) (l : Listed) : Prop :=
  l.event.name ≠ none ∧ (Accepted l →
    (∃ d, dateTimeParse parseDate l.event.openDate = .ok d)
      ∧ ∃ n, l.event.marketCount = some n ∧ (0 < n →
        ∃ catalogue, l.catalogue = some catalogue ∧ ∀ m ∈ catalogue, ∃ rs, m.runners = some rs))

/-- The row made of a listed event, where one is. -/
def eventRows (parseDate : String → Option Int) (l : Listed) : List Event :=
  match validEvent l.event, eventRow parseDate l.event with
  | .ok true, .ok row => [row]
  | _, _ => []

theorem eventRows_of_refused {l : Listed} (h : ¬ Accepted l) : eventRows parseDate l = [] := by
  unfold eventRows
  split
  · rename_i hv _
    exact absurd hv h
  · rfl

theorem eventRows_of_accepted {l : Listed} {row : Event} (h : Accepted l)
    (hrow : eventRow parseDate l.event = .ok row) : eventRows parseDate l = [row] := by
  have hv : validEvent l.event = .ok true := h
  unfold eventRows
  rw [hv, hrow]

theorem validEvent_returns {e : ApiEvent} : (∃ b, validEvent e = .ok b) ↔ e.name ≠ none := by
  unfold validEvent
  cases hname : e.name with
  | none => simp [bind, Except.bind]
  | some name =>
      refine iff_of_true ?_ (by simp)
      simp only [notNil_some, bind, Except.bind, pure, Except.pure]
      split <;> exact ⟨_, rfl⟩

theorem eventRow_returns {e : ApiEvent} :
    (∃ row, eventRow parseDate e = .ok row) ↔ ∃ d, dateTimeParse parseDate e.openDate = .ok d := by
  unfold eventRow
  cases dateTimeParse parseDate e.openDate with
  | error x => simp [bind, Except.bind]
  | ok d => exact iff_of_true ⟨_, rfl⟩ ⟨d, rfl⟩

theorem collectMarket_returns {eventId : String} {b : Batch} {m : ApiMarket} :
    (∃ b', collectMarket md5 eventId b m = .ok b') ↔ ∃ rs, m.runners = some rs := by
  unfold collectMarket
  cases m.runners with
  | none => simp [bind, Except.bind]
  | some rs => exact iff_of_true ⟨_, rfl⟩ ⟨rs, rfl⟩

theorem catalogue_returns {eventId : String} {b : Batch} {catalogue : List ApiMarket} :
    (∃ b', catalogue.foldlM (collectMarket md5 eventId) b = .ok b')
      ↔ ∀ m ∈ catalogue, ∃ rs, m.runners = some rs :=
  foldlM_returns_iff (f := collectMarket md5 eventId) (P := fun m => ∃ rs, m.runners = some rs)
    (fun _ _ => collectMarket_returns)

theorem collectEvent_returns {b : Batch} {l : Listed} :
    (∃ b', collectEvent md5 parseDate b l = .ok b') ↔ Passes parseDate l := by
  constructor
  · intro h
    obtain ⟨b', h⟩ := h
    have hname : l.event.name ≠ none := by
      obtain ⟨valid, hv, _⟩ := bind_eq_ok.mp h
      exact validEvent_returns.mp ⟨valid, hv⟩
    refine ⟨hname, ?_⟩
    intro haccepted
    -- a step that returned has either skipped the event or read all of it
    rcases collectEvent_ok h with ⟨hno, _⟩ | ⟨_, row, n, hrow, hn, hmore⟩
    · exact absurd haccepted hno
    · refine ⟨eventRow_returns.mp ⟨row, hrow⟩, n, hn, ?_⟩
      intro hpos
      rcases hmore with ⟨_, catalogue, hcat, hc⟩ | ⟨hnot, _⟩
      · exact ⟨catalogue, hcat, catalogue_returns.mp ⟨b', hc⟩⟩
      · exact absurd hpos hnot
  · intro h
    obtain ⟨hname, hmore⟩ := h
    obtain ⟨valid, hv⟩ := validEvent_returns.mpr hname
    cases valid with
    | false => exact ⟨b, bind_eq_ok.mpr ⟨false, hv, rfl⟩⟩
    | true =>
        obtain ⟨hdate, n, hn, hcatalogue⟩ := hmore hv
        obtain ⟨row, hrow⟩ := eventRow_returns.mpr hdate
        let b₁ : Batch := { b with events := b.events ++ [row] }
        have hcount : notNil l.event.marketCount = .ok n := notNil_eq_ok.mpr hn
        -- the catalogue is asked for only where there are markets
        by_cases hpos : n > 0
        · obtain ⟨catalogue, hcat, hrunners⟩ := hcatalogue hpos
          have hreturns : ∃ b', catalogue.foldlM (collectMarket md5 l.event.id) b₁ = .ok b' :=
            catalogue_returns.mpr hrunners
          obtain ⟨b', hb'⟩ := hreturns
          refine ⟨b', bind_eq_ok.mpr ⟨true, hv, bind_eq_ok.mpr ⟨row, hrow, bind_eq_ok.mpr
            ⟨n, hcount, ?_⟩⟩⟩⟩
          rw [if_pos hpos]
          exact bind_eq_ok.mpr ⟨catalogue, notNil_eq_ok.mpr hcat, hb'⟩
        · refine ⟨b₁, bind_eq_ok.mpr ⟨true, hv, bind_eq_ok.mpr ⟨row, hrow, bind_eq_ok.mpr
            ⟨n, hcount, ?_⟩⟩⟩⟩
          rw [if_neg hpos]
          rfl

/-- What is collected, and when. -/
theorem collect_returns {ls : List Listed} :
    (∃ b, collect md5 parseDate (some ls) = .ok b) ↔ ∀ l ∈ ls, Passes parseDate l :=
  foldlM_returns_iff (f := collectEvent md5 parseDate) (P := Passes parseDate)
    (fun _ _ => collectEvent_returns)

theorem collect_eventRows {ls : List Listed} {b : Batch}
    (h : collect md5 parseDate (some ls) = .ok b) :
    b.events = ls.flatMap (eventRows parseDate) := by
  have hevents := foldlM_flatMap (g := Batch.events) (k := eventRows parseDate) ?_ h
  · rw [hevents]
    exact List.nil_append _
  · intro c l c' hstep
    rcases collectEvent_ok hstep with ⟨hno, rfl⟩ | ⟨hyes, row, n, hrow, _, hmore⟩
    · rw [eventRows_of_refused hno, List.append_nil]
    · rw [eventRows_of_accepted hyes hrow]
      rcases hmore with ⟨_, catalogue, _, hc⟩ | ⟨_, rfl⟩
      · exact catalogue_events hc
      · rfl

/-! ## What a run makes of its list -/

/-- The rows of the markets of a listed event. -/
def marketRows (l : Listed) : List Market := l.entries.map Entry.row

/-- The rows of their runners. -/
def selectionRows (md5 : String → String) (l : Listed) : List Selection :=
  l.entries.flatMap (Entry.selections md5)

/-- The tables are extended by the valid rows of the list. -/
theorem perform_tables {ls : List Listed} {l₀ : Logon} {ids ids' : Nat → Nat} {s s' : Store}
    (h : perform md5 parseDate same apiAccount (some ls) l₀ ids ids' s = .ok s') :
    tables s'
      = (s.events ++ (ls.flatMap (eventRows parseDate)).filter (Event.validation.valid s.events),
        rows s.markets
          ++ (ls.flatMap marketRows).filter (Market.validation.valid (rows s.markets)),
        rows s.selections
          ++ (ls.flatMap (selectionRows md5)).filter
            (Selection.validation.valid (rows s.selections))) := by
  obtain ⟨t, b, events, _, hb, he, rfl⟩ := perform_ok.mp h
  obtain ⟨hmarkets, hselections⟩ := collect_lists hb
  unfold tables
  rw [rows_importSaved, rows_importSaved, importRows_ok he, collect_eventRows hb, hmarkets,
    hselections, processed, List.map_flatMap, List.flatMap_assoc]
  rfl

/-- When a run returns. -/
theorem perform_returns {ls : List Listed} {l₀ : Logon} {ids ids' : Nat → Nat} {s : Store} :
    (∃ s', perform md5 parseDate same apiAccount (some ls) l₀ ids ids' s = .ok s')
      ↔ (∃ t, apiNew md5 same apiAccount l₀ s.accounts = .ok t) ∧ (∀ l ∈ ls, Passes parseDate l)
        ∧ (((ls.flatMap (eventRows parseDate)).filter
            (Event.validation.valid s.events)).map Event.id).Nodup := by
  constructor
  · intro h
    obtain ⟨s', h⟩ := h
    obtain ⟨t, b, events, ht, hb, he, rfl⟩ := perform_ok.mp h
    refine ⟨⟨t, ht⟩, collect_returns.mp ⟨b, hb⟩, ?_⟩
    rw [← collect_eventRows hb]
    by_contra hnot
    rw [Event.importRows, if_neg hnot] at he
    exact absurd he (by simp)
  · intro h
    obtain ⟨⟨t, ht⟩, hpasses, hnodup⟩ := h
    have hcollect : ∃ b, collect md5 parseDate (some ls) = .ok b := collect_returns.mpr hpasses
    obtain ⟨b, hb⟩ := hcollect
    rw [← collect_eventRows hb] at hnodup
    exact ⟨_, perform_ok.mpr ⟨t, b, _, ht, hb, if_pos hnodup, rfl⟩⟩

/-- The run over the whole list returns, with the tables of the run over the events not marked. -/
def SameImport (md5 : String → String) (parseDate : String → Option Int)
    (same : String → String → Bool) (apiAccount : List Account → Option Account)
    (xs : List (Listed × Bool)) (l₀ : Logon) (ids ids' : Nat → Nat) (s s' : Store) : Prop :=
  ∃ s'', perform md5 parseDate same apiAccount (some (whole xs)) l₀ ids ids' s = .ok s''
    ∧ tables s'' = tables s'

/-- The row of an event fails where its country is blank or its id is stored. -/
theorem eventRows_fail_iff {t : List Event} {l : Listed} (h : Passes parseDate l) :
    (∀ r ∈ eventRows parseDate l, Event.validation.valid t r = false)
      ↔ (Accepted l →
        presentText l.event.countryCode = false ∨ ∃ e ∈ t, e.id = toI l.event.id) := by
  by_cases haccepted : Accepted l
  · obtain ⟨row, hrow⟩ := eventRow_returns.mpr (h.2 haccepted).1
    obtain ⟨hpresent, hid⟩ := presentFields_eventRow haccepted hrow
    have hvalid : Event.validation.valid t row
        = (presentText l.event.countryCode && !Event.validation.taken t (toI l.event.id)) := by
      rw [← hpresent, ← hid]
      rfl
    have htaken : Event.validation.taken t (toI l.event.id) = true
        ↔ ∃ e ∈ t, e.id = toI l.event.id := Validation.taken_iff
    rw [eventRows_of_accepted haccepted hrow, List.forall_mem_singleton, hvalid, ← htaken]
    cases presentText l.event.countryCode <;> simp [haccepted]
  · rw [eventRows_of_refused haccepted]
    exact iff_of_true (fun _ hr => absurd hr List.not_mem_nil) (fun h => absurd h haccepted)

/-- The rows of its markets fail where their ids are stored. -/
theorem marketRows_fail_iff {t : List Market} {l : Listed} :
    (∀ r ∈ marketRows l, Market.validation.valid t r = false)
      ↔ ∀ x ∈ l.entries, ∃ row ∈ t, row.marketId = x.market.marketId := by
  unfold marketRows
  rw [List.forall_mem_map]
  refine forall₂_congr fun x _ => ?_
  have htaken : Market.validation.taken t x.market.marketId = true
      ↔ ∃ row ∈ t, row.marketId = x.market.marketId := Validation.taken_iff
  have hvalid : Market.validation.valid t x.row
      = !Market.validation.taken t x.market.marketId := rfl
  rw [hvalid, ← htaken]
  simp

/--
**The run over the whole list leaves the tables that the run over the events not marked
leaves exactly if the marked ones are all harmless.**
-/
theorem sameImport_iff_harmless {xs : List (Listed × Bool)} {l₀ : Logon} {ids ids' : Nat → Nat}
    {s s' : Store} (hans : ∀ l, (l, true) ∈ xs → Answered l)
    (hp : perform md5 parseDate same apiAccount (some (kept xs)) l₀ ids ids' s = .ok s') :
    SameImport md5 parseDate same apiAccount xs l₀ ids ids' s s'
      ↔ ∀ l, (l, true) ∈ xs → Harmless md5 parseDate s l := by
  have hevents := filter_whole_iff (Event.validation.valid s.events) (eventRows parseDate) xs
  have hmarkets := filter_whole_iff (Market.validation.valid (rows s.markets)) marketRows xs
  have hselections :=
    filter_whole_iff (Selection.validation.valid (rows s.selections)) (selectionRows md5) xs
  constructor
  · intro hsame l hl
    obtain ⟨s'', hp'', htables⟩ := hsame
    obtain ⟨_, hpasses, _⟩ := perform_returns.mp ⟨s'', hp''⟩
    have hl' : Passes parseDate l := hpasses l (mem_whole.mpr (Or.inr hl))
    rw [perform_tables hp, perform_tables hp''] at htables
    -- the tables agree one by one, and each is extended by what the filter keeps
    obtain ⟨he, htables⟩ := Prod.mk.inj htables
    obtain ⟨hm, hs⟩ := Prod.mk.inj htables
    refine ⟨hl'.1, fun h => (hl'.2 h).1, ?_, ?_, ?_⟩
    · exact (eventRows_fail_iff hl').mp (hevents.mp (List.append_cancel_left he) l hl)
    · exact marketRows_fail_iff.mp (hmarkets.mp (List.append_cancel_left hm) l hl)
    · intro x hx r hr
      exact hselections.mp (List.append_cancel_left hs) l hl r (List.mem_flatMap.mpr ⟨x, hx, hr⟩)
  · intro hall
    obtain ⟨hlogin, hpasses, hnodup⟩ := perform_returns.mp ⟨s', hp⟩
    -- a harmless event passes, and adds a row to none of the tables
    have hmarked : ∀ l, (l, true) ∈ xs → Passes parseDate l := by
      intro l hl
      refine ⟨(hall l hl).name, fun haccepted => ⟨(hall l hl).date haccepted, ?_⟩⟩
      obtain ⟨n, hn⟩ := (hans l hl).count
      exact ⟨n, hn, (hans l hl).catalogue n hn⟩
    have hpasses' : ∀ l ∈ whole xs, Passes parseDate l := by
      intro l hl
      rcases mem_whole.mp hl with hkept | hl
      · exact hpasses l hkept
      · exact hmarked l hl
    have he := hevents.mpr fun l hl => (eventRows_fail_iff (hmarked l hl)).mpr (hall l hl).event
    have hm := hmarkets.mpr fun l hl => marketRows_fail_iff.mpr (hall l hl).markets
    have hs := hselections.mpr fun l hl r hr => by
      obtain ⟨x, hx, hr⟩ := List.mem_flatMap.mp hr
      exact (hall l hl).selections x hx r hr
    -- the same rows are inserted, so the ids clash no more than they did
    rw [← he] at hnodup
    obtain ⟨s'', hp''⟩ := perform_returns.mpr ⟨hlogin, hpasses', hnodup⟩
    refine ⟨s'', hp'', ?_⟩
    rw [perform_tables hp, perform_tables hp'', he, hm, hs]

/-! ## The main result -/

/--
**Malformed events leave a night's import as it would be without them exactly if they
are all harmless.**
-/
theorem malformed_skipped_iff (md5 : String → String) (parseDate : String → Option Int)
    (same : String → String → Bool) (apiAccount : List Account → Option Account)
    (c : MarkedList parseDate) (l₀ : Logon) (ids ids' : Nat → Nat) (s s' : Store)
    (hp : perform md5 parseDate same apiAccount (some (kept c.entries)) l₀ ids ids' s = .ok s') :
    SameImport md5 parseDate same apiAccount c.entries l₀ ids ids' s s'
      ↔ ∀ l, (l, true) ∈ c.entries → Harmless md5 parseDate s l :=
  sameImport_iff_harmless c.answered hp

/-- A listed event without markets. -/
def unpriced (name openDate : Option String) : Listed :=
  ⟨⟨"8", name, some "GB", openDate, some 0⟩, none⟩

theorem answered_unpriced (name openDate : Option String) : Answered (unpriced name openDate) where
  count := ⟨0, rfl⟩
  catalogue := by
    intro n hn hpos
    cases hn
    exact absurd hpos (by decide)

/-- What is no match is not one of two teams. -/
theorem not_twoTeams_training : ¬ TwoTeams "Training" := by
  intro h
  obtain ⟨x, w₁, w₂, y, hsep, _⟩ := h
  have hv : 'v' ∈ "Training".toList := by
    rw [hsep.split]
    simp
  exact absurd hv (by decide)

/-- A match, and behind it an event that is none. -/
def matchAndTraining : MarkedList kickOff where
  entries := (oneMatch (some "GB")).map (fun l => (l, false))
    ++ [(unpriced (some "Training") none, true)]
  malformed := by
    intro l hl
    rcases List.mem_append.mp hl with hl | hl
    · obtain ⟨_, _, heq⟩ := List.mem_map.mp hl
      cases heq
    · cases List.mem_singleton.mp hl
      exact Or.inr (Or.inl ⟨"Training", rfl, not_twoTeams_training⟩)
  answered := by
    intro l hl
    rcases List.mem_append.mp hl with hl | hl
    · obtain ⟨_, _, heq⟩ := List.mem_map.mp hl
      cases heq
    · cases List.mem_singleton.mp hl
      exact answered_unpriced _ _

theorem malformed_skipped_training :
    ∃ s', perform hexdigest kickOff ignoreCase soleUser british firstLogon id id
        (signedUp hexdigest) = .ok s'
      ∧ SameImport hexdigest kickOff ignoreCase soleUser matchAndTraining.entries firstLogon id id
        (signedUp hexdigest) s' := by
  obtain ⟨s', hp⟩ : ∃ s', perform hexdigest kickOff ignoreCase soleUser british firstLogon id id
      (signedUp hexdigest) = .ok s' := ⟨_, rfl⟩
  refine ⟨s', hp, (malformed_skipped_iff hexdigest kickOff ignoreCase soleUser matchAndTraining
    firstLogon id id _ s' hp).mpr ?_⟩
  intro l hl
  have hrefused : ¬ Accepted (unpriced (some "Training") none) := by
    unfold Accepted
    decide +kernel
  rcases List.mem_append.mp hl with hl | hl
  · obtain ⟨_, _, heq⟩ := List.mem_map.mp hl
    cases heq
  · cases List.mem_singleton.mp hl
    have hnone := entries_of_refused hrefused
    refine ⟨by simp [unpriced], fun h => absurd h hrefused, fun h => absurd h hrefused, ?_, ?_⟩
    · rw [hnone]
      exact fun _ hx => absurd hx List.not_mem_nil
    · rw [hnone]
      exact fun _ hx => absurd hx List.not_mem_nil

/-- An event without a name, one without a date, and a match without a country. -/
def spoilers : List Listed :=
  [unpriced none (some "2014-03-02T15:00:00.000Z"), unpriced (some "A v B") none]
    ++ oneMatch none

theorem spoilers_malformed {l : Listed} (hl : l ∈ spoilers) :
    Malformed kickOff l.event ∧ Answered l
      ∧ ¬ Harmless hexdigest kickOff (signedUp hexdigest) l := by
  rcases List.mem_append.mp hl with hl | hl
  · rcases List.mem_cons.mp hl with rfl | hl
    · exact ⟨Or.inl rfl, answered_unpriced _ _, fun h => h.name rfl⟩
    · rw [List.mem_singleton.mp hl]
      refine ⟨Or.inr (Or.inr (Or.inr fun _ => by simp [unpriced, dateTimeParse])),
        answered_unpriced _ _, ?_⟩
      intro h
      have haccepted : Accepted (unpriced (some "A v B") none) := by
        unfold Accepted
        decide +kernel
      obtain ⟨d, hd⟩ := h.date haccepted
      exact absurd hd (by simp [unpriced, dateTimeParse])
  · rw [List.mem_singleton.mp hl]
    refine ⟨Or.inr (Or.inr (Or.inl rfl)), ⟨⟨1, rfl⟩, ?_⟩, ?_⟩
    · intro n _ _
      refine ⟨_, rfl, ?_⟩
      intro m hm
      rw [List.mem_singleton.mp hm]
      exact ⟨_, rfl⟩
    · intro h
      obtain ⟨row, hrow, _⟩ := h.markets ⟨"7", ⟨"1.17", some "Match Odds", none,
        some [⟨some 47972, some "A", some 0⟩]⟩⟩ (by decide +kernel)
      exact absurd hrow List.not_mem_nil

/-- **None of them is skipped.** -/
theorem malformed_not_skipped :
    ¬ ∃ l ∈ spoilers, ∀ (c : MarkedList kickOff) (s' : Store), c.entries = [(l, true)] →
      perform hexdigest kickOff ignoreCase soleUser (some (kept c.entries)) firstLogon id id
        (signedUp hexdigest) = .ok s' →
      SameImport hexdigest kickOff ignoreCase soleUser c.entries firstLogon id id
        (signedUp hexdigest) s' := by
  intro hskipped
  obtain ⟨l, hl, hall⟩ := hskipped
  obtain ⟨hmalformed, hanswered, hharm⟩ := spoilers_malformed hl
  let c : MarkedList kickOff :=
    { entries := [(l, true)]
      malformed := by
        intro l' hl'
        cases List.mem_singleton.mp hl'
        exact hmalformed
      answered := by
        intro l' hl'
        cases List.mem_singleton.mp hl'
        exact hanswered }
  obtain ⟨s', hp⟩ : ∃ s', perform hexdigest kickOff ignoreCase soleUser (some (kept c.entries))
      firstLogon id id (signedUp hexdigest) = .ok s' := ⟨_, rfl⟩
  have hsame := hall c s' rfl hp
  exact hharm ((sameImport_iff_harmless c.answered hp).mp hsame l List.mem_cons_self)

end BetterEfisis.Proof

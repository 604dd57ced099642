import BetterEfisis.Proof.Restart

/-!
# Markets without their event

Which events are stored is decided twice: by `valid_event?` in the loop, and by the
validations inside `Event.import`. The first looks at the name only, since its test
of the country can never fail; the second wants a country that is not blank. An
event on which they differ is dropped after its markets have been collected, and
those are imported all the same.

The selections have no part in this: `Market.import` drops a market only where its
id is stored already.
-/

namespace BetterEfisis.Proof

open Lib EventWorker

variable {md5 : String → String} {parseDate : String → Option Int}
  {same : String → String → Bool} {apiAccount : List Account → Option Account}

/-- Every market is one of a stored event, every selection is one of a stored market. -/
structure NoOrphans (s : Store) : Prop where
  markets : ∀ m ∈ rows s.markets, ∃ e ∈ s.events, e.id = m.eventId
  selections : ∀ x ∈ rows s.selections, ∃ m ∈ rows s.markets, m.marketId = x.marketId

/-- A listed event that `valid_event?` lets through. -/
def Accepted (l : Listed) : Prop := validEvent l.event = .ok true

/-- A listed event whose catalogue, which has the market `m`, is fetched. -/
def Offers (l : Listed) (m : ApiMarket) : Prop :=
  Accepted l ∧ (∃ n, l.event.marketCount = some n ∧ 0 < n)
    ∧ ∃ catalogue, l.catalogue = some catalogue ∧ m ∈ catalogue

/-! ## What `valid_event?` checks -/

/-- A name that is let through has a `v` in it. -/
theorem presentText_of_validEvent {e : ApiEvent} (h : validEvent e = .ok true) :
    presentText e.name = true := by
  obtain ⟨name, hname, h⟩ := bind_eq_ok.mp h
  rw [notNil_eq_ok] at hname
  have hscan : versus.scan name ≠ [] := by
    intro hnil
    rw [hnil] at h
    exact absurd h (by simp [pure, Except.pure])
  have hreq : versus.Requires (fun c => c == 'v') :=
    Or.inr (Or.inr (Or.inr (Or.inl (fun _ hx => hx))))
  obtain ⟨x, hx, hv⟩ := scan_requires hreq hscan
  have hspace : isSpace x = false := by
    rw [eq_of_beq hv]
    decide
  simp only [hname, presentText, Bool.not_eq_true', List.all_eq_false]
  exact ⟨x, hx, by simp [hspace]⟩

/-- Of the columns the import wants, only the country can be missing. -/
theorem presentFields_eventRow {e : ApiEvent} {row : Event} (hv : validEvent e = .ok true)
    (h : eventRow parseDate e = .ok row) :
    Event.presentFields row = presentText e.countryCode ∧ row.id = toI e.id := by
  obtain ⟨d, _, h⟩ := bind_eq_ok.mp h
  cases h
  refine ⟨?_, rfl⟩
  simp [Event.presentFields, presentText_of_validEvent hv]

/-! ## What is collected -/

theorem foldl_selections (m : ApiMarket) (runners : List ApiRunner) (b : Batch) :
    runners.foldl (fun b r => { b with selections := b.selections ++ [selectionRow md5 m r] }) b
      = { b with selections := b.selections ++ runners.map (selectionRow md5 m) } := by
  induction runners generalizing b with
  | nil => simp
  | cons r rs ih => simp [ih]

/-- What a market of a catalogue adds to the batch. -/
theorem collectMarket_ok {eventId : String} {b b' : Batch} {m : ApiMarket}
    (h : collectMarket md5 eventId b m = .ok b') :
    ∃ runners, m.runners = some runners
      ∧ b' = ⟨b.events, b.markets ++ [marketRow eventId m],
        b.selections ++ runners.map (selectionRow md5 m)⟩ := by
  obtain ⟨runners, hr, h⟩ := bind_eq_ok.mp h
  rw [notNil_eq_ok] at hr
  cases h
  exact ⟨runners, hr, foldl_selections m runners _⟩

/-- What a listed event adds to it. -/
theorem collectEvent_ok {b b' : Batch} {l : Listed}
    (h : collectEvent md5 parseDate b l = .ok b') :
    (¬ Accepted l ∧ b' = b)
      ∨ (Accepted l ∧ ∃ row n, eventRow parseDate l.event = .ok row
          ∧ l.event.marketCount = some n
          ∧ ((0 < n ∧ ∃ catalogue, l.catalogue = some catalogue
              ∧ catalogue.foldlM (collectMarket md5 l.event.id)
                { b with events := b.events ++ [row] } = .ok b')
            ∨ (¬ 0 < n ∧ b' = { b with events := b.events ++ [row] }))) := by
  obtain ⟨valid, hv, h⟩ := bind_eq_ok.mp h
  cases valid with
  | false =>
      cases h
      exact Or.inl ⟨by rw [Accepted, hv]; simp, rfl⟩
  | true =>
      obtain ⟨row, hrow, h⟩ := bind_eq_ok.mp h
      obtain ⟨n, hn, h⟩ := bind_eq_ok.mp h
      rw [notNil_eq_ok] at hn
      refine Or.inr ⟨hv, row, n, hrow, hn, ?_⟩
      split at h
      · rename_i hpos
        obtain ⟨catalogue, hc, h⟩ := bind_eq_ok.mp h
        rw [notNil_eq_ok] at hc
        exact Or.inl ⟨hpos, catalogue, hc, h⟩
      · rename_i hpos
        cases h
        exact Or.inr ⟨hpos, rfl⟩

theorem catalogue_events {eventId : String} {b b' : Batch} {catalogue : List ApiMarket}
    (h : catalogue.foldlM (collectMarket md5 eventId) b = .ok b') : b'.events = b.events := by
  refine foldlM_preserves (P := fun c => c.events = b.events) ?_ rfl h
  intro c m c' hc hstep
  obtain ⟨runners, _, rfl⟩ := collectMarket_ok hstep
  exact hc

theorem mem_catalogue_markets {eventId : String} {b b' : Batch} {catalogue : List ApiMarket}
    (h : catalogue.foldlM (collectMarket md5 eventId) b = .ok b') (row : Market) :
    row ∈ b'.markets ↔ row ∈ b.markets ∨ ∃ m ∈ catalogue, row = marketRow eventId m := by
  refine foldlM_ok_iff (P := fun c => row ∈ c.markets) ?_ h
  intro c m c' hstep
  obtain ⟨runners, _, rfl⟩ := collectMarket_ok hstep
  rw [List.mem_append, List.mem_singleton]

/-- The events collected are those let through. -/
theorem mem_collect_events {ls : List Listed} {b : Batch}
    (h : collect md5 parseDate (some ls) = .ok b) (row : Event) :
    row ∈ b.events ↔ ∃ l ∈ ls, Accepted l ∧ eventRow parseDate l.event = .ok row := by
  have hloop : row ∈ b.events ↔ row ∈ (⟨[], [], []⟩ : Batch).events
      ∨ ∃ l ∈ ls, Accepted l ∧ eventRow parseDate l.event = .ok row := by
    refine foldlM_ok_iff (P := fun c => row ∈ c.events) ?_ h
    intro c l c' hstep
    rcases collectEvent_ok hstep with ⟨hno, rfl⟩ | ⟨hyes, row', n, hrow, _, hmore⟩
    · simp [hno]
    · have hevents : c'.events = c.events ++ [row'] := by
        rcases hmore with ⟨_, catalogue, _, hc⟩ | ⟨_, rfl⟩
        · exact catalogue_events hc
        · rfl
      rw [hevents, List.mem_append, List.mem_singleton, hrow]
      simp [hyes, eq_comm]
  simpa using hloop

/-- A loop that returns has built the row of every event let through. -/
theorem exists_eventRow {ls : List Listed} {b : Batch}
    (h : collect md5 parseDate (some ls) = .ok b) {l : Listed} (hl : l ∈ ls) (hv : Accepted l) :
    ∃ row, eventRow parseDate l.event = .ok row := by
  obtain ⟨c, c', hstep⟩ := foldlM_step hl h
  rcases collectEvent_ok hstep with ⟨hno, _⟩ | ⟨_, row, _, hrow, _⟩
  · exact absurd hv hno
  · exact ⟨row, hrow⟩

/-- The markets collected are those of the catalogues fetched. -/
theorem mem_collect_markets {ls : List Listed} {b : Batch}
    (h : collect md5 parseDate (some ls) = .ok b) (row : Market) :
    row ∈ b.markets ↔ ∃ l ∈ ls, ∃ m, Offers l m ∧ row = marketRow l.event.id m := by
  have hloop : row ∈ b.markets ↔ row ∈ (⟨[], [], []⟩ : Batch).markets
      ∨ ∃ l ∈ ls, ∃ m, Offers l m ∧ row = marketRow l.event.id m := by
    refine foldlM_ok_iff (P := fun c => row ∈ c.markets) ?_ h
    intro c l c' hstep
    rcases collectEvent_ok hstep with ⟨hno, rfl⟩ | ⟨hyes, row', n, _, hn, hmore⟩
    · simp [Offers, hno]
    · rcases hmore with ⟨hpos, catalogue, hcat, hc⟩ | ⟨hpos, rfl⟩
      · rw [mem_catalogue_markets hc]
        simp [Offers, hyes, hn, hpos, hcat]
      · simp [Offers, hn, hpos]
  simpa using hloop

/-- Every selection of the batch is one of a market of the batch. -/
def Paired (b : Batch) : Prop := ∀ x ∈ b.selections, ∃ m ∈ b.markets, m.marketId = x.marketId

theorem paired_collectMarket {eventId : String} {b b' : Batch} {m : ApiMarket} (hb : Paired b)
    (h : collectMarket md5 eventId b m = .ok b') : Paired b' := by
  obtain ⟨runners, _, rfl⟩ := collectMarket_ok h
  intro x hx
  rcases List.mem_append.mp hx with hold | hnew
  · obtain ⟨row, hrow, hid⟩ := hb x hold
    exact ⟨row, List.mem_append_left _ hrow, hid⟩
  · obtain ⟨r, _, rfl⟩ := List.mem_map.mp hnew
    exact ⟨marketRow eventId m, List.mem_append_right _ (List.mem_singleton.mpr rfl), rfl⟩

theorem paired_collectEvent {b b' : Batch} {l : Listed} (hb : Paired b)
    (h : collectEvent md5 parseDate b l = .ok b') : Paired b' := by
  rcases collectEvent_ok h with ⟨_, rfl⟩ | ⟨_, row, n, _, _, hmore⟩
  · exact hb
  · have hb₁ : Paired { b with events := b.events ++ [row] } := hb
    rcases hmore with ⟨_, catalogue, _, hfold⟩ | ⟨_, rfl⟩
    · exact foldlM_preserves (fun _ _ _ hc hstep => paired_collectMarket hc hstep) hb₁ hfold
    · exact hb₁

/-- A selection is collected along with its market. -/
theorem paired_collect {ls : List Listed} {b : Batch}
    (h : collect md5 parseDate (some ls) = .ok b) : Paired b := by
  have hempty : Paired ⟨[], [], []⟩ := fun x hx => absurd hx List.not_mem_nil
  exact foldlM_preserves (fun _ _ _ hc hstep => paired_collectEvent hc hstep) hempty h

/-! ## The import -/

/-- The ids of the events stored afterwards. -/
theorem exists_event_iff {ls : List Listed} {b : Batch} {t t' : List Event}
    (hb : collect md5 parseDate (some ls) = .ok b) (he : Event.importRows t b.events = .ok t')
    (i : Int) : (∃ e ∈ t', e.id = i) ↔ (∃ e ∈ t, e.id = i)
      ∨ ∃ l ∈ ls, Accepted l ∧ toI l.event.id = i ∧ presentText l.event.countryCode = true := by
  have hkeys : (∃ e ∈ t', e.id = i) ↔ (∃ e ∈ t, e.id = i)
      ∨ ∃ row ∈ b.events, Event.presentFields row = true ∧ row.id = i := by
    rw [importRows_ok he]
    exact Validation.exists_key_iff
  rw [hkeys]
  refine or_congr_right ?_
  constructor
  · intro h
    obtain ⟨row, hrow, hp, hid⟩ := h
    obtain ⟨l, hl, hv, hr⟩ := (mem_collect_events hb row).mp hrow
    obtain ⟨hcc, hid'⟩ := presentFields_eventRow hv hr
    exact ⟨l, hl, hv, hid'.symm.trans hid, hcc.symm.trans hp⟩
  · intro h
    obtain ⟨l, hl, hv, hid, hcc⟩ := h
    obtain ⟨row, hr⟩ := exists_eventRow hb hl hv
    obtain ⟨hcc', hid'⟩ := presentFields_eventRow hv hr
    exact ⟨row, (mem_collect_events hb row).mpr ⟨l, hl, hv, hr⟩, hcc'.trans hcc, hid'.trans hid⟩

/--
**An import leaves no orphans just where the two filters do not differ on a market
that is new**: the event such a market is listed under is stored already, or is let
through, under that id, with a country that is not blank.
-/
theorem noOrphans_iff (md5 : String → String) (parseDate : String → Option Int)
    (same : String → String → Bool) (apiAccount : List Account → Option Account)
    (ls : List Listed) (l₀ : Logon) (ids ids' : Nat → Nat) (s s' : Store) (h : NoOrphans s)
    (hp : perform md5 parseDate same apiAccount (some ls) l₀ ids ids' s = .ok s') :
    NoOrphans s' ↔ ∀ l ∈ ls, ∀ m, Offers l m →
      (∃ row ∈ rows s.markets, row.marketId = m.marketId)
        ∨ (∃ e ∈ s.events, e.id = toI l.event.id)
        ∨ ∃ l' ∈ ls, Accepted l' ∧ toI l'.event.id = toI l.event.id
          ∧ presentText l'.event.countryCode = true := by
  obtain ⟨t, b, events, _, hb, he, rfl⟩ := perform_ok.mp hp
  constructor
  · intro hs' l hl m hm
    by_cases hstored : ∃ row ∈ rows s.markets, row.marketId = m.marketId
    · exact Or.inl hstored
    · -- the market is new, so it is imported
      have hnew : marketRow l.event.id m
          ∈ Market.validation.importRows (rows s.markets) b.markets := by
        refine Validation.mem_importRows.mpr (Or.inr ⟨(mem_collect_markets hb _).mpr
          ⟨l, hl, m, hm, rfl⟩, Validation.valid_iff.mpr ⟨rfl, ?_⟩⟩)
        exact fun row hrow hid => hstored ⟨row, hrow, hid⟩
      have hevent := hs'.markets (marketRow l.event.id m) (by simpa using hnew)
      exact Or.inr ((exists_event_iff hb he _).mp hevent)
  · intro hcond
    refine ⟨?_, ?_⟩
    · intro row hrow
      have hrow' : row ∈ Market.validation.importRows (rows s.markets) b.markets := by
        simpa using hrow
      rcases Validation.mem_importRows.mp hrow' with hold | ⟨hnew, hvalid⟩
      · exact (exists_event_iff hb he _).mpr (Or.inl (h.markets row hold))
      · -- an inserted market was not stored, which leaves its event
        obtain ⟨l, hl, m, hm, rfl⟩ := (mem_collect_markets hb row).mp hnew
        rcases hcond l hl m hm with ⟨row', hrow', hid⟩ | hev
        · exact absurd hid ((Validation.valid_iff.mp hvalid).2 row' hrow')
        · exact (exists_event_iff hb he _).mpr hev
    · intro x hx
      have hx' : x ∈ Selection.validation.importRows (rows s.selections) b.selections := by
        simpa using hx
      -- the market of a selection is in the batch, so its id is stored afterwards
      have hgoal : ∃ m ∈ Market.validation.importRows (rows s.markets) b.markets,
          m.marketId = x.marketId := by
        rcases Validation.key_source hx' with hold | ⟨hnew, _⟩
        · obtain ⟨m, hm, hid⟩ := h.selections x hold
          exact ⟨m, Validation.mem_importRows.mpr (Or.inl hm), hid⟩
        · obtain ⟨m, hm, hid⟩ := paired_collect hb x hnew
          obtain ⟨m', hm', hid'⟩ := Validation.key_stored (V := Market.validation)
            (t := rows s.markets) hm rfl
          exact ⟨m', hm', hid'.trans hid⟩
      simpa using hgoal

theorem noOrphans_signedUp : NoOrphans (signedUp hexdigest) where
  markets := fun _ hm => absurd hm List.not_mem_nil
  selections := fun _ hx => absurd hx List.not_mem_nil

/-- A British match is stored with its market. -/
theorem noOrphans_british : ∃ s', perform hexdigest kickOff ignoreCase soleUser british firstLogon
    id id (signedUp hexdigest) = .ok s' ∧ NoOrphans s' := by
  obtain ⟨s', hp⟩ : ∃ s', perform hexdigest kickOff ignoreCase soleUser british firstLogon id id
      (signedUp hexdigest) = .ok s' := ⟨_, rfl⟩
  refine ⟨s', hp, (noOrphans_iff hexdigest kickOff ignoreCase soleUser (oneMatch (some "GB"))
    firstLogon id id _ s' noOrphans_signedUp hp).mpr ?_⟩
  intro l hl m _
  have hone := List.mem_singleton.mp hl
  subst hone
  exact Or.inr (Or.inr ⟨_, hl, by rfl, rfl, by decide⟩)

/-- **Without a country the market is stored and the match is not.** -/
theorem orphaned_market :
    ¬ ∀ md5 parseDate same apiAccount ls l ids ids' s s', NoOrphans s →
      perform md5 parseDate same apiAccount (some ls) l ids ids' s = .ok s' → NoOrphans s' := by
  intro hall
  obtain ⟨s', hp, hevents, hmarkets⟩ : ∃ s', perform hexdigest kickOff ignoreCase soleUser
      (some (oneMatch none)) firstLogon id id (signedUp hexdigest) = .ok s' ∧ s'.events = []
      ∧ rows s'.markets = [⟨"1.17", 7, some "Match Odds", none, "unknown"⟩] :=
    ⟨_, rfl, rfl, rfl⟩
  have hs' := hall hexdigest kickOff ignoreCase soleUser (oneMatch none) firstLogon id id _ s'
    noOrphans_signedUp hp
  obtain ⟨e, he, _⟩ := hs'.markets ⟨"1.17", 7, some "Match Odds", none, "unknown"⟩ (by
    rw [hmarkets]
    exact List.mem_singleton.mpr rfl)
  rw [hevents] at he
  exact absurd he List.not_mem_nil

end BetterEfisis.Proof

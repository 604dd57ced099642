import BetterEfisis.Worker.Refresh

/-!
# What an odds refresh imports

The loop over the market books of an answer assigns `books` where it means to
append to it. What reaches `Book.import` are the offers of the last market book of
the last answer that has one (`collect_ok`), which is everything exactly when no
other market book offers anything.
-/

namespace BetterEfisis.Proof

open Lib Betfair RefreshOddsWorker

variable {getMarketBook : Nat → List (Option String) → Option (List MarketBook)}
variable {t : List (Saved Selection)}

/-- All market books of the answers to the groups, in order. -/
def returned (getMarketBook : Nat → List (Option String) → Option (List MarketBook)) (k : Nat) :
    List (List (Option String)) → Except RubyError (List MarketBook)
  | [] => .ok []
  | m :: groups => do
      let result ← notNil (getMarketBook k m)
      return result ++ (← returned getMarketBook (k + 1) groups)

/-- The test for an empty answer makes no difference. -/
theorem collect_cons (k : Nat) (books : List Book) (m : List (Option String))
    (groups : List (List (Option String))) :
    collect getMarketBook t k books (m :: groups) = (do
      let result ← notNil (getMarketBook k m)
      let books ← result.foldlM (fun _ runners => parseRunners t runners) books
      collect getMarketBook t (k + 1) books groups) := by
  rw [collect]
  congr 1
  funext result
  cases result with
  | nil => rfl
  | cons r rs => rw [if_pos (by simp)]

theorem getLastD_append {α : Type} (xs ys : List α) (a : α) :
    (xs ++ ys).getLastD a = ys.getLastD (xs.getLastD a) := by
  induction xs generalizing a with
  | nil => rfl
  | cons x xs ih => rw [List.cons_append, List.getLastD_cons, List.getLastD_cons, ih]

/-- **The loop keeps the last parsed market book and nothing else.** -/
theorem collect_ok {groups : List (List (Option String))} {k : Nat} {books bs : List Book}
    (h : collect getMarketBook t k books groups = .ok bs) :
    ∃ ms ps, returned getMarketBook k groups = .ok ms ∧ ms.mapM (parseRunners t) = .ok ps
      ∧ bs = ps.getLastD books := by
  induction groups generalizing k books with
  | nil =>
      cases h
      exact ⟨[], [], rfl, rfl, rfl⟩
  | cons m groups ih =>
      rw [collect_cons] at h
      obtain ⟨result, hresult, h⟩ := bind_eq_ok.mp h
      obtain ⟨books', hbooks, h⟩ := bind_eq_ok.mp h
      obtain ⟨ps, hps, rfl⟩ := foldlM_last_eq_ok.mp hbooks
      obtain ⟨ms, qs, hms, hqs, rfl⟩ := ih h
      refine ⟨result ++ ms, ps ++ qs, ?_, mapM_append_eq_ok.mpr ⟨ps, qs, hps, hqs, rfl⟩, ?_⟩
      · rw [returned]
        exact bind_eq_ok.mpr ⟨result, hresult, bind_eq_ok.mpr ⟨ms, hms, rfl⟩⟩
      · rw [getLastD_append]

/-- Market books offer nothing exactly when nothing is made of them. -/
theorem parsed_nil_iff {ms : List MarketBook} {ps : List (List Book)}
    (h : ms.mapM (parseRunners t) = .ok ps) :
    (∀ p ∈ ps, p = []) ↔ ∀ m ∈ ms, m.noOffers := by
  induction ms generalizing ps with
  | nil =>
      cases h
      simp
  | cons m ms ih =>
      obtain ⟨p, qs, hp, hqs, rfl⟩ := mapM_cons_eq_ok.mp h
      rw [List.forall_mem_cons, List.forall_mem_cons, parseRunners_nil_iff hp, ih hqs]

theorem parsed_dropLast_nil_iff {ms : List MarketBook} {ps : List (List Book)}
    (h : ms.mapM (parseRunners t) = .ok ps) :
    (∀ p ∈ ps.dropLast, p = []) ↔ ∀ m ∈ ms.dropLast, m.noOffers := by
  rcases List.eq_nil_or_concat ms with rfl | ⟨ms', m, rfl⟩
  · cases h
    simp
  · rw [List.concat_eq_append] at h ⊢
    obtain ⟨ps', qs, hps', hqs, rfl⟩ := mapM_append_eq_ok.mp h
    obtain ⟨p, rest, _, hrest, rfl⟩ := mapM_cons_eq_ok.mp hqs
    rw [List.mapM_nil] at hrest
    cases hrest
    rw [List.dropLast_concat, List.dropLast_concat]
    exact parsed_nil_iff hps'

/-! ## The main result -/

/-- All market books a refresh of the event is answered with, in order. -/
def marketBooks (getMarketBook : Nat → List (Option String) → Option (List MarketBook))
    (s : Store) (eventId : Int) : Except RubyError (List MarketBook) := do
  let ids ← marketArray s.markets eventId
  returned getMarketBook 0 (inGroupsOf 10 ids)

/-- `bs` is what `parse_runners` makes of all these market books, one after the other. -/
def Concatenated (getMarketBook : Nat → List (Option String) → Option (List MarketBook))
    (s : Store) (eventId : Int) (bs : List Book) : Prop :=
  ∃ ms ps, marketBooks getMarketBook s eventId = .ok ms
    ∧ ms.mapM (parseRunners s.selections) = .ok ps ∧ bs = ps.flatten

/-- No market book but the last one offers anything. -/
def OnlyLastOffers (getMarketBook : Nat → List (Option String) → Option (List MarketBook))
    (s : Store) (eventId : Int) : Prop :=
  ∀ ms, marketBooks getMarketBook s eventId = .ok ms → ∀ m ∈ ms.dropLast, m.noOffers

/--
**What a refresh imports is the concatenation of all parsed market books exactly
when none but the last one offers anything.**
-/
theorem books_concatenated_iff
    (getMarketBook : Nat → List (Option String) → Option (List MarketBook)) (s : Store)
    (eventId : Int) (bs : List Book) (h : booksToImport getMarketBook s eventId = .ok bs) :
    Concatenated getMarketBook s eventId bs ↔ OnlyLastOffers getMarketBook s eventId := by
  obtain ⟨ids, hids, h⟩ := bind_eq_ok.mp h
  obtain ⟨ms, ps, hms, hps, rfl⟩ := collect_ok h
  have hbooks : marketBooks getMarketBook s eventId = .ok ms := bind_eq_ok.mpr ⟨ids, hids, hms⟩
  have hconcat : Concatenated getMarketBook s eventId (ps.getLastD [])
      ↔ ps.getLastD [] = ps.flatten := by
    constructor
    · intro h
      obtain ⟨ms', ps', hms', hps', heq⟩ := h
      rw [hbooks] at hms'
      cases hms'
      rw [hps] at hps'
      cases hps'
      exact heq
    · intro heq
      exact ⟨ms, ps, hbooks, hps, heq⟩
  rw [hconcat, getLastD_eq_flatten_iff, parsed_dropLast_nil_iff hps]
  constructor
  · intro hno ms' hms'
    rw [hbooks] at hms'
    cases hms'
    exact hno
  · intro hno
    exact hno ms hbooks

/-- Event 7 with one market of interest, of which one runner is stored. -/
def oneMarket : Store := { Store.boot with
  markets := [⟨1, ⟨"1.1", 7, some "Match Odds", none, "unknown"⟩⟩]
  selections := [⟨1, ⟨"1.1", some 47, some "A", none, "u"⟩⟩] }

/-- The book of its market, with one offer. -/
def oneOffer : MarketBook := ⟨"1.1", [⟨some 47, [⟨2, 10⟩], []⟩]⟩

/-- Event 7 with a second market of interest. -/
def twoMarkets : Store := { oneMarket with
  markets := oneMarket.markets ++ [⟨2, ⟨"1.2", 7, some "Over/Under 2.5 Goals", none, "unknown"⟩⟩]
  selections := oneMarket.selections ++ [⟨2, ⟨"1.2", some 48, some "Over", none, "v"⟩⟩] }

/-- Two market books, of which only the second one offers anything. -/
def lastOffers : List MarketBook :=
  [⟨"1.1", [⟨some 47, [], []⟩]⟩, ⟨"1.2", [⟨some 48, [], [⟨3, 5⟩]⟩]⟩]

theorem books_concatenated_lastOffers :
    Concatenated (fun _ _ => some lastOffers) twoMarkets 7 [⟨3, 5, "LAY", 2⟩] := by
  refine (books_concatenated_iff (fun _ _ => some lastOffers) twoMarkets 7 _ (by rfl)).mpr ?_
  intro ms hms
  have hboth : ms = lastOffers := by
    cases hms
    rfl
  rw [hboth]
  decide

/-- **With two markets the offers of the first one are lost.** -/
theorem books_not_concatenated :
    ¬ ∀ getMarketBook s eventId bs, booksToImport getMarketBook s eventId = .ok bs →
      Concatenated getMarketBook s eventId bs := by
  intro hall
  have hbooks : booksToImport (fun _ _ => some [oneOffer, ⟨"1.2", [⟨some 48, [], [⟨3, 5⟩]⟩]⟩])
      twoMarkets 7 = .ok [⟨3, 5, "LAY", 2⟩] := by rfl
  obtain ⟨ms, ps, hms, hps, heq⟩ := hall _ _ _ _ hbooks
  cases hms
  have hboth : ps = [[⟨2, 10, "BACK", 1⟩], [⟨3, 5, "LAY", 2⟩]] := by
    cases hps
    rfl
  rw [hboth] at heq
  exact absurd heq (by simp)

end BetterEfisis.Proof

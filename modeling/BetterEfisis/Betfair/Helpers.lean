import BetterEfisis.Lib.Fallible
import BetterEfisis.Model.Tables

/-!
# `Betfair::Helpers.parse_runners`

A market book as `listMarketBook` returns it, as far as the helper reads it, and
the rows it is turned into: for every runner the offers to back and then those to
lay, best first.
-/

namespace BetterEfisis.Betfair

open Lib

/-- An entry of `availableToBack` or `availableToLay`. -/
structure Offer where
  price : Rat
  size : Rat
deriving DecidableEq, Repr

/-- An entry of `runners`; the two lists are those of its `ex`. -/
structure RunnerBook where
  selectionId : Option Int
  availableToBack : List Offer
  availableToLay : List Offer
deriving DecidableEq, Repr

structure MarketBook where
  marketId : String
  runners : List RunnerBook
deriving DecidableEq, Repr

/-- The row of an offer. -/
def Offer.book (o : Offer) (side : String) (selectionId : Nat) : Book :=
  ⟨o.price, o.size, side, selectionId⟩

/-- `parse_runners`; a runner that is not a stored selection has no `id`. -/
def parseRunners (t : List (Saved Selection)) (runners : MarketBook) :
    Except RubyError (List Book) :=
  runners.runners.foldlM (fun books r => do
    let selection ← notNil (Selection.findBy t runners.marketId r.selectionId)
    let books := r.availableToBack.foldl
      (fun books eb => books ++ [eb.book "BACK" selection.id]) books
    return r.availableToLay.foldl
      (fun books el => books ++ [el.book "LAY" selection.id]) books) []

/-- The rows of one runner. -/
def runnerBooks (t : List (Saved Selection)) (marketId : String) (r : RunnerBook) :
    Except RubyError (List Book) := do
  let selection ← notNil (Selection.findBy t marketId r.selectionId)
  return r.availableToBack.map (fun o => o.book "BACK" selection.id)
    ++ r.availableToLay.map (fun o => o.book "LAY" selection.id)

theorem foldl_snoc {α β : Type} (f : α → β) (xs : List α) (acc : List β) :
    xs.foldl (fun acc x => acc ++ [f x]) acc = acc ++ xs.map f := by
  induction xs generalizing acc with
  | nil => simp
  | cons x xs ih => rw [List.foldl_cons, ih]; simp

/-- The helper appends the rows of each runner to those before. -/
theorem parseRunners_eq (t : List (Saved Selection)) (m : MarketBook) :
    parseRunners t m
      = m.runners.foldlM (fun books r => do return books ++ (← runnerBooks t m.marketId r)) [] := by
  unfold parseRunners runnerBooks
  congr 1
  funext books r
  cases Selection.findBy t m.marketId r.selectionId with
  | none => rfl
  | some s =>
      show Except.ok _ = Except.ok _
      rw [foldl_snoc, foldl_snoc, List.append_assoc]

/-- The market book offers nothing. -/
def MarketBook.noOffers (m : MarketBook) : Prop :=
  ∀ r ∈ m.runners, r.availableToBack = [] ∧ r.availableToLay = []

instance (m : MarketBook) : Decidable m.noOffers :=
  inferInstanceAs (Decidable (∀ r ∈ m.runners, _))

/-- What is made of a market book is empty exactly when it offers nothing. -/
theorem parseRunners_nil_iff {t : List (Saved Selection)} {m : MarketBook} {bs : List Book}
    (h : parseRunners t m = .ok bs) : bs = [] ↔ m.noOffers := by
  rw [parseRunners_eq, foldlM_append_eq_ok] at h
  obtain ⟨ps, hps, rfl⟩ := h
  rw [List.nil_append]
  unfold MarketBook.noOffers
  generalize m.runners = rs at hps
  induction rs generalizing ps with
  | nil =>
      cases hps
      simp
  | cons r rs ih =>
      obtain ⟨p, qs, hp, hqs, rfl⟩ := mapM_cons_eq_ok.mp hps
      have hempty : p = [] ↔ r.availableToBack = [] ∧ r.availableToLay = [] := by
        obtain ⟨s, _, hs⟩ := bind_eq_ok.mp hp
        cases hs
        simp
      rw [List.flatten_cons, List.append_eq_nil_iff, hempty, ih qs hqs]
      simp

end BetterEfisis.Betfair

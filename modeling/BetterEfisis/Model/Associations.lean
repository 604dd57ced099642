import BetterEfisis.Model.Store

/-!
# Associations

`has_many` and `belongs_to` join the column of the child named after the parent with
the primary key of the parent. The column `market_id` of a selection is a text, which
the comparison casts by its leading integer.
-/

namespace BetterEfisis

open Lib

/-- `has_many :market` of an event. -/
def Event.market (t : List (Saved Market)) (e : Event) : List (Saved Market) :=
  t.filter (fun m => decide (m.row.eventId = e.id))

/-- `has_many :selection` of a market. -/
def Market.selection (t : List (Saved Selection)) (m : Saved Market) : List (Saved Selection) :=
  t.filter (fun x => decide (toI x.row.marketId = m.id))

/-- `belongs_to :market` of a selection. -/
def Selection.market (t : List (Saved Market)) (x : Saved Selection) : Option (Saved Market) :=
  t.find? (fun m => decide ((m.id : Int) = toI x.row.marketId))

theorem Event.mem_market {t : List (Saved Market)} {e : Event} {m : Saved Market} :
    m ∈ Event.market t e ↔ m ∈ t ∧ m.row.eventId = e.id := by
  simp [Event.market]

theorem Market.mem_selection {t : List (Saved Selection)} {m : Saved Market}
    {x : Saved Selection} : x ∈ Market.selection t m ↔ x ∈ t ∧ toI x.row.marketId = m.id := by
  simp [Market.selection]

theorem Selection.market_mem {t : List (Saved Market)} {x : Saved Selection} {m : Saved Market}
    (h : Selection.market t x = some m) : m ∈ t ∧ (m.id : Int) = toI x.row.marketId := by
  refine ⟨List.mem_of_find?_eq_some h, ?_⟩
  have hid := List.find?_some h
  simpa using hid

/-- A market that has the id the column is cast to is found, if it is the only one. -/
theorem Selection.market_eq {t : List (Saved Market)} {x : Saved Selection} {m : Saved Market}
    (hm : m ∈ t) (hid : (m.id : Int) = toI x.row.marketId)
    (honly : ∀ m' ∈ t, m'.id = m.id → m' = m) : Selection.market t x = some m := by
  cases hf : Selection.market t x with
  | none =>
      unfold Selection.market at hf
      rw [List.find?_eq_none] at hf
      exact absurd (by simpa using hid) (hf m hm)
  | some m' =>
      obtain ⟨hm', hid'⟩ := Selection.market_mem hf
      have hsame : m'.id = m.id := by omega
      rw [honly m' hm' hsame]

end BetterEfisis

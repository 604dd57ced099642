import Mathlib.Logic.Function.Basic
import Mathlib.Data.Option.Basic

/-!
# Maps whose keys have an end

A key of such a map may have a deadline, and is gone once it has passed, whether or not
something has removed it. What the map is at a time is `live`; a store that removes
outdated keys late, and one by one, is the same as one that removes them at once, because
`live` at a later time does not see what was removed (`Purged.live`).
-/

namespace BetterEfisis.Lib

/-- Deadlines of type `δ`, by the times at which they have not passed. -/
class Deadline (δ τ : Type) [LE τ] where
  holds : δ → τ → Bool
  /-- What has not passed at a time has not passed before. -/
  earlier : ∀ {w : δ} {t t' : τ}, t ≤ t' → holds w t' = true → holds w t = true

variable {κ ν δ τ : Type} [LE τ] [Deadline δ τ]

/-- For each key its value, and its deadline. -/
abbrev Timed (κ ν δ : Type) := κ → Option (ν × Option δ)

/-- Whether a deadline has not passed at a time. -/
def inTime (t : τ) (when : Option δ) : Bool := when.all fun w => Deadline.holds w t

/-- What is there at a time. -/
def live (t : τ) (σ : Timed κ ν δ) : Timed κ ν δ := fun k => (σ k).filter fun e => inTime t e.2

variable {σ σ' σ'' : Timed κ ν δ} {t t' : τ} {k : κ} {e : ν × Option δ}

theorem inTime_mono {w : Option δ} (h : t ≤ t') (hw : inTime t' w = true) : inTime t w = true := by
  cases w with
  | none => rfl
  | some w =>
      rw [inTime, Option.all_some] at hw ⊢
      exact Deadline.earlier h hw

theorem live_eq_some : live t σ k = some e ↔ σ k = some e ∧ inTime t e.2 = true := by
  rw [live, Option.filter_eq_some_iff]

/-- What is there later is there now. -/
theorem live_of_later (h : t ≤ t') (he : live t' σ k = some e) : live t σ k = some e := by
  rw [live_eq_some] at he ⊢
  exact ⟨he.1, inTime_mono h he.2⟩

theorem live_none_of_earlier (h : t ≤ t') (hn : live t σ k = none) : live t' σ k = none := by
  cases he : live t' σ k with
  | none => rfl
  | some e => rw [live_of_later h he] at hn; simp at hn

/-- A key without an entry is not there at any time. -/
theorem live_none (h : σ k = none) (t : τ) : live t σ k = none := by
  rw [live, h]
  rfl

/-- Of two times, the later one decides. -/
theorem live_live (h : t ≤ t') (σ : Timed κ ν δ) : live t' (live t σ) = live t' σ := by
  funext k
  refine Option.ext fun e => ?_
  rw [live_eq_some, live_eq_some, live_eq_some]
  exact ⟨fun ⟨⟨he, _⟩, hw⟩ => ⟨he, hw⟩, fun ⟨he, hw⟩ => ⟨⟨he, inTime_mono h hw⟩, hw⟩⟩

/-! ## Late removal -/

/-- `σ'` is `σ` less some of the keys that are gone at `t`. -/
def Purged (t : τ) (σ σ' : Timed κ ν δ) : Prop :=
  ∀ k, σ' k = σ k ∨ σ' k = none ∧ live t σ k = none

theorem Purged.refl (t : τ) (σ : Timed κ ν δ) : Purged t σ σ := fun _ => Or.inl rfl

/-- What is there from then on is the same. -/
theorem Purged.live (h : Purged t σ σ') (ht : t ≤ t') : live t' σ' = live t' σ := by
  funext k
  rcases h k with hk | ⟨hk, hn⟩
  · rw [Lib.live, hk, Lib.live]
  · rw [live_none hk, live_none_of_earlier ht hn]

theorem Purged.trans (h : Purged t σ σ') (h' : Purged t' σ' σ'') (ht : t ≤ t') :
    Purged t' σ σ'' := by
  intro k
  rcases h' k with hk' | ⟨hk', hn'⟩
  · rcases h k with hk | ⟨hk, hn⟩
    · exact Or.inl (hk'.trans hk)
    · exact Or.inr ⟨hk'.trans hk, live_none_of_earlier ht hn⟩
  · refine Or.inr ⟨hk', ?_⟩
    rw [← h.live ht]
    exact hn'

section Keys

variable [DecidableEq κ]

theorem live_update (t : τ) (σ : Timed κ ν δ) (k : κ) (e : Option (ν × Option δ)) :
    live t (Function.update σ k e) =
      Function.update (live t σ) k (e.filter fun e => inTime t e.2) := by
  funext k'
  by_cases hk : k' = k
  · rw [hk, live, Function.update_self, Function.update_self]
  · rw [live, Function.update_of_ne hk, Function.update_of_ne hk, live]

theorem live_update_of_ne {k' : κ} (h : k' ≠ k) (t : τ) (σ : Timed κ ν δ)
    (e : Option (ν × Option δ)) : live t (Function.update σ k e) k' = live t σ k' := by
  rw [live_update, Function.update_of_ne h]

/-- A key removed if its deadline has passed. -/
def settle (t : τ) (k : κ) (σ : Timed κ ν δ) : Timed κ ν δ := Function.update σ k (live t σ k)

@[simp] theorem settle_self (t : τ) (k : κ) (σ : Timed κ ν δ) : settle t k σ k = live t σ k :=
  Function.update_self ..

theorem settle_ne {k' : κ} (h : k' ≠ k) (t : τ) (σ : Timed κ ν δ) : settle t k σ k' = σ k' :=
  Function.update_of_ne h ..

theorem purged_settle (t : τ) (k : κ) (σ : Timed κ ν δ) : Purged t σ (settle t k σ) := by
  intro k'
  by_cases hk : k' = k
  · rw [hk, settle_self]
    cases he : live t σ k with
    | none => exact Or.inr ⟨rfl, rfl⟩
    | some e => exact Or.inl (live_eq_some.mp he).1.symm
  · exact Or.inl (settle_ne hk t σ)

/-- What is there from then on is the same. -/
theorem live_settle (h : t ≤ t') (k : κ) (σ : Timed κ ν δ) :
    live t' (settle t k σ) = live t' σ :=
  (purged_settle t k σ).live h

/-- A key overwritten after it was looked at. -/
theorem update_settle (t : τ) (k : κ) (σ : Timed κ ν δ) (e : Option (ν × Option δ)) :
    Function.update (settle t k σ) k e = Function.update σ k e :=
  Function.update_idem ..

end Keys

end BetterEfisis.Lib

import BetterEfisis.Lib.Keyed
import BetterEfisis.Proof.Turn

/-!
# The five scopes of a full tick

Each scope is an interval of the time line, computed from clock readings of its
own. With readings in the order in which the scopes are queried no two of the
intervals overlap, but they do not meet: between `starting_now` and
`starting_soon` a minute is left out, and between any two later scopes the time
that has passed from one query to the next (`Missed`). A NULL status is in no scope
either, `where.not` being false on it.

So a tick that finds all four ranges due enqueues no event twice, and every event
exactly once where none is missed.
-/

namespace BetterEfisis.Proof

open Lib OddsWorker

/-- The dates a scope selects, given its readings. -/
def window (rd : Int × Int) (d : Int) : Scope → Bool
  | .now => decide (d ≤ rd.1 + 600)
  | .range .soon => decide (rd.1 + 660 ≤ d) && decide (d < rd.2 + 7200)
  | .range .later => decide (rd.1 + 7200 ≤ d) && decide (d < rd.2 + 18000)
  | .range .tomorow => decide (rd.1 + 18000 ≤ d) && decide (d < rd.2 + 43200)
  | .range .someday => decide (rd.1 + 43200 ≤ d)

/-- The events a scope selects. -/
def selects (rd : Scope → Int × Int) (sc : Scope) (e : Event) : Bool :=
  e.status.any (fun s => decide (s ≠ .ended)) && Event.opensIn (fun d => window (rd sc) d sc) e

/-- The ids the scopes select in a table. -/
def selectedIds (t : List Event) (rd : Scope → Int × Int) (scs : List Scope) : List Int :=
  scs.flatMap (fun sc => (t.filter (selects rd sc)).map Event.id)

/-- The scopes in the order in which a tick queries them. -/
def allScopes : List Scope :=
  [.now, .range .soon, .range .later, .range .tomorow, .range .someday]

/-- The readings of the clock are in that order. -/
def InOrder (rd : Scope → Int × Int) : Prop :=
  (∀ sc ∈ allScopes, (rd sc).1 ≤ (rd sc).2)
    ∧ allScopes.Pairwise (fun a b => (rd a).2 ≤ (rd b).1)

/-- A date no scope selects. -/
def Missed (rd : Scope → Int × Int) (d : Int) : Prop :=
  ((rd .now).1 + 600 < d ∧ d < (rd (.range .soon)).1 + 660)
    ∨ ((rd (.range .soon)).2 + 7200 ≤ d ∧ d < (rd (.range .later)).1 + 7200)
    ∨ ((rd (.range .later)).2 + 18000 ≤ d ∧ d < (rd (.range .tomorow)).1 + 18000)
    ∨ ((rd (.range .tomorow)).2 + 43200 ≤ d ∧ d < (rd (.range .someday)).1 + 43200)

/-- An event some scope selects, unless it has ended. -/
def Covered (rd : Scope → Int × Int) (e : Event) : Prop :=
  e.status ≠ none ∧ ∃ d, e.openDate = some d ∧ ¬ Missed rd d

/-! ## The time line -/

/-- **The intervals of the scopes are disjoint, and leave out what is missed.** -/
theorem countP_window {rd : Scope → Int × Int} (h : InOrder rd) (d : Int) :
    (Missed rd d → allScopes.countP (fun sc => window (rd sc) d sc) = 0)
      ∧ (¬ Missed rd d → allScopes.countP (fun sc => window (rd sc) d sc) = 1) := by
  obtain ⟨h1, h2⟩ := h
  simp only [allScopes, List.forall_mem_cons, List.pairwise_cons, List.not_mem_nil, false_implies,
    implies_true, and_true] at h1 h2
  obtain ⟨h0, hs, hl, ht, hd⟩ := h1
  obtain ⟨⟨_, _, _, _⟩, ⟨_, _, _⟩, ⟨_, _⟩, _⟩ := h2
  simp only [allScopes, List.countP_cons, List.countP_nil, window, Bool.and_eq_true,
    decide_eq_true_eq, Missed]
  constructor
  · intro hm
    split_ifs <;> omega
  · intro hm
    split_ifs <;> omega

/-- No event is selected twice, and one that has not ended is selected if it is covered. -/
theorem countP_selects {rd : Scope → Int × Int} (h : InOrder rd) (e : Event) :
    allScopes.countP (fun sc => selects rd sc e) ≤ 1
      ∧ (e.status ≠ some .ended →
          (allScopes.countP (fun sc => selects rd sc e) = 1 ↔ Covered rd e)) := by
  cases hs : e.status with
  | none => simp [selects, Covered, hs, allScopes]
  | some s =>
      by_cases hend : s = .ended
      · simp [selects, hs, hend, allScopes]
      · cases hd : e.openDate with
        | none => simp [selects, Covered, Event.opensIn, hd, allScopes]
        | some d =>
            have hsel : (fun sc => selects rd sc e) = fun sc => window (rd sc) d sc := by
              funext sc
              simp [selects, Event.opensIn, hs, hd, hend]
            rw [hsel]
            obtain ⟨hzero, hone⟩ := countP_window h d
            by_cases hm : Missed rd d
            · rw [hzero hm]
              simp [Covered, hd, hm]
            · rw [hone hm]
              simp [Covered, hs, hd, hm]

/-! ## What a query selects -/

/-- A query is the selection of its scope, in another order. -/
theorem load_perm (t : List Event) (rd : Scope → Int × Int) (sc : Scope) :
    (sc.load t (rd sc).1 (rd sc).2).Perm (t.filter (selects rd sc)) := by
  have hload : sc.load t (rd sc).1 (rd sc).2
      = (Event.notFinished t).filter (Event.opensIn (fun d => window (rd sc) d sc)) := by
    cases sc with
    | now => rfl
    | range r => cases r <;> rfl
  rw [hload]
  have hsplit : t.filter (selects rd sc)
      = (t.filter (fun e => e.status.any (fun s => decide (s ≠ .ended)))).filter
          (Event.opensIn (fun d => window (rd sc) d sc)) := by
    rw [List.filter_filter]
    refine List.filter_congr ?_
    intro e _
    rw [selects, Bool.and_comm]
  rw [hsplit]
  exact (List.perm_insertionSort _ _).filter _

/-- Tables that no scope tells apart have the same selections. -/
theorem selected_congr {t t' : List Event} (h : SameEvents t t') (rd : Scope → Int × Int)
    (sc : Scope) :
    (t'.filter (selects rd sc)).map Event.id = (t.filter (selects rd sc)).map Event.id := by
  -- a selection looks at the columns that are the same
  have hcols : ∀ u : List Event, (u.filter (selects rd sc)).map Event.id
      = ((u.map scheduled).filter (fun c => c.2.1.any (fun s => decide (s ≠ .ended))
          && c.2.2.any (fun d => window (rd sc) d sc))).map Prod.fst := by
    intro u
    rw [List.filter_map, List.map_map]
    rfl
  rw [hcols, hcols, h]

end BetterEfisis.Proof

import BetterEfisis.Lib.Reach

/-!
# Systems under observation

What a property says of a run and not of a state, it says of what the steps of
the run have done. `logged step emit` is the system `step` with the observations
`emit s a` of every step noted, oldest first, so that such a property is one of
the states reached.
-/

namespace BetterEfisis.Lib

variable {σ α ε : Type} {step : σ → α → Option σ} {emit : σ → α → List ε} {init : σ → Prop}

/-- A state, and what has been observed on the way to it. -/
structure Logged (σ ε : Type) where
  state : σ
  log : List ε

/-- The system with its observations noted. -/
def logged (step : σ → α → Option σ) (emit : σ → α → List ε) (l : Logged σ ε) (a : α) :
    Option (Logged σ ε) :=
  (step l.state a).map (fun s => ⟨s, l.log ++ emit l.state a⟩)

/-- An initial state, with nothing observed yet. -/
def unobserved (init : σ → Prop) (l : Logged σ ε) : Prop := init l.state ∧ l.log = []

theorem logged_eq_some {l l' : Logged σ ε} {a : α} :
    logged step emit l a = some l' ↔
      step l.state a = some l'.state ∧ l'.log = l.log ++ emit l.state a := by
  obtain ⟨s', log'⟩ := l'
  unfold logged
  rw [Option.map_eq_some_iff]
  constructor
  · intro h
    obtain ⟨s, hs, heq⟩ := h
    obtain ⟨rfl, rfl⟩ := Logged.mk.inj heq
    exact ⟨hs, rfl⟩
  · intro h
    obtain ⟨hs, rfl⟩ := h
    exact ⟨s', hs, rfl⟩

end BetterEfisis.Lib

import Mathlib.Data.Option.Basic

/-!
# Runs of a system whose steps may be constrained

A system is a partial step function `step : σ → α → Option σ`: `step s a` is the
state that action `a` leads to from `s`, or `none` where `a` is not possible.

A property of every run is rarely all there is to say about a program that
breaks it. What one wants next is the condition on the steps under which it does
hold. So every notion here carries a guard `ok s a`, read *"taking `a` in `s` is
allowed"*. The unconstrained system is the one whose guard is `always`.
-/

namespace BetterEfisis.Lib

variable {σ α : Type} {step : σ → α → Option σ} {ok ok' : σ → α → Prop} {init : σ → Prop}

/-- The guard that allows every step. -/
def always (_ : σ) (_ : α) : Prop := True

instance (s : σ) (a : α) : Decidable (always s a) := inferInstanceAs (Decidable True)

/-- `Path step ok s s'`: some run leads from `s` to `s'`, every step of it allowed by `ok`. -/
inductive Path (step : σ → α → Option σ) (ok : σ → α → Prop) : σ → σ → Prop where
  | refl (s : σ) : Path step ok s s
  | tail {s s' s'' : σ} {a : α} :
      Path step ok s s' → ok s' a → step s' a = some s'' → Path step ok s s''

/-- A state some allowed run reaches from an initial one. -/
def Reachable (step : σ → α → Option σ) (ok : σ → α → Prop) (init : σ → Prop) (s : σ) : Prop :=
  ∃ s₀, init s₀ ∧ Path step ok s₀ s

theorem Path.trans {s s' s'' : σ} (h : Path step ok s s') (h' : Path step ok s' s'') :
    Path step ok s s'' := by
  induction h' with
  | refl => exact h
  | tail _ hok hs ih => exact Path.tail ih hok hs

/-- A run allowed by a stricter guard is allowed by a laxer one. -/
theorem Path.mono (hle : ∀ s a, ok s a → ok' s a) {s s' : σ} (h : Path step ok s s') :
    Path step ok' s s' := by
  induction h with
  | refl => exact Path.refl _
  | tail _ hok hs ih => exact Path.tail ih (hle _ _ hok) hs

/-- What a step preserves, a run preserves. -/
theorem Path.preserves {I : σ → Prop}
    (hstep : ∀ s a s', I s → ok s a → step s a = some s' → I s')
    {s s' : σ} (h : Path step ok s s') (hs : I s) : I s' := by
  induction h with
  | refl => exact hs
  | tail _ hok hst ih => exact hstep _ _ _ ih hok hst

/-- One step. -/
theorem Path.one {s s' : σ} {a : α} (hok : ok s a) (h : step s a = some s') :
    Path step ok s s' := Path.tail (Path.refl s) hok h

/-- Where the steps leave no choice, one of two runs from a state goes on from the other. -/
theorem Path.comparable {step : σ → Unit → Option σ} {ok : σ → Unit → Prop} {s a b : σ}
    (h : Path step ok s a) (h' : Path step ok s b) : Path step ok a b ∨ Path step ok b a := by
  induction h with
  | refl => exact Or.inl h'
  | @tail c d u hc hok hs ih =>
      rcases ih with hcb | hbc
      · -- the run on to `b` is over, or its first step is this one
        have hfirst : ∀ {x : σ}, Path step ok c x → c = x ∨ Path step ok d x := by
          intro x hx
          induction hx with
          | refl => exact Or.inl rfl
          | tail _ hok' hs' ih' =>
              rcases ih' with rfl | hd
              · rw [hs] at hs'
                cases hs'
                exact Or.inr (Path.refl _)
              · exact Or.inr (Path.tail hd hok' hs')
        rcases hfirst hcb with rfl | hdb
        · exact Or.inr (Path.one hok hs)
        · exact Or.inl hdb
      · exact Or.inr (Path.tail hbc hok hs)

/-- No run goes on from a state without steps. -/
theorem Path.eq_of_stuck {s s' : σ} (hs : ∀ a, step s a = none) (h : Path step ok s s') :
    s' = s := by
  induction h with
  | refl => rfl
  | tail _ _ hstep ih =>
      rw [ih, hs] at hstep
      exact absurd hstep (by simp)

theorem Reachable.start {s : σ} (h : init s) : Reachable step ok init s :=
  ⟨s, h, Path.refl s⟩

theorem Reachable.later {s s' : σ} (h : Reachable step ok init s) (hp : Path step ok s s') :
    Reachable step ok init s' := by
  obtain ⟨s₀, h₀, h₁⟩ := h
  exact ⟨s₀, h₀, h₁.trans hp⟩

theorem Reachable.mono (hle : ∀ s a, ok s a → ok' s a) {s : σ}
    (h : Reachable step ok init s) : Reachable step ok' init s := by
  obtain ⟨s₀, h₀, h₁⟩ := h
  exact ⟨s₀, h₀, h₁.mono hle⟩

/-- **The invariant rule.** -/
theorem Reachable.invariant {I : σ → Prop} (hinit : ∀ s, init s → I s)
    (hstep : ∀ s a s', I s → ok s a → step s a = some s' → I s')
    {s : σ} (h : Reachable step ok init s) : I s := by
  obtain ⟨s₀, h₀, hp⟩ := h
  exact hp.preserves hstep (hinit s₀ h₀)

/-- The invariant rule on top of an invariant `J` that is known already. -/
theorem Reachable.invariant_on {J I : σ → Prop} (hJ : ∀ s, Reachable step ok init s → J s)
    (hinit : ∀ s, init s → I s)
    (hstep : ∀ s a s', J s → I s → ok s a → step s a = some s' → I s')
    {s : σ} (h : Reachable step ok init s) : I s := by
  obtain ⟨s₀, h₀, hp⟩ := h
  induction hp with
  | refl => exact hinit _ h₀
  | tail hp hok hs ih => exact hstep _ _ _ (hJ _ ⟨s₀, h₀, hp⟩) ih hok hs

/-! ## Replaying a list of actions -/

section Replay

variable [∀ s a, Decidable (ok s a)]

/-- Perform a list of actions in order, as long as the guard allows them. -/
def run (step : σ → α → Option σ) (ok : σ → α → Prop) [∀ s a, Decidable (ok s a)] :
    σ → List α → Option σ
  | s, [] => some s
  | s, a :: as => if ok s a then (step s a).bind (fun s' => run step ok s' as) else none

/-- A list of actions that runs through is a path. -/
theorem path_of_run {s s' : σ} {as : List α} (h : run step ok s as = some s') :
    Path step ok s s' := by
  induction as generalizing s with
  | nil => cases h; exact Path.refl _
  | cons a as ih =>
      rw [run] at h
      split at h
      · rename_i hok
        obtain ⟨s₁, hs, hrest⟩ := Option.bind_eq_some_iff.mp h
        exact (Path.tail (Path.refl s) hok hs).trans (ih hrest)
      · exact absurd h (by simp)

/-- A list of actions that runs from an initial state to one where `p` holds. -/
theorem reachable_of_run (step : σ → α → Option σ) (ok : σ → α → Prop)
    [∀ s a, Decidable (ok s a)] (as : List α) (p : σ → Prop) [DecidablePred p] {s : σ}
    (hs : init s) (h : (run step ok s as).any (fun s' => decide (p s')) = true) :
    ∃ s', Reachable step ok init s' ∧ p s' := by
  cases hr : run step ok s as with
  | none => rw [hr] at h; exact absurd h (by simp)
  | some s' =>
      rw [hr] at h
      exact ⟨s', ⟨s, hs, path_of_run hr⟩, of_decide_eq_true h⟩

end Replay

/-! ## Simulation -/

section Simulation

variable {τ β : Type} {step' : τ → β → Option τ} {okt : τ → β → Prop} {init' : τ → Prop}

/--
**Forward simulation.** Where every step of one system is matched by a run of another,
up to a relation between their states, so is every run.
-/
theorem Reachable.simulate {R : σ → τ → Prop} (hinit : ∀ s, init s → ∃ t, init' t ∧ R s t)
    (hstep : ∀ s a s' t, Reachable step ok init s → R s t → ok s a → step s a = some s' →
      ∃ t', Path step' okt t t' ∧ R s' t')
    {s : σ} (h : Reachable step ok init s) : ∃ t, Reachable step' okt init' t ∧ R s t := by
  obtain ⟨s₀, h₀, hp⟩ := h
  induction hp with
  | refl =>
      obtain ⟨t, ht, hR⟩ := hinit s₀ h₀
      exact ⟨t, Reachable.start ht, hR⟩
  | tail hp hok hs ih =>
      obtain ⟨t, ht, hR⟩ := ih
      obtain ⟨t', hp', hR'⟩ := hstep _ _ _ t ⟨s₀, h₀, hp⟩ hR hok hs
      exact ⟨t', ht.later hp', hR'⟩

end Simulation

end BetterEfisis.Lib

import BetterEfisis.Lib.Reach
import BetterEfisis.Lib.Sidekiq
import Mathlib.Data.List.Perm.Basic
import Mathlib.Data.Nat.Find
import Mathlib.Data.Prod.Lex
import Mathlib.Logic.Hydra
import Mathlib.Order.WithBot
import Mathlib.Tactic.Abel

/-!
# Systems of jobs that come to rest

A job that enqueues other jobs leaves more of them than there were, and how many more can
depend on anything. So no number bounds the steps still to come, but a multiset of
weights does: a step takes one weight out of it and puts finitely many smaller ones in,
and no such sequence goes on for ever. Steps of no job (the clock, an edit) leave it alone,
and may go on (`finitely_many`).

The weight of a job is, in this order: its kind, larger for jobs that enqueue others; the
attempts it has left; and where its run stands, a job that waits counting as in front of
every place of its code. So a retry, which starts from the first statement again, makes
the weight smaller too.
-/

namespace BetterEfisis.Lib

/-! ## Runs that go on for ever -/

section Runs

variable {σ α β : Type} {step : σ → α → Option σ} {ok counts : σ → α → Prop} {s : σ}
  {f : ℕ → σ} {g : ℕ → α}

/-- A run of allowed steps that never ends: its states and its actions. -/
structure Endless (step : σ → α → Option σ) (ok : σ → α → Prop) (s : σ) (f : ℕ → σ) (g : ℕ → α) :
    Prop where
  start : f 0 = s
  allowed : ∀ n, ok (f n) (g n)
  goes : ∀ n, step (f n) (g n) = some (f (n + 1))

/-- No step that counts is allowed. -/
def AtRest (step : σ → α → Option σ) (ok counts : σ → α → Prop) (s : σ) : Prop :=
  ∀ a, ok s a → counts s a → step s a = none

theorem Endless.path (h : Endless step ok s f g) (n : ℕ) : Path step ok s (f n) := by
  induction n with
  | zero => rw [h.start]; exact Path.refl s
  | succ n ih => exact Path.tail ih (h.allowed n) (h.goes n)

/-- What is left of the run from a step on, under a guard that holds from there on. -/
theorem Endless.drop {ok' : σ → α → Prop} (h : Endless step ok s f g) {m : ℕ}
    (hok : ∀ n, m ≤ n → ok' (f n) (g n)) :
    Endless step ok' (f m) (fun n => f (m + n)) (fun n => g (m + n)) :=
  ⟨rfl, fun n => hok _ (Nat.le_add_right m n), fun n => h.goes (m + n)⟩

variable {r : β → β → Prop}

/--
Where the steps that count go down in a well-founded order, and the others stay where they
are, a run that goes on for ever comes to an end of the steps that count.
-/
theorem finitely_many (hwf : WellFounded r) (measure : σ → β) (I : σ → Prop)
    (hinv : ∀ s a s', I s → ok s a → step s a = some s' → I s')
    (hkeep : ∀ s a s', ok s a → ¬ counts s a → step s a = some s' → measure s' = measure s)
    (hdec : ∀ s a s', I s → ok s a → counts s a → step s a = some s' →
      r (measure s') (measure s))
    (hs : I s) (h : Endless step ok s f g) : ∃ m, ∀ n, m ≤ n → ¬ counts (f n) (g n) := by
  have hI : ∀ n, I (f n) := fun n =>
    (h.path n).preserves (fun s a s' hs hok ha => hinv s a s' hs hok ha) hs
  -- from any step on, by induction on how far there is to go down
  have hmain : ∀ x n, measure (f n) = x → ∃ m, ∀ k, m ≤ k → ¬ counts (f k) (g k) := by
    intro x
    induction x using hwf.induction with
    | _ x ih =>
        intro n hn
        by_cases hsome : ∃ d, counts (f (n + d)) (g (n + d))
        · classical
          have hfirst : ∀ d, (∀ e, e < d → ¬ counts (f (n + e)) (g (n + e))) →
              measure (f (n + d)) = x := by
            intro d
            induction d with
            | zero => exact fun _ => hn
            | succ d ihd =>
                intro hno
                rw [← ihd fun e he => hno e (by omega)]
                exact hkeep _ _ _ (h.allowed _) (hno d (by omega)) (h.goes (n + d))
          have hat := hfirst (Nat.find hsome) fun e he => Nat.find_min hsome he
          have hdown := hdec _ _ _ (hI _) (h.allowed _) (Nat.find_spec hsome) (h.goes _)
          rw [hat] at hdown
          exact ih _ hdown _ rfl
        · exact ⟨n, fun k hk hc => hsome ⟨k - n, by rwa [Nat.add_sub_cancel' hk]⟩⟩
  exact hmain _ 0 rfl

end Runs

/-! ## Weights -/

/-- A place in the code: a stage, and two counters within it. -/
abbrev Rank := ℕ ×ₗ ℕ ×ₗ ℕ

/-- The kind, the attempts left, and the place. -/
abbrev Weight := ℕ ×ₗ ℕ ×ₗ WithTop Rank

theorem weight_wf : WellFounded (Relation.CutExpand ((· < ·) : Weight → Weight → Prop)) :=
  WellFounded.cutExpand wellFounded_lt

def stage (a : ℕ) (b : ℕ) (c : ℕ) : Rank := toLex (a, toLex (b, c))

theorem stage_lt {a b c a' b' c' : ℕ} :
    stage a b c < stage a' b' c' ↔ a < a' ∨ a = a' ∧ (b < b' ∨ b = b' ∧ c < c') := by
  unfold stage
  rw [Prod.Lex.toLex_lt_toLex]
  simp only [Prod.Lex.toLex_lt_toLex]

section Jobs

variable {arg pc : Type}

/-- The attempts a job has left. -/
def Job.attempts (j : Job arg pc) : ℕ :=
  if j.isLive then maxRetryAttempts - j.retries + 1 else 0

/-- Where its run stands, or in front of everything. -/
def Job.placeBy (place : pc → Rank) (j : Job arg pc) : WithTop Rank :=
  match j.phase with
  | .running p => place p
  | _ => ⊤

def Job.weight (kind : ℕ) (place : pc → Rank) (j : Job arg pc) : Weight :=
  toLex (kind, toLex (j.attempts, j.placeBy place))

variable {kind kind' : ℕ} {place : pc → Rank} {j j' : Job arg pc}

theorem weight_lt {arg' pc' : Type} {place' : pc' → Rank} {j' : Job arg' pc'} :
    j'.weight kind' place' < j.weight kind place ↔ kind' < kind ∨ kind' = kind
      ∧ (j'.attempts < j.attempts ∨ j'.attempts = j.attempts
        ∧ j'.placeBy place' < j.placeBy place) := by
  unfold Job.weight
  rw [Prod.Lex.toLex_lt_toLex]
  simp only [Prod.Lex.toLex_lt_toLex]

theorem attempts_running {p : pc} (hp : j.phase = .running p) :
    j.attempts = maxRetryAttempts - j.retries + 1 := by
  unfold Job.attempts Job.isLive
  rw [hp]
  rfl

/-- A job that is picked up. -/
theorem weight_start {p : pc} (hlive : j.isLive = true) (hno : ∀ q, j.phase ≠ .running q) :
    Job.weight kind place { j with phase := .running p } < j.weight kind place := by
  refine weight_lt.mpr (Or.inr ⟨rfl, Or.inr ⟨?_, ?_⟩⟩)
  · unfold Job.attempts
    rw [hlive]
    rfl
  · have htop : j.placeBy place = ⊤ := by
      unfold Job.placeBy
      split
      · rename_i q hq
        exact absurd hq (hno q)
      · rfl
    rw [htop]
    exact WithTop.coe_lt_top _

/-- A run that raises. -/
theorem weight_raise {p : pc} (hp : j.phase = .running p) :
    j.raise.weight kind place < j.weight kind place := by
  refine weight_lt.mpr (Or.inr ⟨rfl, Or.inl ?_⟩)
  rw [attempts_running hp]
  unfold Job.raise
  split
  · rename_i hleft
    show maxRetryAttempts - (j.retries + 1) + 1 < _
    omega
  · show 0 < _
    omega

/-- A statement of a run: it raises, or goes on to a smaller place, or ends the run. -/
theorem weight_settle {p : pc} {o : Outcome pc} (hp : j.phase = .running p)
    (ho : ∀ q, o = .next q → place q < place p) :
    (j.settle o).weight kind place < j.weight kind place := by
  cases o with
  | raised => exact weight_raise hp
  | finished =>
      refine weight_lt.mpr (Or.inr ⟨rfl, Or.inl ?_⟩)
      rw [attempts_running hp]
      show 0 < _
      omega
  | next q =>
      refine weight_lt.mpr (Or.inr ⟨rfl, Or.inr ⟨?_, ?_⟩⟩)
      · rw [attempts_running hp]
        rfl
      · have hplace : j.placeBy place = (place p : WithTop Rank) := by
          unfold Job.placeBy
          rw [hp]
        rw [hplace]
        exact WithTop.coe_lt_coe.mpr (ho q rfl)

/-! ## Lists of jobs -/

def weights (kind : ℕ) (place : pc → Rank) (l : List (Job arg pc)) : Multiset Weight :=
  ((l.map (Job.weight kind place) : List Weight) : Multiset Weight)

theorem weights_append (l l' : List (Job arg pc)) :
    weights kind place (l ++ l') = weights kind place l + weights kind place l' := by
  unfold weights
  rw [List.map_append, Multiset.coe_add]

theorem mem_weights {l : List (Job arg pc)} {x : Weight} :
    x ∈ weights kind place l ↔ ∃ j ∈ l, j.weight kind place = x := by
  unfold weights
  rw [Multiset.mem_coe, List.mem_map]

/-- Jobs of a smaller kind are smaller, whatever they have left to do. -/
theorem weights_lt_of_kind {arg' pc' : Type} {place' : pc' → Rank} {l : List (Job arg' pc')}
    (hkind : kind' < kind) : ∀ x ∈ weights kind' place' l, x < j.weight kind place := by
  intro x hx
  obtain ⟨j', _, rfl⟩ := mem_weights.mp hx
  exact weight_lt.mpr (Or.inl hkind)

/-- A list with one entry replaced, as a multiset. -/
theorem coe_set_add {γ : Type} {l : List γ} {i : ℕ} {a b : γ} (hi : l[i]? = some a) :
    ((l.set i b : List γ) : Multiset γ) + {a} = (l : Multiset γ) + {b} := by
  obtain ⟨hlt, rfl⟩ := List.getElem?_eq_some_iff.mp hi
  have hset : ((l.set i b : List γ) : Multiset γ) = b ::ₘ (l.eraseIdx i : Multiset γ) :=
    Multiset.coe_eq_coe.mpr (List.set_perm_cons_eraseIdx hlt b)
  have hold : (l : Multiset γ) = l[i] ::ₘ (l.eraseIdx i : Multiset γ) :=
    Multiset.coe_eq_coe.mpr (List.getElem_cons_eraseIdx_perm hlt).symm
  rw [hset, hold, ← Multiset.singleton_add, ← Multiset.singleton_add]
  abel

/-- One entry is replaced by a smaller one, and finitely many smaller ones come in. -/
theorem cutExpand_set {γ : Type} {r : γ → γ → Prop} {l : List γ} {i : ℕ} {a b : γ}
    {new : Multiset γ} (hi : l[i]? = some a) (hb : r b a) (hnew : ∀ x ∈ new, r x a) :
    Relation.CutExpand r (((l.set i b : List γ) : Multiset γ) + new) (l : Multiset γ) := by
  refine ⟨{b} + new, a, ?_, ?_⟩
  · intro x hx
    rcases Multiset.mem_add.mp hx with hx | hx
    · cases Multiset.mem_singleton.mp hx
      exact hb
    · exact hnew x hx
  · rw [add_right_comm, coe_set_add hi, add_assoc]

theorem cutExpand_replace {γ : Type} {r : γ → γ → Prop} {l : List γ} {i : ℕ} {a b : γ}
    (hi : l[i]? = some a) (hb : r b a) :
    Relation.CutExpand r ((l.set i b : List γ) : Multiset γ) (l : Multiset γ) := by
  have hcut : Relation.CutExpand r (((l.set i b : List γ) : Multiset γ) + 0) (l : Multiset γ) :=
    cutExpand_set hi hb (fun x hx => absurd hx (Multiset.notMem_zero x))
  rwa [add_zero] at hcut

/-- **A job moves on and enqueues smaller ones.** -/
theorem cut_set {l : List (Job arg pc)} {i : ℕ} {new : Multiset Weight} (hi : l[i]? = some j)
    (hlt : j'.weight kind place < j.weight kind place)
    (hnew : ∀ x ∈ new, x < j.weight kind place) :
    Relation.CutExpand (· < ·) (weights kind place (l.set i j') + new) (weights kind place l) := by
  have hmap : (l.map (Job.weight kind place))[i]? = some (j.weight kind place) := by
    rw [List.getElem?_map, hi]
    rfl
  unfold weights
  rw [List.map_set]
  exact cutExpand_set hmap hlt hnew

/-- A job moves on. -/
theorem cut_move {l : List (Job arg pc)} {i : ℕ} (hi : l[i]? = some j)
    (hlt : j'.weight kind place < j.weight kind place) :
    Relation.CutExpand (· < ·) (weights kind place (l.set i j')) (weights kind place l) := by
  unfold weights
  rw [List.map_set]
  exact cutExpand_replace (by rw [List.getElem?_map, hi]; rfl) hlt

/-! ## When there is nothing left to do -/

/-- No job is queued, running or waiting for a retry. -/
def AllDone (l : List (Job arg pc)) : Prop := ∀ j ∈ l, j.isLive = false

/-- A live job can be picked up, or its run can raise. -/
theorem can_move_of_live {l : List (Job arg pc)} (p : pc) (hj : j ∈ l) (hlive : j.isLive = true) :
    ∃ i, startAt l i p ≠ none ∨ raiseAt l i ≠ none := by
  obtain ⟨i, hi⟩ := List.getElem?_of_mem hj
  refine ⟨i, ?_⟩
  by_cases hrun : ∃ q, j.phase = .running q
  · obtain ⟨q, hq⟩ := hrun
    right
    rw [raiseAt_iff.mpr ⟨j, q, hi, hq, rfl⟩]
    simp
  · left
    have hno : ∀ q, j.phase ≠ .running q := fun q hq => hrun ⟨q, hq⟩
    rw [startAt_iff.mpr ⟨j, hi, hlive, hno, rfl⟩]
    simp

theorem startAt_of_done {l : List (Job arg pc)} {i : ℕ} {p : pc} (h : AllDone l) :
    startAt l i p = none := by
  rw [Option.eq_none_iff_forall_not_mem]
  intro l' hl'
  obtain ⟨j, hj, hlive, _⟩ := startAt_iff.mp hl'
  rw [h j (List.mem_of_getElem? hj)] at hlive
  exact absurd hlive (by simp)

theorem runningAt_of_done {l : List (Job arg pc)} {i : ℕ} (h : AllDone l) :
    runningAt l i = none := by
  rw [Option.eq_none_iff_forall_not_mem]
  intro jp hjp
  obtain ⟨hj, hp⟩ := runningAt_iff.mp hjp
  have hdone := h _ (List.mem_of_getElem? hj)
  unfold Job.isLive at hdone
  rw [hp] at hdone
  exact absurd hdone (by simp [Phase.isLive])

theorem raiseAt_of_done {l : List (Job arg pc)} {i : ℕ} (h : AllDone l) : raiseAt l i = none := by
  unfold raiseAt
  rw [runningAt_of_done h]
  rfl

end Jobs

end BetterEfisis.Lib

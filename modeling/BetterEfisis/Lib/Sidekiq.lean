import Mathlib.Data.List.Basic

/-!
# The life of a background job

A job is enqueued, picked up by a worker thread, and either returns or raises. A
job that raised waits for a retry, which starts it again from the beginning with
the same argument; after a bounded number of retries it is discarded instead.

The module knows nothing of what a job does. `pc` is the type of the places a
run of the job can stand at, and one step of the job's code has an `Outcome`.
-/

namespace BetterEfisis.Lib

/-- Where a job is in its life. -/
inductive Phase (pc : Type) where
  | queued
  | running (at_ : pc)
  | retrying
  | finished
  | discarded
deriving DecidableEq, Repr

/-- How one step of a job's code ends. -/
inductive Outcome (pc : Type) where
  | next (at_ : pc)
  | finished
  | raised
deriving DecidableEq, Repr

/-- A job of one worker class: its argument, where it is, and the retries it has used. -/
structure Job (arg pc : Type) where
  arg : arg
  phase : Phase pc
  retries : Nat
deriving DecidableEq, Repr

variable {arg pc : Type}

/-- The number of retries a job gets where its worker sets none. -/
def maxRetryAttempts : Nat := 25

/-- `perform_async`. -/
def Job.enqueue (a : arg) : Job arg pc := ⟨a, .queued, 0⟩

/-- A worker thread picks the job up and runs its code from the first statement, `p`. -/
def Job.start (j : Job arg pc) (p : pc) : Option (Job arg pc) :=
  match j.phase with
  | .queued | .retrying => some { j with phase := .running p }
  | _ => none

/-- The job's run raised: back to the retry set, or out of the system. -/
def Job.raise (j : Job arg pc) : Job arg pc :=
  if j.retries < maxRetryAttempts then
    { j with phase := .retrying, retries := j.retries + 1 }
  else { j with phase := .discarded }

/-- The job after a step of its code with the given outcome. -/
def Job.settle (j : Job arg pc) : Outcome pc → Job arg pc
  | .next p => { j with phase := .running p }
  | .finished => { j with phase := .finished }
  | .raised => j.raise

/-- Queued, running or waiting for a retry. -/
def Phase.isLive : Phase pc → Bool
  | .queued | .running _ | .retrying => true
  | .finished | .discarded => false

def Job.isLive (j : Job arg pc) : Bool := j.phase.isLive

/-- A run of the job is in progress. -/
def Job.inProgress (j : Job arg pc) : Bool :=
  match j.phase with
  | .running _ => true
  | _ => false

/-- The job's next failure is its last: no retry is left. -/
def Job.lastAttempt (j : Job arg pc) : Prop := maxRetryAttempts ≤ j.retries

@[simp] theorem Job.enqueue_arg (a : arg) : (Job.enqueue a : Job arg pc).arg = a := rfl

@[simp] theorem Job.enqueue_isLive (a : arg) : (Job.enqueue a : Job arg pc).isLive = true := rfl

theorem Job.start_eq {j j' : Job arg pc} {p : pc} (h : j.start p = some j') :
    j.isLive = true ∧ (∀ q, j.phase ≠ .running q) ∧ j' = { j with phase := .running p } := by
  unfold Job.start at h
  split at h
  · rename_i hp; cases h; exact ⟨by simp [Job.isLive, hp, Phase.isLive], by simp [hp], rfl⟩
  · rename_i hp; cases h; exact ⟨by simp [Job.isLive, hp, Phase.isLive], by simp [hp], rfl⟩
  · exact absurd h (by simp)

@[simp] theorem Job.raise_arg (j : Job arg pc) : j.raise.arg = j.arg := by
  unfold Job.raise; split <;> rfl

@[simp] theorem Job.settle_arg (j : Job arg pc) (o : Outcome pc) :
    (j.settle o).arg = j.arg := by
  cases o with
  | raised => exact j.raise_arg
  | _ => rfl

/-- A run that raised stands nowhere in the code any more. -/
theorem Job.raise_not_running (j : Job arg pc) (p : pc) : j.raise.phase ≠ .running p := by
  unfold Job.raise; split <;> simp

theorem Job.raise_inProgress (j : Job arg pc) : j.raise.inProgress = false := by
  unfold Job.raise
  split <;> rfl

/-- A job runs on after a step exactly where the step says so. -/
theorem Job.settle_running {j : Job arg pc} {o : Outcome pc} {p : pc}
    (h : (j.settle o).phase = .running p) : o = .next p := by
  cases o with
  | next p' =>
      cases h
      rfl
  | finished => exact absurd h (by simp [Job.settle])
  | raised => exact absurd h (j.raise_not_running p)

/-- Of two outcomes in a row the last one counts. -/
theorem Job.settle_settle (j : Job arg pc) (p : pc) (o : Outcome pc) :
    (j.settle (.next p)).settle o = j.settle o := by
  cases o with
  | next q => rfl
  | finished => rfl
  | raised =>
      show Job.raise { j with phase := .running p } = j.raise
      unfold Job.raise
      split <;> rfl

/-- A job that raises with a retry left waits for it. -/
theorem Job.raise_of_retry_left {j : Job arg pc} (h : ¬ j.lastAttempt) :
    j.raise.phase = .retrying := by
  unfold Job.raise
  rw [if_pos (Nat.lt_of_not_le h)]

/-! ## Lists of jobs, a job being known by its place -/

section Places

variable {α : Type} {l : List α} {i k : Nat} {a b : α}

theorem getElem?_set_cases (h : (l.set i a)[k]? = some b) :
    (k = i ∧ b = a) ∨ (k ≠ i ∧ l[k]? = some b) := by
  by_cases hk : k = i
  · subst hk
    rw [List.getElem?_set_self'] at h
    cases hq : l[k]? with
    | none => rw [hq] at h; exact absurd h (by simp)
    | some c => rw [hq] at h; exact Or.inl ⟨rfl, (Option.some.inj h).symm⟩
  · rw [List.getElem?_set_ne (Ne.symm hk)] at h
    exact Or.inr ⟨hk, h⟩

theorem getElem?_set_here (h : l[i]? = some b) : (l.set i a)[i]? = some a := by
  rw [List.getElem?_set_self', h]
  rfl

theorem getElem?_snoc_cases (h : (l ++ [a])[k]? = some b) :
    l[k]? = some b ∨ (k = l.length ∧ b = a) := by
  rcases Nat.lt_trichotomy k l.length with hk | hk | hk
  · rw [List.getElem?_append_left hk] at h; exact Or.inl h
  · subst hk
    rw [List.getElem?_append_right (Nat.le_refl _)] at h
    simp only [Nat.sub_self, List.getElem?_cons_zero, Option.some.injEq] at h
    exact Or.inr ⟨rfl, h.symm⟩
  · rw [List.getElem?_eq_none (by simp; omega)] at h; exact absurd h (by simp)

theorem getElem?_snoc_of_some (h : l[k]? = some b) : (l ++ [a])[k]? = some b := by
  rw [List.getElem?_append_left (List.getElem?_eq_some_iff.mp h).1, h]

end Places

/-! ## Where the runs stand -/

/-- The place a run of the job stands at. -/
def Job.standing (j : Job arg pc) : Option pc :=
  match j.phase with
  | .running p => some p
  | _ => none

/-- The place the run of the `i`-th job stands at. -/
def standsAt (l : List (Job arg pc)) (i : Nat) : Option pc := (l[i]?).bind Job.standing

section Standing

variable {l : List (Job arg pc)} {i k : Nat} {j : Job arg pc} {p : pc}

theorem standing_iff : j.standing = some p ↔ j.phase = .running p := by
  unfold Job.standing
  constructor
  · intro h
    split at h
    · rename_i q hq
      rw [hq, Option.some.inj h]
    · exact absurd h (by simp)
  · intro h
    rw [h]

theorem standsAt_iff : standsAt l i = some p ↔ ∃ j, l[i]? = some j ∧ j.phase = .running p := by
  unfold standsAt
  rw [Option.bind_eq_some_iff]
  simp only [standing_iff]

@[simp] theorem standsAt_nil : standsAt ([] : List (Job arg pc)) i = none := rfl

theorem standsAt_set_ne (hk : k ≠ i) : standsAt (l.set i j) k = standsAt l k := by
  unfold standsAt
  rw [List.getElem?_set_ne (Ne.symm hk)]

theorem standsAt_lt (h : standsAt l i = some p) : i < l.length := by
  obtain ⟨j, hj, _⟩ := standsAt_iff.mp h
  exact (List.getElem?_eq_some_iff.mp hj).1

end Standing

/-! ## The three things that happen to a job by its place -/

/-- The `i`-th job, where a run of it is in progress, and the place that run stands at. -/
def runningAt (l : List (Job arg pc)) (i : Nat) : Option (Job arg pc × pc) :=
  (l[i]?).bind (fun j => j.standing.map (fun p => (j, p)))

/-- A worker thread picks the `i`-th job up. -/
def startAt (l : List (Job arg pc)) (i : Nat) (p : pc) : Option (List (Job arg pc)) :=
  (l[i]?).bind (fun j => (j.start p).map (l.set i))

/-- The run of the `i`-th job raises. -/
def raiseAt (l : List (Job arg pc)) (i : Nat) : Option (List (Job arg pc)) :=
  (runningAt l i).map (fun jp => l.set i jp.1.raise)

section ByPlace

variable {l l' : List (Job arg pc)} {i : Nat} {j : Job arg pc} {p : pc}

theorem runningAt_iff : runningAt l i = some (j, p) ↔ l[i]? = some j ∧ j.phase = .running p := by
  unfold runningAt
  rw [Option.bind_eq_some_iff]
  constructor
  · intro h
    obtain ⟨j', hj, h⟩ := h
    obtain ⟨q, hq, heq⟩ := Option.map_eq_some_iff.mp h
    cases heq
    exact ⟨hj, standing_iff.mp hq⟩
  · intro h
    obtain ⟨hj, hp⟩ := h
    exact ⟨j, hj, by rw [standing_iff.mpr hp]; rfl⟩

/-- A live job that no run of is in progress can be picked up. -/
theorem Job.start_of_live (hlive : j.isLive = true) (hno : ∀ q, j.phase ≠ .running q) :
    j.start p = some { j with phase := .running p } := by
  unfold Job.isLive at hlive
  unfold Job.start
  cases hp : j.phase with
  | queued | retrying => rfl
  | running q => exact absurd hp (hno q)
  | finished | discarded =>
      rw [hp] at hlive
      exact absurd hlive (by simp [Phase.isLive])

theorem startAt_iff : startAt l i p = some l' ↔ ∃ j, l[i]? = some j ∧ j.isLive = true
    ∧ (∀ q, j.phase ≠ .running q) ∧ l' = l.set i { j with phase := .running p } := by
  unfold startAt
  rw [Option.bind_eq_some_iff]
  constructor
  · intro h
    obtain ⟨j, hj, h⟩ := h
    obtain ⟨j', hstart, rfl⟩ := Option.map_eq_some_iff.mp h
    obtain ⟨hlive, hno, rfl⟩ := Job.start_eq hstart
    exact ⟨j, hj, hlive, hno, rfl⟩
  · intro h
    obtain ⟨j, hj, hlive, hno, rfl⟩ := h
    exact ⟨j, hj, by rw [Job.start_of_live hlive hno]; rfl⟩

theorem raiseAt_iff : raiseAt l i = some l' ↔
    ∃ j p, l[i]? = some j ∧ j.phase = .running p ∧ l' = l.set i j.raise := by
  unfold raiseAt
  rw [Option.map_eq_some_iff]
  constructor
  · intro h
    obtain ⟨⟨j, p⟩, hr, rfl⟩ := h
    obtain ⟨hj, hp⟩ := runningAt_iff.mp hr
    exact ⟨j, p, hj, hp, rfl⟩
  · intro h
    obtain ⟨j, p, hj, hp, rfl⟩ := h
    exact ⟨(j, p), runningAt_iff.mpr ⟨hj, hp⟩, rfl⟩

/-- A job of the list after one of its jobs was replaced is that one, or was there before. -/
theorem mem_set_cases {α : Type} {l : List α} {a b : α} (h : b ∈ l.set i a) : b = a ∨ b ∈ l := by
  rcases List.mem_or_eq_of_mem_set h with h | h
  · exact Or.inr h
  · exact Or.inl h

/-- The arguments of jobs that have just been enqueued. -/
theorem map_arg_enqueue (as : List arg) :
    (as.map Job.enqueue : List (Job arg pc)).map Job.arg = as := by
  simp [Function.comp_def]

/-- Replacing a job by one with the same argument leaves the arguments alone. -/
theorem map_arg_set (hj : l[i]? = some j) (j' : Job arg pc) (ha : j'.arg = j.arg) :
    (l.set i j').map Job.arg = l.map Job.arg := by
  rw [List.map_set, ha]
  obtain ⟨hi, rfl⟩ := List.getElem?_eq_some_iff.mp hj
  rw [← List.getElem_map Job.arg (h := by simpa using hi), List.set_getElem_self]

end ByPlace

/-! ## What holds of every run in progress -/

/-- Every run in progress stands at a place that `P` allows a job with its argument. -/
def AllStand (P : arg → pc → Prop) (l : List (Job arg pc)) : Prop :=
  ∀ j ∈ l, ∀ p, j.phase = .running p → P j.arg p

section AllStand

variable {P Q : arg → pc → Prop} {l : List (Job arg pc)} {i : Nat} {j : Job arg pc}

theorem allStand_nil : AllStand P ([] : List (Job arg pc)) := by
  intro j hj
  exact absurd hj (by simp)

theorem AllStand.mono (h : AllStand P l) (hle : ∀ a p, P a p → Q a p) : AllStand Q l :=
  fun j hj p hp => hle _ _ (h j hj p hp)

theorem AllStand.enqueue (h : AllStand P l) (as : List arg) :
    AllStand P (l ++ as.map Job.enqueue) := by
  intro j hj p hp
  rcases List.mem_append.mp hj with hj | hj
  · exact h j hj p hp
  · obtain ⟨a, _, rfl⟩ := List.mem_map.mp hj
    exact absurd hp (by simp [Job.enqueue])

theorem AllStand.raise (h : AllStand P l) : AllStand P (l.set i j.raise) := by
  intro k hk p hp
  rcases mem_set_cases hk with rfl | hk
  · exact absurd hp (j.raise_not_running p)
  · exact h k hk p hp

theorem AllStand.start (h : AllStand P l) {p : pc} (hp : P j.arg p) :
    AllStand P (l.set i { j with phase := .running p }) := by
  intro k hk q hq
  rcases mem_set_cases hk with rfl | hk
  · cases hq
    exact hp
  · exact h k hk q hq

theorem AllStand.settle (h : AllStand P l) {o : Outcome pc}
    (ho : ∀ q, o = .next q → P j.arg q) : AllStand P (l.set i (j.settle o)) := by
  intro k hk q hq
  rcases mem_set_cases hk with rfl | hk
  · rw [Job.settle_arg]
    exact ho q (Job.settle_running hq)
  · exact h k hk q hq

theorem AllStand.here (h : AllStand P l) {p : pc} (hj : l[i]? = some j)
    (hp : j.phase = .running p) : P j.arg p := h j (List.mem_of_getElem? hj) p hp

end AllStand

/-! ## What holds of every job's argument -/

/-- Every job, in progress or not, has an argument that `P` holds of. -/
def AllArgs (P : arg → Prop) (l : List (Job arg pc)) : Prop := ∀ j ∈ l, P j.arg

section AllArgs

variable {P Q : arg → Prop} {l : List (Job arg pc)} {i : Nat} {j : Job arg pc}

theorem allArgs_nil : AllArgs P ([] : List (Job arg pc)) := by
  intro j hj
  exact absurd hj (by simp)

theorem AllArgs.mono (h : AllArgs P l) (hle : ∀ a, P a → Q a) : AllArgs Q l :=
  fun j hj => hle _ (h j hj)

theorem AllArgs.here (h : AllArgs P l) (hj : l[i]? = some j) : P j.arg :=
  h j (List.mem_of_getElem? hj)

theorem AllArgs.set (h : AllArgs P l) (hj : l[i]? = some j) (j' : Job arg pc)
    (ha : j'.arg = j.arg) : AllArgs P (l.set i j') := by
  intro k hk
  rcases mem_set_cases hk with rfl | hk
  · rw [ha]
    exact h.here hj
  · exact h k hk

theorem AllArgs.enqueue (h : AllArgs P l) {as : List arg} (has : ∀ a ∈ as, P a) :
    AllArgs P (l ++ as.map Job.enqueue) := by
  intro k hk
  rcases List.mem_append.mp hk with hk | hk
  · exact h k hk
  · obtain ⟨a, ha, rfl⟩ := List.mem_map.mp hk
    exact has a ha

end AllArgs

end BetterEfisis.Lib

import BetterEfisis.Proof.Copies

/-!
# Who watches an event

Two things can be said of an event id in a world: a monitor job for it is live,
and an `OddsWorker` run has enqueued a monitor for it whose flag it has not saved
yet. This module says how each of them, and the row itself, can change in one
step.
-/

namespace BetterEfisis.Proof

open Lib

/-- Job `j` is a live monitor of event `id`: queued, running or waiting for a retry. -/
def LiveAt (w : World) (id : Int) (j : Nat) : Prop :=
  ∃ job, w.monitors[j]? = some job ∧ job.isLive = true ∧ job.arg = id

theorem liveAt_iff {w : World} {id : Int} {j : Nat} :
    LiveAt w id j ↔
      (w.monitors[j]?).any (fun job => job.isLive && decide (job.arg = id)) = true := by
  simp [LiveAt, Option.any_eq_true]

instance (w : World) (id : Int) (j : Nat) : Decidable (LiveAt w id j) :=
  decidable_of_iff _ liveAt_iff.symm

/-- `OddsWorker` job `i` is between `perform_async` and `save` for event `id`. -/
def SavingAt (w : World) (i : Nat) (id : Int) : Prop :=
  ∃ job, w.ticks[i]? = some job ∧ ∃ c, saving job = some c ∧ c.id = id

/-- The step `a` is `perform_async` of a monitor of `id`, by `OddsWorker` job `i`. -/
def EnqueuesAt (w : World) (a : World.Act) (i : Nat) (id : Int) : Prop :=
  ∃ d job e rows, a = .tick i d ∧ w.ticks[i]? = some job
    ∧ job.phase = .running (.monitor (e :: rows)) ∧ e.id = id ∧ e.monitored ≠ some true

/-! ## The same as tests -/

theorem savingAt_iff {w : World} {i : Nat} {id : Int} :
    SavingAt w i id ↔ (w.ticks[i]?).any (fun job => (saving job).any (fun c =>
      decide (c.id = id))) = true := by
  simp [SavingAt, Option.any_eq_true]

/-- The monitor a run that stands at a row of the first loop is about to enqueue. -/
def enqueueing (job : Job Unit OddsWorker.Pc) : Option Int :=
  match job.phase with
  | .running (.monitor (e :: _)) => if e.monitored = some true then none else some e.id
  | _ => none

theorem enqueueing_eq {job : Job Unit OddsWorker.Pc} {id : Int} :
    enqueueing job = some id ↔ ∃ e rows, job.phase = .running (.monitor (e :: rows))
      ∧ e.id = id ∧ e.monitored ≠ some true := by
  unfold enqueueing
  split
  · rename_i e rows hp
    rw [hp]
    by_cases hm : e.monitored = some true
    · simp [hm]
    · simp [hm]
  · rename_i hne
    simp only [false_iff, reduceCtorEq]
    intro h
    obtain ⟨e, rows, hp, _⟩ := h
    exact hne e rows hp

theorem enqueuesAt_iff {w : World} {i d : Nat} {id : Int} :
    EnqueuesAt w (.tick i d) i id ↔
      (w.ticks[i]?).any (fun job => decide (enqueueing job = some id)) = true := by
  simp only [EnqueuesAt, Option.any_eq_true, decide_eq_true_eq, enqueueing_eq]
  constructor
  · intro h
    obtain ⟨_, job, e, rows, _, hj, hp, h⟩ := h
    exact ⟨job, hj, e, rows, hp, h⟩
  · intro h
    obtain ⟨job, hj, e, rows, hp, h⟩ := h
    exact ⟨d, job, e, rows, rfl, hj, hp, h⟩

instance (w : World) (i : Nat) (id : Int) : Decidable (SavingAt w i id) :=
  decidable_of_iff _ savingAt_iff.symm

instance (w : World) (i d : Nat) (id : Int) : Decidable (EnqueuesAt w (.tick i d) i id) :=
  decidable_of_iff _ enqueuesAt_iff.symm

/-- Only the runs there are can hold a copy. -/
theorem forall_ticks {w : World} {P : Nat → Prop}
    (h : ∀ i, w.ticks.length ≤ i → P i) : (∀ i, P i) ↔ ∀ i < w.ticks.length, P i := by
  refine ⟨fun hall i _ => hall i, fun hall i => ?_⟩
  rcases Nat.lt_or_ge i w.ticks.length with hi | hi
  · exact hall i hi
  · exact h i hi

theorem not_savingAt_of_ge {w : World} {i : Nat} {id : Int} (h : w.ticks.length ≤ i) :
    ¬ SavingAt w i id := by
  intro hs
  obtain ⟨job, hj, _⟩ := hs
  rw [List.getElem?_eq_none h] at hj
  exact absurd hj (by simp)

instance (w : World) (id : Int) : Decidable (∀ i, ¬ SavingAt w i id) :=
  decidable_of_iff _ (forall_ticks (fun _ h => not_savingAt_of_ge h)).symm

/-! ## The runs -/

theorem savingAt_stored {w : World} (h : CopyInv w) {i : Nat} {id : Int} (hs : SavingAt w i id) :
    id ∈ storedIds w := by
  obtain ⟨job, hj, c, hc, hcid⟩ := hs
  exact hcid ▸ (h.ticks job (List.mem_of_getElem? hj) c (mem_copies.mpr (Or.inl hc))).2

/-- A run that is saving a flag was saving it before, or has just enqueued the monitor. -/
theorem savingAt_change {cfg : Config} {w w' : World} {a : World.Act} (hs : Effect cfg w w' a)
    {k : Nat} {id : Int} (h : SavingAt w' k id) :
    SavingAt w k id ∨ (EnqueuesAt w a k id ∧ w'.monitors = w.monitors ++ [Job.enqueue id]) := by
  obtain ⟨job', hk, c, hc, hcid⟩ := h
  -- a step of a run that is not saving afterwards is not the run at `k`
  have put : ∀ {i : Nat} {job₁ : Job Unit OddsWorker.Pc},
      w'.ticks = w.ticks.set i job₁ → saving job₁ = none → SavingAt w k id := by
    intro i job₁ he hnone
    rw [he] at hk
    rcases getElem?_set_cases hk with ⟨rfl, rfl⟩ | ⟨_, hk'⟩
    · rw [hnone] at hc; exact absurd hc (by simp)
    · exact ⟨job', hk', c, hc, hcid⟩
  cases hs with
  | idle _ he _ | imported _ he _ _ _ | monitorQuiet _ _ _ he _ _ _ _ _
  | monitorRaised _ _ _ he _ _ | monitorMarks _ _ _ he _ _ _ _ _ _
  | monitorMarked _ _ _ he _ _ _ _ _ _ | monitorFinishes _ _ _ _ he _ _ _ _ _
  | monitorFinished _ _ _ he _ _ _ _ _ _ =>
      rw [he] at hk; exact Or.inl ⟨job', hk, c, hc, hcid⟩
  | scheduled _ he _ =>
      rw [he] at hk
      rcases getElem?_snoc_cases hk with hk' | ⟨_, rfl⟩
      · exact Or.inl ⟨job', hk', c, hc, hcid⟩
      · exact absurd hc (by simp)
  | tickQuiet _ he _ _ _ hs' _ => exact Or.inl (put he hs')
  | tickRaised _ he _ _ => exact Or.inl (put he (saving_raise _))
  | tickLoaded _ _ he _ _ hs' _ => exact Or.inl (put he hs')
  | @tickEnqueued i d job job₁ e rest hj he _ hm hs hp hmon hs' _ =>
      rw [he] at hk
      rcases getElem?_set_cases hk with ⟨rfl, rfl⟩ | ⟨_, hk'⟩
      · rw [hs'] at hc
        cases hc
        subst hcid
        exact Or.inr ⟨⟨d, job, _, rest, rfl, hj, phase_of_pending hs hp, rfl, hmon⟩, hm⟩
      · exact Or.inl ⟨job', hk', c, hc, hcid⟩
  | tickSaved _ he _ _ _ hs' _ => exact Or.inl (put he hs')

/-- A run stops saving a flag by saving it or by raising. -/
theorem savingAt_next {cfg : Config} {w w' : World} {a : World.Act} (hs : Effect cfg w w' a)
    {k : Nat} {id : Int} (h : SavingAt w k id) :
    SavingAt w' k id ∨ a = .raiseTick k
      ∨ ∃ e, w'.store.events = Event.save w.store.events e (OddsWorker.monitored e) ∧ e.id = id
          ∧ ∃ job ∈ w.ticks, saving job = some e := by
  obtain ⟨job', hk, c, hc, hcid⟩ := h
  -- nor is a step of a run that was not saving before
  have keep : ∀ {i : Nat} {job job₁ : Job Unit OddsWorker.Pc}, w.ticks[i]? = some job →
      w'.ticks = w.ticks.set i job₁ → saving job = none → SavingAt w' k id := by
    intro i job job₁ hj he hnone
    have hne : i ≠ k := by
      intro he
      subst he
      rw [hj] at hk
      cases hk
      rw [hnone] at hc
      exact absurd hc (by simp)
    exact ⟨job', by rw [he, List.getElem?_set_ne hne]; exact hk, c, hc, hcid⟩
  cases hs with
  | idle _ he _ | imported _ he _ _ _ | monitorQuiet _ _ _ he _ _ _ _ _
  | monitorRaised _ _ _ he _ _ | monitorMarks _ _ _ he _ _ _ _ _ _
  | monitorMarked _ _ _ he _ _ _ _ _ _ | monitorFinishes _ _ _ _ he _ _ _ _ _
  | monitorFinished _ _ _ he _ _ _ _ _ _ =>
      exact Or.inl ⟨job', by rw [he]; exact hk, c, hc, hcid⟩
  | scheduled _ he _ =>
      exact Or.inl ⟨job', by rw [he]; exact getElem?_snoc_of_some hk, c, hc, hcid⟩
  | tickQuiet hj he _ _ hs' _ _ => exact Or.inl (keep hj he hs')
  | @tickRaised i job hj he _ _ =>
      by_cases hik : i = k
      · subst hik; exact Or.inr (Or.inl rfl)
      · exact Or.inl ⟨job', by rw [he, List.getElem?_set_ne hik]; exact hk, c, hc, hcid⟩
  | tickLoaded hj hl he _ _ _ _ => exact Or.inl (keep hj he (by simp [saving, hl]))
  | tickEnqueued hj he _ _ hs' _ _ _ _ => exact Or.inl (keep hj he hs')
  | @tickSaved i d job job₁ e hj he hev _ hs' _ _ =>
      by_cases hik : i = k
      · subst hik
        rw [hj] at hk
        cases hk
        rw [hc] at hs'
        cases hs'
        exact Or.inr (Or.inr ⟨c, hev, hcid, job', List.mem_of_getElem? hj, hc⟩)
      · exact Or.inl ⟨job', by rw [he, List.getElem?_set_ne hik]; exact hk, c, hc, hcid⟩

/-! ## The monitors -/

/-- A live monitor was live before, or a run has just enqueued it and has its flag to save. -/
theorem liveAt_change {cfg : Config} {w w' : World} {a : World.Act} (hs : Effect cfg w w' a)
    {id : Int} {k : Nat} (h : LiveAt w' id k) :
    LiveAt w id k ∨ (k = w.monitors.length ∧ ∃ i, EnqueuesAt w a i id ∧ SavingAt w' i id) := by
  obtain ⟨job', hk, hl, harg⟩ := h
  -- a monitor that takes a step was live before it
  have put : ∀ {i : Nat} {job job₁ : Job Int MonitorWEBWorker.Pc}, w.monitors[i]? = some job →
      w'.monitors = w.monitors.set i job₁ → job₁.arg = job.arg →
      (job₁.isLive = true → job.isLive = true) → LiveAt w id k := by
    intro i job job₁ hj he ha hlive
    rw [he] at hk
    rcases getElem?_set_cases hk with ⟨rfl, rfl⟩ | ⟨_, hk'⟩
    · exact ⟨job, hj, hlive hl, by rw [← ha, harg]⟩
    · exact ⟨job', hk', hl, harg⟩
  cases hs with
  | idle _ _ he | imported _ _ he _ _ | scheduled _ _ he | tickQuiet _ _ _ he _ _ _
  | tickRaised _ _ _ he | tickLoaded _ _ _ _ he _ _ | tickSaved _ _ _ he _ _ _ =>
      rw [he] at hk; exact Or.inl ⟨job', hk, hl, harg⟩
  | @tickEnqueued i d job job₁ e rest hj he _ hm hs hp hmon hs' _ =>
      rw [hm] at hk
      rcases getElem?_snoc_cases hk with hk' | ⟨hlen, rfl⟩
      · exact Or.inl ⟨job', hk', hl, harg⟩
      · rw [Job.enqueue_arg] at harg
        exact Or.inr ⟨hlen, i, ⟨d, job, e, rest, rfl, hj, phase_of_pending hs hp, harg, hmon⟩,
          ⟨job₁, by rw [he]; exact getElem?_set_here hj, e, hs', harg⟩⟩
  | monitorQuiet hj he _ _ h1 _ ha _ _ => exact Or.inl (put hj he ha (fun _ => h1))
  | monitorRaised hj he _ _ hp _ =>
      exact Or.inl (put hj he (Job.raise_arg _) (fun _ => isLive_of_running hp))
  | monitorMarks hj he _ _ h1 _ ha _ _ _ => exact Or.inl (put hj he ha (fun _ => h1))
  | monitorMarked hj he _ _ _ h1 _ ha _ _ => exact Or.inl (put hj he ha (fun _ => h1))
  | monitorFinishes hj hp he _ _ _ ha _ _ _ =>
      exact Or.inl (put hj he ha (fun _ => isLive_of_running hp))
  | monitorFinished hj he _ _ _ h1 _ ha _ _ => exact Or.inl (put hj he ha (fun _ => h1))

/-! ## The row -/

/-- How the flags of a stored event change in a step. -/
inductive RowChange (cfg : Config) (w w' : World) (id : Int) (r r' : Event) : Prop where
  | same : r'.status = r.status → r'.monitored = r.monitored → RowChange cfg w w' id r r'
  /-- A run saves the flag of `id`. -/
  | saved {i : Nat} :
      SavingAt w i id → r'.status = r.status → r'.monitored = some true → w'.monitors = w.monitors →
      RowChange cfg w w' id r r'
  /-- A monitor of `id` writes IN_PLAY, over a copy that may say IN_PLAY already. -/
  | marked {j : Nat} {job job' : Job Int MonitorWEBWorker.Pc} {c : Event} :
      w.monitors[j]? = some job → w'.monitors = w.monitors.set j job' →
      marking job = some c → job.arg = id → job'.arg = id → job.isLive = true →
      job'.isLive = true → finishing job' = none →
      r'.monitored = r.monitored →
      r'.status = (if c.status = some .inPlay then r.status else some .inPlay) →
      RowChange cfg w w' id r r'
  /-- A monitor of `id` writes ENDED and `monitored: false`, and is done. -/
  | finished {j : Nat} {job job' : Job Int MonitorWEBWorker.Pc} {c : Event} :
      w.monitors[j]? = some job → w'.monitors = w.monitors.set j job' →
      finishing job = some c → job.arg = id → job.isLive = true → job'.isLive = false →
      cfg.updateMethod = .persistence →
      r'.monitored = (if c.monitored = some false then r.monitored else some false) →
      r'.status = (if c.status = some .ended then r.status else some .ended) →
      RowChange cfg w w' id r r'

/-- A stored event stays stored, and this is how its flags change. -/
theorem row_next {cfg : Config} {w w' : World} {a : World.Act} (hc : CopyInv w)
    (hs : Effect cfg w w' a) {id : Int} {r : Event}
    (hr : Event.lookup w.store.events id = some r) :
    ∃ r', Event.lookup w'.store.events id = some r' ∧ RowChange cfg w w' id r r' := by
  have keep : w'.store.events = w.store.events →
      ∃ r', Event.lookup w'.store.events id = some r' ∧ RowChange cfg w w' id r r' :=
    fun he => ⟨r, by rw [he]; exact hr, .same rfl rfl⟩
  have hrid : r.id = id := (Event.lookup_mem hr).2
  cases hs with
  | idle he _ _ | scheduled he _ _ | tickQuiet _ _ he _ _ _ _ | tickRaised _ _ he _
  | tickLoaded _ _ _ he _ _ _ | tickEnqueued _ _ he _ _ _ _ _ _ | monitorQuiet _ _ he _ _ _ _ _ _
  | monitorRaised _ _ he _ _ _ | monitorMarks _ _ he _ _ _ _ _ _ _
  | monitorFinishes _ _ _ he _ _ _ _ _ _ => exact keep he
  | imported he _ _ _ _ =>
      exact ⟨r, by rw [he]; exact Event.lookup_append_of_some hr, .same rfl rfl⟩
  | @tickSaved i d job job₁ e hj _ he hm hse _ _ =>
      have hjm := List.mem_of_getElem? hj
      refine ⟨_, by rw [he, lookup_save_monitored hc hjm hse, hr]; rfl, ?_⟩
      by_cases hid : r.id = e.id
      · refine .saved (i := i) ⟨job, hj, e, hse, by rw [← hid, hrid]⟩ ?_ ?_ hm
        · rw [Event.saveRow_status hid]; simp [OddsWorker.monitored]
        · rw [Event.saveRow_monitored hid]
          -- the copy was not monitored, so the column has changed and is written
          have hmon := hc.unmonitored job hjm e hse
          simp [OddsWorker.monitored, Ne.symm hmon]
      · rw [Event.saveRow_other hid]; exact .same rfl rfl
  | @monitorMarked j body job job₁ c hj he hev _ hmk hl hl' ha _ hf =>
      cases hm : cfg.updateMethod with
      | associationReader => rw [hm] at hev; exact keep hev
      | persistence =>
          rw [hm] at hev
          obtain ⟨hp, hcid⟩ := hc.own job (List.mem_of_getElem? hj) c (Or.inl hmk)
          have hp' : (MonitorWEBWorker.inPlay c).presentFields = true := hp
          refine ⟨_, by rw [hev, Event.lookup_update hp', hr]; rfl, ?_⟩
          by_cases hid : r.id = c.id
          · refine .marked hj he hmk (by rw [← hcid, ← hid, hrid])
              (by rw [ha, ← hcid, ← hid, hrid]) hl hl' hf ?_ ?_
            · rw [Event.saveRow_monitored hid]; simp [MonitorWEBWorker.inPlay]
            · rw [Event.saveRow_status hid]; simp [MonitorWEBWorker.inPlay, eq_comm]
          · rw [Event.saveRow_other hid]; exact .same rfl rfl
  | @monitorFinished j body job job₁ c hj he hev _ hfin hl hl' ha _ _ =>
      cases hm : cfg.updateMethod with
      | associationReader => rw [hm] at hev; exact keep hev
      | persistence =>
          rw [hm] at hev
          obtain ⟨hp, hcid⟩ := hc.own job (List.mem_of_getElem? hj) c (Or.inr hfin)
          have hp' : (MonitorWEBWorker.ended c).presentFields = true := hp
          refine ⟨_, by rw [hev, Event.lookup_update hp', hr]; rfl, ?_⟩
          by_cases hid : r.id = c.id
          · refine .finished hj he hfin (by rw [← hcid, ← hid, hrid]) hl hl' hm ?_ ?_
            · rw [Event.saveRow_monitored hid]; simp [MonitorWEBWorker.ended, eq_comm]
            · rw [Event.saveRow_status hid]; simp [MonitorWEBWorker.ended, eq_comm]
          · rw [Event.saveRow_other hid]; exact .same rfl rfl

/-- A row was stored before, or a step that did nothing else has just added it. -/
theorem row_prev {cfg : Config} {w w' : World} {a : World.Act} (hc : CopyInv w)
    (hs : Effect cfg w w' a) {id : Int} {r' : Event}
    (hr' : Event.lookup w'.store.events id = some r') :
    (∃ r, Event.lookup w.store.events id = some r ∧ RowChange cfg w w' id r r')
      ∨ (id ∉ storedIds w ∧ World.isNew r' ∧ w'.ticks = w.ticks ∧ w'.monitors = w.monitors) := by
  cases hr : Event.lookup w.store.events id with
  | some r =>
      obtain ⟨r'', h1, h2⟩ := row_next hc hs hr
      rw [hr'] at h1
      cases h1
      exact Or.inl ⟨r, rfl, h2⟩
  | none =>
      have hnot : id ∉ storedIds w := by
        intro hmem
        obtain ⟨e, he⟩ := Event.lookup_isSome hmem
        rw [hr] at he
        exact absurd he (by simp)
      have hmem' : id ∈ storedIds w' := Event.mem_ids_of_lookup hr'
      -- no step but an import brings a new id
      cases hs with
      | imported he ht hm _ hnew =>
          obtain ⟨hmem, hid⟩ := Event.lookup_mem hr'
          rw [he] at hmem
          rcases List.mem_append.mp hmem with h' | h'
          · exact absurd (hid ▸ List.mem_map_of_mem h') hnot
          · exact Or.inr ⟨hnot, (hnew r' h').1, ht, hm⟩
      | idle he _ _ | scheduled he _ _ | tickQuiet _ _ he _ _ _ _ | tickRaised _ _ he _
      | tickLoaded _ _ _ he _ _ _ | tickEnqueued _ _ he _ _ _ _ _ _
      | monitorQuiet _ _ he _ _ _ _ _ _ | monitorRaised _ _ he _ _ _
      | monitorMarks _ _ he _ _ _ _ _ _ _ | monitorFinishes _ _ _ he _ _ _ _ _ _ =>
          rw [storedIds, he] at hmem'; exact absurd hmem' hnot
      | tickSaved _ _ he _ _ _ _ =>
          rw [storedIds, he, Event.save_ids] at hmem'; exact absurd hmem' hnot
      | monitorMarked _ _ he _ _ _ _ _ _ _ | monitorFinished _ _ he _ _ _ _ _ _ _ =>
          rw [storedIds, he, Event.update_ids] at hmem'; exact absurd hmem' hnot

end BetterEfisis.Proof

import BetterEfisis.Proof.Effect

/-!
# The copies are copies of stored events

Facts about the rows the jobs hold in memory that need no assumption on the
order of anything: every copy is presentable and of a stored event, and a monitor's
copy is of its own event.

That every stored event passes the validations is the reason why `save` and
`Event.update` never silently write nothing here.
-/

namespace BetterEfisis.Proof

open Lib

/-- The ids in use. -/
def storedIds (w : World) : List Int := w.store.events.map Event.id

/-- All copies an `OddsWorker` run holds. -/
def copies (job : Job Unit OddsWorker.Pc) : List Event := (saving job).toList ++ pending job

theorem mem_copies {job : Job Unit OddsWorker.Pc} {c : Event} :
    c ∈ copies job ↔ saving job = some c ∨ c ∈ pending job := by
  unfold copies
  rw [List.mem_append, Option.mem_toList]

/-- The facts about copies. -/
structure CopyInv (w : World) : Prop where
  /-- Ids are unique. -/
  ids : (storedIds w).Nodup
  /-- Stored events pass the validations. -/
  present : ∀ e ∈ w.store.events, e.presentFields = true
  /-- So do the copies `OddsWorker` runs hold, which are of stored events. -/
  ticks : ∀ job ∈ w.ticks, ∀ c ∈ copies job, c.presentFields = true ∧ c.id ∈ storedIds w
  /-- What is about to be saved was not monitored when it was loaded. -/
  unmonitored : ∀ job ∈ w.ticks, ∀ c, saving job = some c → c.monitored ≠ some true
  /-- Monitors are of stored events. -/
  args : ∀ job ∈ w.monitors, job.arg ∈ storedIds w
  /-- The copy a monitor holds is of its own event. -/
  own : ∀ job ∈ w.monitors, ∀ c, marking job = some c ∨ finishing job = some c →
    c.presentFields = true ∧ c.id = job.arg

theorem copyInv_init {w : World} (h : World.Init w) : CopyInv w := by
  obtain ⟨now, rfl⟩ := h
  constructor <;> simp [storedIds, World.boot, Store.boot]

/-! ## How each part of the state changes -/

/-- The table changes by appending valid rows and by `save` only. -/
theorem events_change {cfg : Config} {w w' : World} {a : World.Act} (h : Effect cfg w w' a) :
    w'.store.events = w.store.events
      ∨ (∃ new, w'.store.events = w.store.events ++ new
          ∧ ((storedIds w).Nodup → (storedIds w').Nodup)
          ∧ ∀ e ∈ new, World.isNew e ∧ e.presentFields = true)
      ∨ (∃ loaded cur, w'.store.events = Event.save w.store.events loaded cur) := by
  -- `Event.update` saves a copy, or does nothing where the association's reader is called
  have upd : ∀ (m : Event.UpdateMethod) (e : Event) (f : Event → Event),
      w'.store.events = Event.update m w.store.events e f →
      w'.store.events = w.store.events
        ∨ (∃ loaded cur, w'.store.events = Event.save w.store.events loaded cur) := by
    intro m e f he
    cases m with
    | persistence => exact Or.inr ⟨e, f e, he⟩
    | associationReader => exact Or.inl he
  cases h with
  | imported he _ _ hnd hnew => exact Or.inr (Or.inl ⟨_, he, hnd, hnew⟩)
  | tickSaved _ _ he _ _ _ _ => exact Or.inr (Or.inr ⟨_, _, he⟩)
  | monitorMarked _ _ he _ _ _ _ _ _ _ => exact (upd _ _ _ he).imp_right Or.inr
  | monitorFinished _ _ he _ _ _ _ _ _ _ => exact (upd _ _ _ he).imp_right Or.inr
  | idle he _ _ => exact Or.inl he
  | scheduled he _ _ => exact Or.inl he
  | tickQuiet _ _ he _ _ _ _ => exact Or.inl he
  | tickRaised _ _ he _ => exact Or.inl he
  | tickLoaded _ _ _ he _ _ _ => exact Or.inl he
  | tickEnqueued _ _ he _ _ _ _ _ _ => exact Or.inl he
  | monitorQuiet _ _ he _ _ _ _ _ _ => exact Or.inl he
  | monitorRaised _ _ he _ _ _ => exact Or.inl he
  | monitorMarks _ _ he _ _ _ _ _ _ _ => exact Or.inl he
  | monitorFinishes _ _ _ he _ _ _ _ _ _ => exact Or.inl he

/-- A run's copies are those of a run before the step, or what a scope has just selected. -/
theorem ticks_change {cfg : Config} {w w' : World} {a : World.Act} (h : Effect cfg w w' a) :
    ∀ job' ∈ w'.ticks, job' ∈ w.ticks ∨ copies job' = []
      ∨ (∃ job ∈ w.ticks, (copies job').Sublist (copies job)
          ∧ ∀ c, saving job' = some c → c.monitored ≠ some true)
      ∨ (saving job' = none ∧ pending job' = Event.startingNow w.store.events w.now) := by
  intro job' hm
  have old : w'.ticks = w.ticks → job' ∈ w.ticks := fun he => he ▸ hm
  have put : ∀ {i : Nat} {j : Job Unit OddsWorker.Pc}, w'.ticks = w.ticks.set i j →
      job' ∈ w.ticks ∨ job' = j := by
    intro i j he
    rw [he] at hm
    exact List.mem_or_eq_of_mem_set hm
  cases h with
  | idle _ he _ => exact Or.inl (old he)
  | imported _ he _ _ _ => exact Or.inl (old he)
  | scheduled _ he _ =>
      rw [he] at hm
      rcases List.mem_append.mp hm with h' | h'
      · exact Or.inl h'
      · rw [List.mem_singleton.mp h']; exact Or.inr (Or.inl rfl)
  | @tickQuiet _ i job job₁ hj he _ _ hs hs' hp =>
      refine (put he).imp_right ?_
      intro he
      subst he
      refine Or.inr (Or.inl ⟨job, List.mem_of_getElem? hj, ?_, by simp [hs']⟩)
      simp only [copies, hs, hs', Option.toList_none, List.nil_append]
      exact hp.sublist
  | tickRaised hj he _ _ =>
      refine (put he).imp_right ?_
      intro he
      subst he
      exact Or.inl (by simp [copies])
  | tickLoaded hj _ he _ _ hs hp =>
      refine (put he).imp_right ?_
      intro he
      subst he
      exact Or.inr (Or.inr ⟨hs, hp⟩)
  | @tickEnqueued i d job job₁ e rest hj he _ _ hs hp hmon hs' hp' =>
      refine (put he).imp_right ?_
      intro he
      subst he
      refine Or.inr (Or.inl ⟨job, List.mem_of_getElem? hj, ?_, ?_⟩)
      · simp [copies, hs, hp, hs', hp']
      · intro c hc; rw [hs'] at hc; cases hc; exact hmon
  | @tickSaved i d job job₁ e hj he _ _ hs hs' hp =>
      refine (put he).imp_right ?_
      intro he
      subst he
      refine Or.inr (Or.inl ⟨job, List.mem_of_getElem? hj, ?_, by simp [hs']⟩)
      simp [copies, hs, hs', hp]
  | monitorQuiet _ _ _ he _ _ _ _ _ => exact Or.inl (old he)
  | monitorRaised _ _ _ he _ _ => exact Or.inl (old he)
  | monitorMarks _ _ _ he _ _ _ _ _ _ => exact Or.inl (old he)
  | monitorMarked _ _ _ he _ _ _ _ _ _ => exact Or.inl (old he)
  | monitorFinishes _ _ _ _ he _ _ _ _ _ => exact Or.inl (old he)
  | monitorFinished _ _ _ he _ _ _ _ _ _ => exact Or.inl (old he)

/-- A monitor keeps its event, and the copy it holds is the row `find` has just read. -/
theorem monitors_change {cfg : Config} {w w' : World} {a : World.Act} (h : Effect cfg w w' a) :
    ∀ job' ∈ w'.monitors, job' ∈ w.monitors
      ∨ (∃ job ∈ w.monitors, job'.arg = job.arg
          ∧ ∀ c, marking job' = some c ∨ finishing job' = some c →
              Event.lookup w.store.events job.arg = some c)
      ∨ (∃ tick ∈ w.ticks, ∃ e ∈ copies tick, job' = Job.enqueue e.id) := by
  intro job' hm
  have old : w'.monitors = w.monitors → job' ∈ w.monitors := fun he => he ▸ hm
  have put : ∀ {i : Nat} {j : Job Int MonitorWEBWorker.Pc}, w'.monitors = w.monitors.set i j →
      job' ∈ w.monitors ∨ job' = j := by
    intro i j he
    rw [he] at hm
    exact List.mem_or_eq_of_mem_set hm
  cases h with
  | idle _ _ he => exact Or.inl (old he)
  | imported _ _ he _ _ => exact Or.inl (old he)
  | scheduled _ _ he => exact Or.inl (old he)
  | tickQuiet _ _ _ he _ _ _ => exact Or.inl (old he)
  | tickRaised _ _ _ he => exact Or.inl (old he)
  | tickLoaded _ _ _ _ he _ _ => exact Or.inl (old he)
  | @tickEnqueued i d job job₁ e rest hj _ _ he _ hp _ _ _ =>
      rw [he] at hm
      rcases List.mem_append.mp hm with h' | h'
      · exact Or.inl h'
      · refine Or.inr (Or.inr ⟨job, List.mem_of_getElem? hj, e, ?_, List.mem_singleton.mp h'⟩)
        exact mem_copies.mpr (Or.inr (by rw [hp]; simp))
  | tickSaved _ _ _ he _ _ _ => exact Or.inl (old he)
  | monitorQuiet hj he _ _ _ _ harg h1 h2 =>
      refine (put he).imp_right ?_
      intro he
      subst he
      exact Or.inl ⟨_, List.mem_of_getElem? hj, harg, by simp [h1, h2]⟩
  | monitorRaised hj he _ _ _ _ =>
      refine (put he).imp_right ?_
      intro he
      subst he
      exact Or.inl ⟨_, List.mem_of_getElem? hj, Job.raise_arg _, by simp⟩
  | monitorMarks hj he _ _ _ _ harg hl h1 h2 =>
      refine (put he).imp_right ?_
      intro he
      subst he
      refine Or.inl ⟨_, List.mem_of_getElem? hj, harg, ?_⟩
      intro c hc
      rcases hc with hc | hc
      · rw [h1] at hc; cases hc; exact hl
      · rw [h2] at hc; cases hc
  | monitorMarked hj he _ _ _ _ _ harg h1 h2 =>
      refine (put he).imp_right ?_
      intro he
      subst he
      exact Or.inl ⟨_, List.mem_of_getElem? hj, harg, by simp [h1, h2]⟩
  | monitorFinishes hj _ he _ _ _ harg hl h1 h2 =>
      refine (put he).imp_right ?_
      intro he
      subst he
      refine Or.inl ⟨_, List.mem_of_getElem? hj, harg, ?_⟩
      intro c hc
      rcases hc with hc | hc
      · rw [h1] at hc; cases hc
      · rw [h2] at hc; cases hc; exact hl
  | monitorFinished hj he _ _ _ _ _ harg h1 h2 =>
      refine (put he).imp_right ?_
      intro he
      subst he
      exact Or.inl ⟨_, List.mem_of_getElem? hj, harg, by simp [h1, h2]⟩

/-! ## The invariant -/

/-- Ids stay in use. -/
theorem storedIds_mono {cfg : Config} {w w' : World} {a : World.Act} (h : Effect cfg w w' a)
    {i : Int} (hi : i ∈ storedIds w) : i ∈ storedIds w' := by
  unfold storedIds at hi ⊢
  rcases events_change h with he | ⟨new, he, _, _⟩ | ⟨loaded, cur, he⟩
  · rwa [he]
  · rw [he, List.map_append]; exact List.mem_append_left _ hi
  · rwa [he, Event.save_ids]

/-- **The facts about copies are preserved by every step.** -/
theorem copyInv_step {cfg : Config} {w w' : World} {a : World.Act} (h : CopyInv w)
    (hs : Effect cfg w w' a) : CopyInv w' where
  ids := by
    rcases events_change hs with he | ⟨new, _, hnd, _⟩ | ⟨loaded, cur, he⟩
    · unfold storedIds; rw [he]; exact h.ids
    · exact hnd h.ids
    · unfold storedIds; rw [he, Event.save_ids]; exact h.ids
  present := by
    rcases events_change hs with he | ⟨new, he, _, hnew⟩ | ⟨loaded, cur, he⟩
    · rw [he]; exact h.present
    · intro e hm
      rw [he] at hm
      rcases List.mem_append.mp hm with h' | h'
      · exact h.present e h'
      · exact (hnew e h').2
    · rw [he]; exact Event.presentFields_save h.present loaded cur
  ticks := by
    intro job' hm c hc
    rcases ticks_change hs job' hm with hold | hnil | ⟨job, hj, hsub, _⟩ | ⟨hnone, hload⟩
    · exact ⟨(h.ticks job' hold c hc).1, storedIds_mono hs (h.ticks job' hold c hc).2⟩
    · rw [hnil] at hc; exact absurd hc (by simp)
    · have hcj := hsub.subset hc
      exact ⟨(h.ticks job hj c hcj).1, storedIds_mono hs (h.ticks job hj c hcj).2⟩
    · rw [copies, hnone, hload] at hc
      obtain ⟨hmem, _⟩ := Event.mem_startingNow (by simpa using hc)
      exact ⟨h.present c hmem, storedIds_mono hs (List.mem_map_of_mem hmem)⟩
  unmonitored := by
    intro job' hm c hc
    rcases ticks_change hs job' hm with hold | hnil | ⟨job, hj, hsub, hmon⟩ | ⟨hnone, hload⟩
    · exact h.unmonitored job' hold c hc
    · rw [copies, hc] at hnil; exact absurd hnil (by simp)
    · exact hmon c hc
    · rw [hnone] at hc; exact absurd hc (by simp)
  args := by
    intro job' hm
    rcases monitors_change hs job' hm with hold | ⟨job, hj, harg, _⟩ | ⟨tick, ht, e, he, rfl⟩
    · exact storedIds_mono hs (h.args job' hold)
    · rw [harg]; exact storedIds_mono hs (h.args job hj)
    · exact storedIds_mono hs (h.ticks tick ht e he).2
  own := by
    intro job' hm c hc
    rcases monitors_change hs job' hm with hold | ⟨job, hj, harg, hcopy⟩ | ⟨tick, ht, e, he, rfl⟩
    · exact h.own job' hold c hc
    · obtain ⟨hmem, hid⟩ := Event.lookup_mem (hcopy c hc)
      exact ⟨h.present c hmem, by rw [hid, harg]⟩
    · exact absurd hc (by simp)

theorem copyInv_reachable {cfg : Config} {ok : World → World.Act → Prop} {w : World}
    (h : Reachable (World.act cfg) ok World.Init w) : CopyInv w :=
  h.invariant (fun _ => copyInv_init) (fun _ _ _ hi _ hs => copyInv_step hi (act_effect hs))

/-! ## What the writes leave under an id -/

/-- A run that saves a copy finds a stored, valid row for it. -/
theorem lookup_save_monitored {w : World} (h : CopyInv w) {job : Job Unit OddsWorker.Pc}
    (hm : job ∈ w.ticks) {c : Event} (hc : saving job = some c) (i : Int) :
    Event.lookup (Event.save w.store.events c (OddsWorker.monitored c)) i
      = (Event.lookup w.store.events i).map (Event.saveRow c (OddsWorker.monitored c)) := by
  have hp := (h.ticks job hm c (mem_copies.mpr (Or.inl hc))).1
  exact Event.lookup_save (by simpa [Event.presentFields, OddsWorker.monitored] using hp) i

end BetterEfisis.Proof

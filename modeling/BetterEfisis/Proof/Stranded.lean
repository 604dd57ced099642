import BetterEfisis.Proof.Ended

/-!
# Events that nobody watches any more

The flag of an event is cleared by the last statement of its monitor and by
nothing else, and `OddsWorker` skips a flagged event. A monitor that is discarded
after its last retry therefore leaves the event flagged for ever, and so does one
that runs to its end where `Event.update` does not write (`stranded`).

Under `Spared` a flagged event has ended or is watched by a monitor that will
write ENDED unless it is started again. No order of the two workers can break
that, so `Spared` says nothing about overlaps.
-/

namespace BetterEfisis.Proof

open Lib

/-- Job `j` is a monitor of `id` without a retry left. -/
def LastAttemptAt (w : World) (id : Int) (j : Nat) : Prop :=
  ∃ job, w.monitors[j]? = some job ∧ job.arg = id ∧ job.lastAttempt

/-- Monitor `j` raises at its next statement if the feed answers `body`. -/
def FailsAt (w : World) (j : Nat) (body : Body) : Prop :=
  ∃ job pc, w.monitors[j]? = some job ∧ job.phase = .running pc
    ∧ MonitorWEBWorker.fails job.arg body w.store pc = true

/-- Job `j` is a monitor of `id` at its last statement. -/
def WritesEndedAt (w : World) (id : Int) (j : Nat) : Prop :=
  ∃ job c, w.monitors[j]? = some job ∧ job.arg = id ∧ finishing job = some c

theorem lastAttemptAt_iff {w : World} {id : Int} {j : Nat} :
    LastAttemptAt w id j ↔ (w.monitors[j]?).any
      (fun job => decide (job.arg = id ∧ maxRetryAttempts ≤ job.retries)) = true := by
  simp [LastAttemptAt, Job.lastAttempt, Option.any_eq_true]

/-- The statement a run of the job executes next raises on the data it meets. -/
def failing (s : Store) (body : Body) (job : Job Int MonitorWEBWorker.Pc) : Bool :=
  match job.phase with
  | .running pc => MonitorWEBWorker.fails job.arg body s pc
  | _ => false

theorem failsAt_iff {w : World} {j : Nat} {body : Body} :
    FailsAt w j body ↔ (w.monitors[j]?).any (failing w.store body) = true := by
  simp only [FailsAt, Option.any_eq_true]
  constructor
  · intro h
    obtain ⟨job, pc, hj, hp, hf⟩ := h
    exact ⟨job, hj, by rw [failing, hp]; exact hf⟩
  · intro h
    obtain ⟨job, hj, hf⟩ := h
    unfold failing at hf
    split at hf
    · rename_i pc hp; exact ⟨job, pc, hj, hp, hf⟩
    · exact absurd hf (by simp)

theorem writesEndedAt_iff {w : World} {id : Int} {j : Nat} :
    WritesEndedAt w id j ↔ (w.monitors[j]?).any
      (fun job => decide (job.arg = id) && (finishing job).isSome) = true := by
  simp [WritesEndedAt, Option.any_eq_true, Option.isSome_iff_exists]

instance (w : World) (id : Int) (j : Nat) : Decidable (LastAttemptAt w id j) :=
  decidable_of_iff _ lastAttemptAt_iff.symm

instance (w : World) (j : Nat) (body : Body) : Decidable (FailsAt w j body) :=
  decidable_of_iff _ failsAt_iff.symm

instance (w : World) (id : Int) (j : Nat) : Decidable (WritesEndedAt w id j) :=
  decidable_of_iff _ writesEndedAt_iff.symm

/--
The steps that leave event `id` to somebody: its monitors do not fail on their
last attempt, and what they write in the end is written.
-/
def Spared (cfg : Config) (id : Int) (w : World) : World.Act → Prop
  | .raiseMonitor j => ¬ LastAttemptAt w id j
  | .monitor j body =>
      (LastAttemptAt w id j → ¬ FailsAt w j body)
        ∧ (WritesEndedAt w id j → cfg.updateMethod = .persistence)
  | _ => True

instance (cfg : Config) (id : Int) (w : World) : (a : World.Act) → Decidable (Spared cfg id w a)
  | .raiseMonitor _ => inferInstanceAs (Decidable (¬ _))
  | .monitor _ _ => inferInstanceAs (Decidable (_ ∧ _))
  | .importEvents _ | .advance _ | .schedule | .startTick _ | .tick _ _ | .raiseTick _
  | .startMonitor _ => inferInstanceAs (Decidable True)

/-- Job `j` is a live monitor of `id` whose copy, where it has one, does not say ENDED yet. -/
def WatchedAt (w : World) (id : Int) (j : Nat) : Prop :=
  ∃ job, w.monitors[j]? = some job ∧ job.isLive = true ∧ job.arg = id
    ∧ ∀ c, finishing job = some c → c.status ≠ some .ended

theorem liveAt_of_watchedAt {w : World} {id : Int} {j : Nat} (h : WatchedAt w id j) :
    LiveAt w id j := by
  obtain ⟨job, hj, hl, harg, _⟩ := h
  exact ⟨job, hj, hl, harg⟩

/-- A flagged event, or one whose flag is about to be saved, has ended or is watched. -/
def WatchInv (id : Int) (w : World) : Prop :=
  (Flagged w id ∨ ∃ k, SavingAt w k id) → Ended w id ∨ ∃ j, WatchedAt w id j

theorem watchInv_init {id : Int} {w : World} (h : World.Init w) : WatchInv id w := by
  obtain ⟨now, rfl⟩ := h
  intro h
  rcases h with ⟨r, hr, _⟩ | ⟨k, job, hj, _⟩
  · exact absurd hr (by simp [Event.lookup, World.boot, Store.boot])
  · exact absurd hj (by simp [World.boot])

/-- A spared monitor that raises goes back to the retry set. -/
theorem raise_spared {cfg : Config} {id : Int} {w : World} {a : World.Act}
    (hok : Spared cfg id w a) {j : Nat} {job : Job Int MonitorWEBWorker.Pc}
    {pc : MonitorWEBWorker.Pc} (hj : w.monitors[j]? = some job) (hp : job.phase = .running pc)
    (harg : job.arg = id)
    (ha : a = .raiseMonitor j ∨ ∃ body, a = .monitor j body
      ∧ (MonitorWEBWorker.step cfg job.arg body w.store pc).2 = .raised) :
    job.raise.isLive = true := by
  have hleft : ¬ job.lastAttempt := by
    intro hlast
    rcases ha with rfl | ⟨body, rfl, hraised⟩
    · exact hok ⟨job, hj, harg, hlast⟩
    · exact hok.1 ⟨job, hj, harg, hlast⟩
        ⟨job, pc, hj, hp, MonitorWEBWorker.fails_of_raised hraised⟩
  rw [Job.isLive, Job.raise_of_retry_left hleft]
  rfl

/-- A monitor keeps watching until it has written ENDED. -/
theorem watchedAt_next {cfg : Config} {id : Int} {w w' : World} {a : World.Act} (hc : CopyInv w)
    (hok : Spared cfg id w a) (hs : Effect cfg w w' a) {j : Nat} (h : WatchedAt w id j) :
    Ended w' id ∨ WatchedAt w' id j := by
  obtain ⟨job, hj, hl, harg, hopen⟩ := h
  -- the step concerns `j` itself, or leaves it alone
  have put : ∀ {i : Nat} {job₀ job₁ : Job Int MonitorWEBWorker.Pc},
      w.monitors[i]? = some job₀ → w'.monitors = w.monitors.set i job₁ →
      (job₀ = job → i = j → Ended w' id ∨ (job₁.isLive = true ∧ job₁.arg = id
        ∧ ∀ c, finishing job₁ = some c → c.status ≠ some .ended)) →
      Ended w' id ∨ WatchedAt w' id j := by
    intro i job₀ job₁ hi he hself
    by_cases hij : i = j
    · subst hij
      rw [hi] at hj
      refine (hself (Option.some.inj hj) rfl).imp_right (fun h => ?_)
      exact ⟨job₁, by rw [he]; exact getElem?_set_here hi, h⟩
    · exact Or.inr ⟨job, by rw [he, List.getElem?_set_ne hij]; exact hj, hl, harg, hopen⟩
  have keep : w'.monitors = w.monitors → Ended w' id ∨ WatchedAt w' id j :=
    fun he => Or.inr ⟨job, by rw [he]; exact hj, hl, harg, hopen⟩
  cases hs with
  | idle _ _ he | imported _ _ he _ _ | scheduled _ _ he | tickQuiet _ _ _ he _ _ _
  | tickRaised _ _ _ he | tickLoaded _ _ _ _ he _ _ | tickSaved _ _ _ he _ _ _ => exact keep he
  | tickEnqueued _ _ _ he _ _ _ _ _ =>
      exact Or.inr ⟨job, by rw [he]; exact getElem?_snoc_of_some hj, hl, harg, hopen⟩
  | monitorQuiet hi he _ _ _ h1 h2 _ h4 =>
      exact put hi he (fun hjob _ => Or.inr ⟨h1, by rw [h2, hjob, harg], by simp [h4]⟩)
  | monitorMarks hi he _ _ _ h1 h2 _ _ h4 =>
      exact put hi he (fun hjob _ => Or.inr ⟨h1, by rw [h2, hjob, harg], by simp [h4]⟩)
  | monitorMarked hi he _ _ _ _ h1 h2 _ h4 =>
      exact put hi he (fun hjob _ => Or.inr ⟨h1, by rw [h2, hjob, harg], by simp [h4]⟩)
  | monitorRaised hi he _ _ hp ha =>
      refine put hi he (fun hjob _ => Or.inr ⟨?_, ?_, by simp⟩)
      · exact raise_spared hok hi hp (by rw [hjob, harg]) ha
      · rw [Job.raise_arg, hjob, harg]
  | @monitorFinishes i body job₀ job₁ e hi hp he hev _ h1 h2 hlook _ h4 =>
      refine put hi he (fun hjob _ => ?_)
      have hrow : Event.lookup w'.store.events id = some e := by
        rw [hev, ← harg, ← hjob]; exact hlook
      by_cases hst : e.status = some .ended
      · exact Or.inl ⟨e, hrow, hst⟩
      · refine Or.inr ⟨h1, by rw [h2, hjob, harg], fun c hf => ?_⟩
        rw [h4] at hf
        cases hf
        exact hst
  | @monitorFinished i body job₀ job₁ e hi he hev _ hfin _ _ _ _ _ =>
      refine put hi he (fun hjob hij => Or.inl ?_)
      subst hjob
      obtain ⟨hp, heid⟩ := hc.own job₀ (List.mem_of_getElem? hi) e (Or.inr hfin)
      rw [hok.2 ⟨job₀, e, hi, harg, hfin⟩] at hev
      obtain ⟨r, hr⟩ := Event.lookup_isSome (hc.args job₀ (List.mem_of_getElem? hi))
      rw [harg] at hr heid
      have hid : r.id = e.id := by rw [(Event.lookup_mem hr).2, heid]
      have hp' : (MonitorWEBWorker.ended e).presentFields = true := hp
      refine ⟨_, by rw [hev, Event.lookup_update hp', hr]; rfl, ?_⟩
      rw [Event.saveRow_status hid]
      simp [MonitorWEBWorker.ended, Ne.symm (hopen e hfin)]

/-- ENDED stays, or the monitor that has overwritten it watches. -/
theorem ended_or_watched_next {cfg : Config} {id : Int} {w w' : World} {a : World.Act}
    (hc : CopyInv w) (hs : Effect cfg w w' a) (h : Ended w id) :
    Ended w' id ∨ ∃ j, WatchedAt w' id j := by
  obtain ⟨r, hr, hst⟩ := h
  obtain ⟨r', hr', hchg⟩ := row_next hc hs hr
  cases hchg with
  | same h1 _ => exact Or.inl ⟨r', hr', by rw [h1, hst]⟩
  | saved _ h1 _ _ => exact Or.inl ⟨r', hr', by rw [h1, hst]⟩
  | @marked j job job' c hj he _ _ harg _ hl hf _ _ =>
      exact Or.inr ⟨j, job', by rw [he]; exact getElem?_set_here hj, hl, harg, by simp [hf]⟩
  | finished _ _ _ _ _ _ _ _ h2 => exact Or.inl ⟨r', hr', by rw [h2, hst]; simp⟩

/-- **The event stays ended or watched through every step that spares it.** -/
theorem watchInv_step {cfg : Config} {id : Int} {w w' : World} {a : World.Act} (hc : CopyInv w)
    (h : WatchInv id w) (hok : Spared cfg id w a) (hs : Effect cfg w w' a) : WatchInv id w' := by
  intro hcause
  have next : Flagged w id ∨ (∃ k, SavingAt w k id) → Ended w' id ∨ ∃ j, WatchedAt w' id j := by
    intro hold
    rcases h hold with hend | ⟨j, hj⟩
    · exact ended_or_watched_next hc hs hend
    · exact (watchedAt_next hc hok hs hj).imp_right (fun hw => ⟨j, hw⟩)
  rcases hcause with ⟨r', hr', hmon⟩ | ⟨k, hk⟩
  · rcases row_prev hc hs hr' with ⟨r, hr, hchg⟩ | ⟨_, hnew, _, _⟩
    · cases hchg with
      | same _ h2 => exact next (Or.inl ⟨r, hr, by rw [← h2, hmon]⟩)
      | saved hsv _ _ _ => exact next (Or.inr ⟨_, hsv⟩)
      | marked _ _ _ _ _ _ _ _ h2 _ => exact next (Or.inl ⟨r, hr, by rw [← h2, hmon]⟩)
      | @finished _ _ _ c _ _ _ _ _ _ _ h1 _ =>
          -- the write that clears the flag does not leave it set
          by_cases hcm : c.monitored = some false
          · rw [if_pos hcm] at h1
            exact next (Or.inl ⟨r, hr, by rw [← h1, hmon]⟩)
          · rw [if_neg hcm, hmon] at h1
            exact absurd h1 (by simp)
    · rw [hnew.2] at hmon
      exact absurd hmon (by simp)
  · rcases savingAt_change hs hk with hk' | ⟨_, hm⟩
    · exact next (Or.inr ⟨k, hk'⟩)
    · exact Or.inr ⟨w.monitors.length, Job.enqueue id, by rw [hm]; simp, rfl, rfl, by simp⟩

theorem watchInv_reachable {cfg : Config} {id : Int} {w : World}
    (h : Reachable (World.act cfg) (Spared cfg id) World.Init w) : WatchInv id w :=
  h.invariant_on (fun _ => copyInv_reachable) (fun _ hi => watchInv_init hi)
    (fun _ _ _ hc hi hok hs => watchInv_step hc hi hok (act_effect hs))

/-! ## The main result -/

/-- A flagged event that has not ended has a live monitor. -/
def NotStranded (id : Int) (w : World) : Prop :=
  Flagged w id → ¬ Ended w id → ∃ j, LiveAt w id j

/-- **In every run whose steps spare an event it is never stranded.** -/
theorem not_stranded_of_spared (cfg : Config) (id : Int) (w : World)
    (h : Reachable (World.act cfg) (Spared cfg id) World.Init w) : NotStranded id w := by
  intro hflag hend
  rcases watchInv_reachable h (Or.inl hflag) with hend' | ⟨j, hj⟩
  · exact absurd hend' hend
  · exact ⟨j, liveAt_of_watchedAt hj⟩

/-- A monitor that has raised once and waits for its retry. -/
def raisesOnce : List World.Act :=
  [.importEvents [kickedOff], .schedule, .startTick 0, .tick 0 0, .tick 0 0, .tick 0 0,
    .startMonitor 0, .monitor 0 .empty, .raiseMonitor 0]

/-- The event is flagged and its monitor has not ended it yet. -/
theorem not_stranded_once :
    ∃ w, Flagged w 7 ∧ ¬ Ended w 7 ∧ NotStranded 7 w := by
  obtain ⟨w, hr, hflag, hend⟩ := World.reachable_of_schedule ⟨.binary, .persistence⟩
    (Spared ⟨.binary, .persistence⟩ 7) raisesOnce (fun w => Flagged w 7 ∧ ¬ Ended w 7)
    (by decide +kernel)
  exact ⟨w, hflag, hend, not_stranded_of_spared ⟨.binary, .persistence⟩ 7 w hr⟩

/-- A monitor that raises on every one of its 26 attempts. -/
def raisesAlways : List World.Act :=
  [.importEvents [kickedOff], .schedule, .startTick 0, .tick 0 0, .tick 0 0, .tick 0 0]
    ++ (List.replicate 26 [.startMonitor 0, .raiseMonitor 0]).flatten

/-- A monitor that raises nowhere. -/
def raisesNever : List World.Act :=
  [.importEvents [kickedOff], .schedule, .startTick 0, .tick 0 0, .tick 0 0, .tick 0 0]
    ++ wholeMonitor 0

/-- Event 7 is flagged, has not ended, and no monitor is left. -/
def Stranded (w : World) : Prop :=
  Flagged w 7 ∧ ¬ Ended w 7 ∧ ∀ job ∈ w.monitors, job.isLive = false

instance (w : World) : Decidable (Stranded w) := inferInstanceAs (Decidable (_ ∧ _ ∧ _))

/--
**An event is stranded by a monitor that never succeeds, and by one that does
where `Event.update` reaches the association reader.**
-/
theorem stranded :
    (¬ ∀ w, Reachable (World.act ⟨.binary, .persistence⟩) always World.Init w →
        ∀ id, NotStranded id w)
      ∧ (¬ ∀ w, Reachable (World.act ⟨.binary, .associationReader⟩) always World.Init w →
        ∀ id, NotStranded id w) := by
  have no : ∀ w, Stranded w → ¬ ∀ id, NotStranded id w := by
    intro w hstr hall
    obtain ⟨hflag, hend, hdead⟩ := hstr
    obtain ⟨j, job, hj, hl, _⟩ := hall 7 hflag hend
    rw [hdead job (List.mem_of_getElem? hj)] at hl
    exact absurd hl (by simp)
  constructor
  · intro hall
    obtain ⟨w, hr, hs⟩ := World.reachable_of_schedule ⟨.binary, .persistence⟩ always raisesAlways
      Stranded (by decide +kernel)
    exact no w hs (hall w hr)
  · intro hall
    obtain ⟨w, hr, hs⟩ := World.reachable_of_schedule ⟨.binary, .associationReader⟩ always
      raisesNever Stranded (by decide +kernel)
    exact no w hs (hall w hr)

end BetterEfisis.Proof

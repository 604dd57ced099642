import BetterEfisis.Proof.OneMonitor

/-!
# ENDED is final

The last statement of a monitor writes `status: "ENDED", monitored: false` over a
copy it has just loaded, and only the columns that differ from that copy reach the
row. Two orders break what the statement is for: a second monitor of the event
writes IN_PLAY over ENDED, and a monitor that loads its copy before the flag is
saved leaves the flag behind (`ended_not_final`).

Under `Orderly` neither happens, because the copy a monitor finishes with always
carries the flag, and no job that could touch the event survives the write.
-/

namespace BetterEfisis.Proof

open Lib

/-- The row of `id` says ENDED. -/
def Ended (w : World) (id : Int) : Prop :=
  ∃ r, Event.lookup w.store.events id = some r ∧ r.status = some .ended

/-- The row of `id` says that it is not monitored. -/
def Unmonitored (w : World) (id : Int) : Prop :=
  ∃ r, Event.lookup w.store.events id = some r ∧ r.monitored = some false

theorem ended_iff {w : World} {id : Int} :
    Ended w id ↔ (Event.lookup w.store.events id).any
      (fun r => decide (r.status = some .ended)) = true := by
  simp [Ended, Option.any_eq_true]

instance (w : World) (id : Int) : Decidable (Ended w id) := decidable_of_iff _ ended_iff.symm

/-- Job `j` is a monitor of `id` at the `find` of its last update. -/
def ClosesAt (w : World) (id : Int) (j : Nat) : Prop :=
  ∃ job, w.monitors[j]? = some job ∧ job.arg = id ∧ job.phase = .running .loadEnded

theorem closesAt_iff {w : World} {id : Int} {j : Nat} :
    ClosesAt w id j ↔ (w.monitors[j]?).any
      (fun job => decide (job.arg = id ∧ job.phase = .running .loadEnded)) = true := by
  simp [ClosesAt, Option.any_eq_true]

instance (w : World) (id : Int) (j : Nat) : Decidable (ClosesAt w id j) :=
  decidable_of_iff _ closesAt_iff.symm

/--
The steps over event `id` that keep ENDED final: those that are up to date, where
moreover no monitor is enqueued for an event that has ended meanwhile, and none
loads its copy for the last update before its flag is saved.
-/
def Orderly (id : Int) (w : World) (a : World.Act) : Prop :=
  UpToDate id w a ∧
    match a with
    | .tick i d => EnqueuesAt w (.tick i d) i id → ¬ Ended w id
    | .monitor j _ => ClosesAt w id j → ∀ k, ¬ SavingAt w k id
    | _ => True

instance (id : Int) (w : World) (a : World.Act) : Decidable (Orderly id w a) :=
  @instDecidableAnd _ _ inferInstance <|
    match a with
    | .tick i d => inferInstanceAs (Decidable (EnqueuesAt w (.tick i d) i id → _))
    | .monitor j _ => inferInstanceAs (Decidable (ClosesAt w id j → _))
    | .importEvents _ | .advance _ | .schedule | .startTick _ | .raiseTick _ | .startMonitor _
    | .raiseMonitor _ => inferInstanceAs (Decidable True)

/-- What holds of an event that has ended, and of one that is about to. -/
structure EndInv (id : Int) (w : World) : Prop where
  /-- An event that has ended is not monitored, and no job is left that would touch it. -/
  settled : Ended w id →
    Unmonitored w id ∧ (∀ j, ¬ LiveAt w id j) ∧ ∀ k, ¬ SavingAt w k id
  /-- A monitor that is about to write ENDED has read its flag, which nobody saves again. -/
  closing : ∀ job ∈ w.monitors, ∀ c, finishing job = some c → job.arg = id →
    c.monitored = some true ∧ ∀ k, ¬ SavingAt w k id

theorem endInv_init {id : Int} {w : World} (h : World.Init w) : EndInv id w := by
  obtain ⟨now, rfl⟩ := h
  constructor <;> simp [Ended, Event.lookup, World.boot, Store.boot]

theorem enqueued_not_ended {id : Int} {w : World} {a : World.Act} (hok : Orderly id w a)
    {i : Nat} (h : EnqueuesAt w a i id) : ¬ Ended w id := by
  obtain ⟨d, job, e, rows, rfl, hrest⟩ := h
  exact hok.2 ⟨d, job, e, rows, rfl, hrest⟩

/-- Nobody comes to watch an event that nobody watches, unless the step enqueues a monitor. -/
theorem unwatched_next {cfg : Config} {id : Int} {w w' : World} {a : World.Act}
    (hs : Effect cfg w w' a) (hno : ∀ i, ¬ EnqueuesAt w a i id)
    (hlive : ∀ j, ¬ LiveAt w id j) (hsave : ∀ k, ¬ SavingAt w k id) :
    (∀ j, ¬ LiveAt w' id j) ∧ ∀ k, ¬ SavingAt w' k id := by
  refine ⟨fun j hj => ?_, fun k hk => ?_⟩
  · rcases liveAt_change hs hj with h | ⟨_, i, h, _⟩
    · exact hlive j h
    · exact hno i h
  · rcases savingAt_change hs hk with h | ⟨h, _⟩
    · exact hsave k h
    · exact hno k h

/-- A monitor that is about to write ENDED was so before, or has just loaded the row. -/
theorem finishing_change {cfg : Config} {w w' : World} {a : World.Act} (hs : Effect cfg w w' a)
    {job' : Job Int MonitorWEBWorker.Pc} (hm : job' ∈ w'.monitors) {c : Event}
    (hf : finishing job' = some c) :
    job' ∈ w.monitors
      ∨ ∃ j body, a = .monitor j body ∧ ClosesAt w job'.arg j
          ∧ Event.lookup w.store.events job'.arg = some c := by
  have put : ∀ {i : Nat} {j : Job Int MonitorWEBWorker.Pc}, w'.monitors = w.monitors.set i j →
      finishing j = none → job' ∈ w.monitors := by
    intro i j he hnone
    rw [he] at hm
    rcases List.mem_or_eq_of_mem_set hm with h | rfl
    · exact h
    · rw [hnone] at hf; exact absurd hf (by simp)
  cases hs with
  | idle _ _ he | imported _ _ he _ _ | scheduled _ _ he | tickQuiet _ _ _ he _ _ _
  | tickRaised _ _ _ he | tickLoaded _ _ _ _ he _ _ | tickSaved _ _ _ he _ _ _ =>
      exact Or.inl (he ▸ hm)
  | tickEnqueued _ _ _ he _ _ _ _ _ =>
      rw [he] at hm
      rcases List.mem_append.mp hm with h | h
      · exact Or.inl h
      · rw [List.mem_singleton.mp h] at hf; exact absurd hf (by simp)
  | monitorQuiet _ he _ _ _ _ _ _ h2 => exact Or.inl (put he h2)
  | monitorRaised _ he _ _ _ _ => exact Or.inl (put he (finishing_raise _))
  | monitorMarks _ he _ _ _ _ _ _ _ h2 => exact Or.inl (put he h2)
  | monitorMarked _ he _ _ _ _ _ _ _ h2 => exact Or.inl (put he h2)
  | monitorFinished _ he _ _ _ _ _ _ _ h2 => exact Or.inl (put he h2)
  | @monitorFinishes j body job job₁ e hj hp he _ _ _ harg hl _ h2 =>
      rw [he] at hm
      rcases List.mem_or_eq_of_mem_set hm with h | rfl
      · exact Or.inl h
      · rw [h2] at hf
        cases hf
        exact Or.inr ⟨j, body, rfl, ⟨job, hj, harg.symm, hp⟩, by rw [harg]; exact hl⟩

/-- **What holds of an ended event is preserved by every orderly step.** -/
theorem endInv_step {cfg : Config} {id : Int} {w w' : World} {a : World.Act} (hc : CopyInv w)
    (hm : MonInv id w) (h : EndInv id w) (hok : Orderly id w a) (hs : Effect cfg w w' a) :
    EndInv id w' where
  settled := by
    intro hended
    obtain ⟨r', hr', hend⟩ := hended
    rcases row_prev hc hs hr' with ⟨r, hr, hchg⟩ | ⟨_, hnew, _, _⟩
    · -- the row had ended before, and whoever touches it would have been watching it
      have before : r.status = some .ended → r'.monitored = r.monitored →
          Unmonitored w' id ∧ (∀ j, ¬ LiveAt w' id j) ∧ ∀ k, ¬ SavingAt w' k id := by
        intro hst hmon
        obtain ⟨⟨r₀, hr₀, hun⟩, hlive, hsave⟩ := h.settled ⟨r, hr, hst⟩
        rw [hr] at hr₀
        cases hr₀
        have hno : ∀ i, ¬ EnqueuesAt w a i id :=
          fun i hi => enqueued_not_ended hok hi ⟨r, hr, hst⟩
        exact ⟨⟨r', hr', by rw [hmon, hun]⟩, unwatched_next hs hno hlive hsave⟩
      cases hchg with
      | same h1 h2 => exact before (h1 ▸ hend) h2
      | saved hsv h1 _ _ =>
          exact absurd hsv ((h.settled ⟨r, hr, h1 ▸ hend⟩).2.2 _)
      | @marked j job _ c hj _ _ harg _ hl _ _ h1 h2 =>
          -- an IN_PLAY write leaves ENDED behind only where it changes nothing
          by_cases hcs : c.status = some .inPlay
          · rw [if_pos hcs] at h2
            exact before (h2 ▸ hend) h1
          · rw [if_neg hcs, hend] at h2
            exact absurd h2 (by simp)
      | @finished j job job' c hj he hfin harg hl hdead _ h1 _ =>
          obtain ⟨hcm, hsave⟩ := h.closing job (List.mem_of_getElem? hj) c hfin harg
          have hun : r'.monitored = some false := by rw [h1, hcm]; simp
          refine ⟨⟨r', hr', hun⟩, fun k hk => ?_, fun k hk => ?_⟩
          · -- the one live monitor is the one that is done now
            obtain ⟨job₁, hk₁, hl₁, harg₁⟩ := hk
            rw [he] at hk₁
            rcases getElem?_set_cases hk₁ with ⟨_, rfl⟩ | ⟨hne, hk₂⟩
            · rw [hdead] at hl₁; exact absurd hl₁ (by simp)
            · exact hne (hm.single k j ⟨job₁, hk₂, hl₁, harg₁⟩ ⟨job, hj, hl, harg⟩)
          · rcases savingAt_change hs hk with hk' | ⟨henq, _⟩
            · exact hsave k hk'
            · exact enqueued_unwatched hm hok.1 henq j ⟨job, hj, hl, harg⟩
    · -- a new row has not started
      rw [hnew.1] at hend
      exact absurd hend (by simp)
  closing := by
    intro job' hmem c hf harg
    rcases finishing_change hs hmem hf with hold | ⟨j, body, rfl, hcl, hrow⟩
    · obtain ⟨hcm, hsave⟩ := h.closing job' hold c hf harg
      refine ⟨hcm, fun k hk => ?_⟩
      rcases savingAt_change hs hk with hk' | ⟨henq, _⟩
      · exact hsave k hk'
      · obtain ⟨n, hn⟩ := List.mem_iff_getElem?.mp hold
        exact enqueued_unwatched hm hok.1 henq n ⟨job', hn, isLive_of_finishing hf, harg⟩
    · -- an orderly monitor reads the row only while nobody is saving its flag
      subst harg
      have hsave := hok.2 hcl
      obtain ⟨job, hj, hjarg, hp⟩ := hcl
      have hlive : LiveAt w job'.arg j := ⟨job, hj, isLive_of_running hp, hjarg⟩
      refine ⟨?_, fun k hk => ?_⟩
      · -- the flag of a live monitor is in the row unless somebody is saving it
        rcases hm.flagged j hlive with ⟨r, hr, hmon⟩ | ⟨k, hk⟩
        · rw [hr] at hrow
          cases hrow
          exact hmon
        · exact absurd hk (hsave k)
      · rcases savingAt_change hs hk with hk' | ⟨henq, _⟩
        · exact hsave k hk'
        · exact enqueued_unwatched hm hok.1 henq j hlive

/-- The invariants together. -/
structure Settled (id : Int) (w : World) : Prop where
  copies : CopyInv w
  monitors : MonInv id w
  ended : EndInv id w

theorem settled_step {cfg : Config} {id : Int} {w w' : World} {a : World.Act} (h : Settled id w)
    (hok : Orderly id w a) (hs : World.act cfg w a = some w') : Settled id w' where
  copies := copyInv_step h.copies (act_effect hs)
  monitors := monInv_step h.copies h.monitors hok.1 (act_effect hs)
  ended := endInv_step h.copies h.monitors h.ended hok (act_effect hs)

theorem settled_reachable {cfg : Config} {id : Int} {w : World}
    (h : Reachable (World.act cfg) (Orderly id) World.Init w) : Settled id w :=
  h.invariant (I := Settled id)
    (fun _ hi => ⟨copyInv_init hi, monInv_init hi, endInv_init hi⟩)
    (fun _ _ _ => settled_step)

/-- An orderly step leaves ENDED in place. -/
theorem ended_next {cfg : Config} {id : Int} {w w' : World} {a : World.Act} (h : Settled id w)
    (hs : Effect cfg w w' a) (hend : Ended w id) : Ended w' id := by
  obtain ⟨_, hlive, _⟩ := h.ended.settled hend
  obtain ⟨r, hr, hst⟩ := hend
  obtain ⟨r', hr', hchg⟩ := row_next h.copies hs hr
  refine ⟨r', hr', ?_⟩
  cases hchg with
  | same h1 _ => rw [h1]; exact hst
  | saved _ h1 _ _ => rw [h1]; exact hst
  | marked hj _ _ harg _ hl _ _ _ _ => exact absurd ⟨_, hj, hl, harg⟩ (hlive _)
  | finished hj _ _ harg hl _ _ _ _ => exact absurd ⟨_, hj, hl, harg⟩ (hlive _)

/-! ## The main result -/

/-- No `OddsWorker` run holds event `id`, and no monitor of it is running. -/
def Resting (w : World) (id : Int) : Prop :=
  (∀ job ∈ w.ticks, ∀ c ∈ copies job, c.id ≠ id)
    ∧ ∀ job ∈ w.monitors, job.arg = id → job.inProgress = false

instance (w : World) (id : Int) : Decidable (Resting w id) := inferInstanceAs (Decidable (_ ∧ _))

/-- ENDED stays, and an event at rest that has ended is not monitored. -/
def EndedIsFinal (cfg : Config) (ok : World → World.Act → Prop) (id : Int) (w : World) : Prop :=
  (∀ w', Path (World.act cfg) ok w w' → Ended w id → Ended w' id)
    ∧ (Resting w id → Ended w id → Unmonitored w id)

/-- **In every orderly run ENDED is final and unmonitored.** -/
theorem ended_is_final_of_orderly (cfg : Config) (id : Int) (w : World)
    (h : Reachable (World.act cfg) (Orderly id) World.Init w) :
    EndedIsFinal cfg (Orderly id) id w := by
  have hw := settled_reachable h
  refine ⟨fun w' hp hend => ?_, fun _ hend => (hw.ended.settled hend).1⟩
  exact (hp.preserves (I := fun w => Settled id w ∧ Ended w id)
    (fun _ _ _ hi hok hs => ⟨settled_step hi.1 hok hs, ended_next hi.1 (act_effect hs) hi.2⟩)
    ⟨hw, hend⟩).2

/-- The feed's answer after the match. -/
def fullTime : Timeline where
  score := some ⟨some ⟨some "A", some 1⟩, some ⟨some "B", some 0⟩⟩
  updateDetails := some [⟨some 1, some "KickOff", none⟩, ⟨some 30, some "Goal", some "home"⟩]
  timeElapsed := some 90
  status := some "COMPLETE"
  inPlayMatchStatus := some "Finished"

/-- A monitor that finds the match over, from its start to its last statement. -/
def wholeMonitor (j : Nat) : List World.Act :=
  .startMonitor j :: List.replicate 14 (.monitor j (.json fullTime))

/-- A tick, the monitor it enqueues, and a tick that finds the match ended. -/
def inTurn : List World.Act :=
  [.importEvents [kickedOff], .schedule, .startTick 0, .tick 0 0, .tick 0 0, .tick 0 0]
    ++ wholeMonitor 0 ++ [.schedule, .startTick 1, .tick 1 0, .tick 1 0]

/-- The monitor has run to its end. -/
theorem ended_is_final_in_turn :
    ∃ w, Resting w 7 ∧ Ended w 7
      ∧ EndedIsFinal ⟨.binary, .persistence⟩ (Orderly 7) 7 w := by
  obtain ⟨w, hr, hrest, hend⟩ := World.reachable_of_schedule ⟨.binary, .persistence⟩ (Orderly 7)
    inTurn (fun w => Resting w 7 ∧ Ended w 7) (by decide +kernel)
  exact ⟨w, hrest, hend, ended_is_final_of_orderly ⟨.binary, .persistence⟩ 7 w hr⟩

/-- Two overlapping ticks, and the first monitor run to its end. -/
def firstEnds : List World.Act := overlap ++ [.tick 0 0, .tick 1 0] ++ wholeMonitor 0

/-- The second monitor, up to its IN_PLAY write. -/
def secondMarks : List World.Act :=
  .startMonitor 1 :: List.replicate 8 (.monitor 1 (.json fullTime))

/-- A monitor that is done before the tick that enqueued it saves the flag. -/
def endsEarly : List World.Act :=
  [.importEvents [kickedOff], .schedule, .startTick 0, .tick 0 0, .tick 0 0]
    ++ wholeMonitor 0 ++ List.replicate 12 (.tick 0 0)

/-- **Without any failure ENDED is overwritten, and an ended event stays monitored.** -/
theorem ended_not_final :
    (¬ ∀ w, Reachable (World.act ⟨.binary, .persistence⟩) always World.Init w →
        ∀ id w', Path (World.act ⟨.binary, .persistence⟩) always w w' → Ended w id → Ended w' id)
      ∧ (¬ ∀ w, Reachable (World.act ⟨.binary, .persistence⟩) always World.Init w →
        ∀ id, Resting w id → Ended w id → Unmonitored w id) := by
  constructor
  · intro hall
    obtain ⟨w, hr, hend, hnext⟩ := World.reachable_of_schedule ⟨.binary, .persistence⟩ always
      firstEnds (fun w => Ended w 7 ∧ (run (World.act ⟨.binary, .persistence⟩) always w
        secondMarks).any (fun w' => decide (¬ Ended w' 7)) = true) (by decide +kernel)
    obtain ⟨w', hw', hno⟩ := (Option.any_eq_true _ _).mp hnext
    exact of_decide_eq_true hno (hall w hr 7 w' (path_of_run hw') hend)
  · intro hall
    obtain ⟨w, hr, hrest, hend, hflag⟩ := World.reachable_of_schedule ⟨.binary, .persistence⟩
      always endsEarly (fun w => Resting w 7 ∧ Ended w 7 ∧ Flagged w 7) (by decide +kernel)
    obtain ⟨r, h1, h2⟩ := hall w hr 7 hrest hend
    obtain ⟨r', h1', h2'⟩ := hflag
    rw [h1] at h1'
    cases h1'
    rw [h2] at h2'
    exact absurd h2' (by simp)

end BetterEfisis.Proof

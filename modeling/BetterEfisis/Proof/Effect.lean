import BetterEfisis.World

/-!
# What a step does to the events and to the jobs that write them

Both scheduled workers write `events` from copies they loaded earlier. Of a job
in the middle of its run three things matter for that table: the rows an
`OddsWorker` run has still to look at, the copy it is about to save, and the copy
a monitor is about to write its status over.

`act_effect` says once what a step of the system can do to the events and to
these. The invariants of this directory are case analyses over `Effect`, and no
other proof about the table unfolds `World.act`.
-/

namespace BetterEfisis.Proof

open Lib

/-- The rows an `OddsWorker` run has loaded and not looked at yet. -/
def pending (job : Job Unit OddsWorker.Pc) : List Event :=
  match job.phase with
  | .running (.monitor rows) => rows
  | .running (.save _ rows) => rows
  | _ => []

/-- The copy it has enqueued a monitor for and not saved yet. -/
def saving (job : Job Unit OddsWorker.Pc) : Option Event :=
  match job.phase with
  | .running (.save e _) => some e
  | _ => none

/-- The copy a monitor is about to write IN_PLAY over. -/
def marking (job : Job Int MonitorWEBWorker.Pc) : Option Event :=
  match job.phase with
  | .running (.saveInPlay _ e) => some e
  | _ => none

/-- The copy a monitor is about to write ENDED over. -/
def finishing (job : Job Int MonitorWEBWorker.Pc) : Option Event :=
  match job.phase with
  | .running (.saveEnded e) => some e
  | _ => none

/-- What a step can do to the events, the `OddsWorker` runs and the monitors. -/
inductive Effect (cfg : Config) (w w' : World) : World.Act → Prop where
  /-- Nothing. -/
  | idle {a : World.Act} :
      w'.store.events = w.store.events → w'.ticks = w.ticks → w'.monitors = w.monitors →
      Effect cfg w w' a
  /-- New events are added. -/
  | imported {batch new : List Event} :
      w'.store.events = w.store.events ++ new → w'.ticks = w.ticks →
      w'.monitors = w.monitors →
      ((w.store.events.map Event.id).Nodup → (w'.store.events.map Event.id).Nodup) →
      (∀ e ∈ new, World.isNew e ∧ e.presentFields = true) →
      Effect cfg w w' (.importEvents batch)
  /-- An `OddsWorker` job is enqueued. -/
  | scheduled :
      w'.store.events = w.store.events → w'.ticks = w.ticks ++ [Job.enqueue ()] →
      w'.monitors = w.monitors → Effect cfg w w' .schedule
  /-- An `OddsWorker` run moves on, or is started: it skips rows at most. -/
  | tickQuiet {a : World.Act} {i : Nat} {job job' : Job Unit OddsWorker.Pc} :
      w.ticks[i]? = some job → w'.ticks = w.ticks.set i job' →
      w'.store.events = w.store.events → w'.monitors = w.monitors →
      saving job = none → saving job' = none → pending job' <:+ pending job →
      Effect cfg w w' a
  /-- An `OddsWorker` run raises and forgets its copies. -/
  | tickRaised {i : Nat} {job : Job Unit OddsWorker.Pc} :
      w.ticks[i]? = some job → w'.ticks = w.ticks.set i job.raise →
      w'.store.events = w.store.events → w'.monitors = w.monitors →
      Effect cfg w w' (.raiseTick i)
  /-- `Event.starting_now` of the first loop. -/
  | tickLoaded {i d : Nat} {job job' : Job Unit OddsWorker.Pc} :
      w.ticks[i]? = some job → job.phase = .running .load → w'.ticks = w.ticks.set i job' →
      w'.store.events = w.store.events → w'.monitors = w.monitors →
      saving job' = none → pending job' = Event.startingNow w.store.events w.now →
      Effect cfg w w' (.tick i d)
  /-- A monitor is enqueued. -/
  | tickEnqueued {i d : Nat} {job job' : Job Unit OddsWorker.Pc} {e : Event} {rest : List Event} :
      w.ticks[i]? = some job → w'.ticks = w.ticks.set i job' →
      w'.store.events = w.store.events → w'.monitors = w.monitors ++ [Job.enqueue e.id] →
      saving job = none → pending job = e :: rest → e.monitored ≠ some true →
      saving job' = some e → pending job' = rest →
      Effect cfg w w' (.tick i d)
  /-- `monitored` is saved. -/
  | tickSaved {i d : Nat} {job job' : Job Unit OddsWorker.Pc} {e : Event} :
      w.ticks[i]? = some job → w'.ticks = w.ticks.set i job' →
      w'.store.events = Event.save w.store.events e (OddsWorker.monitored e) →
      w'.monitors = w.monitors →
      saving job = some e → saving job' = none → pending job' = pending job →
      Effect cfg w w' (.tick i d)
  /-- A monitor moves on without a copy in hand, or is started. -/
  | monitorQuiet {a : World.Act} {j : Nat} {job job' : Job Int MonitorWEBWorker.Pc} :
      w.monitors[j]? = some job → w'.monitors = w.monitors.set j job' →
      w'.store.events = w.store.events → w'.ticks = w.ticks →
      job.isLive = true → job'.isLive = true → job'.arg = job.arg →
      marking job' = none → finishing job' = none →
      Effect cfg w w' a
  /-- A monitor raises, by itself or because a call of it failed. -/
  | monitorRaised {a : World.Act} {j : Nat} {job : Job Int MonitorWEBWorker.Pc}
      {pc : MonitorWEBWorker.Pc} :
      w.monitors[j]? = some job → w'.monitors = w.monitors.set j job.raise →
      w'.store.events = w.store.events → w'.ticks = w.ticks →
      job.phase = .running pc →
      (a = .raiseMonitor j ∨ ∃ body, a = .monitor j body
        ∧ (MonitorWEBWorker.step cfg job.arg body w.store pc).2 = .raised) →
      Effect cfg w w' a
  /-- The `find` of the IN_PLAY update. -/
  | monitorMarks {j : Nat} {body : Body} {job job' : Job Int MonitorWEBWorker.Pc} {e : Event} :
      w.monitors[j]? = some job → w'.monitors = w.monitors.set j job' →
      w'.store.events = w.store.events → w'.ticks = w.ticks →
      job.isLive = true → job'.isLive = true → job'.arg = job.arg →
      Event.lookup w.store.events job.arg = some e →
      marking job' = some e → finishing job' = none →
      Effect cfg w w' (.monitor j body)
  /-- The write of the IN_PLAY update. -/
  | monitorMarked {j : Nat} {body : Body} {job job' : Job Int MonitorWEBWorker.Pc} {e : Event} :
      w.monitors[j]? = some job → w'.monitors = w.monitors.set j job' →
      w'.store.events
        = Event.update cfg.updateMethod w.store.events e MonitorWEBWorker.inPlay →
      w'.ticks = w.ticks →
      marking job = some e → job.isLive = true → job'.isLive = true → job'.arg = job.arg →
      marking job' = none → finishing job' = none →
      Effect cfg w w' (.monitor j body)
  /-- The `find` of the ENDED update. -/
  | monitorFinishes {j : Nat} {body : Body} {job job' : Job Int MonitorWEBWorker.Pc} {e : Event} :
      w.monitors[j]? = some job → job.phase = .running .loadEnded →
      w'.monitors = w.monitors.set j job' →
      w'.store.events = w.store.events → w'.ticks = w.ticks →
      job'.isLive = true → job'.arg = job.arg →
      Event.lookup w.store.events job.arg = some e →
      marking job' = none → finishing job' = some e →
      Effect cfg w w' (.monitor j body)
  /-- The write of the ENDED update, the last statement of a monitor. -/
  | monitorFinished {j : Nat} {body : Body} {job job' : Job Int MonitorWEBWorker.Pc} {e : Event} :
      w.monitors[j]? = some job → w'.monitors = w.monitors.set j job' →
      w'.store.events
        = Event.update cfg.updateMethod w.store.events e MonitorWEBWorker.ended →
      w'.ticks = w.ticks →
      finishing job = some e → job.isLive = true → job'.isLive = false → job'.arg = job.arg →
      marking job' = none → finishing job' = none →
      Effect cfg w w' (.monitor j body)

/-! ## The views of a job -/

/-- A run that saves nothing and has a row to look at stands in front of that row. -/
theorem phase_of_pending {job : Job Unit OddsWorker.Pc} {e : Event} {rows : List Event}
    (hs : saving job = none) (hp : pending job = e :: rows) :
    job.phase = .running (.monitor (e :: rows)) := by
  unfold pending at hp
  split at hp
  · rename_i hph; rw [hph, hp]
  · rename_i hph; exact absurd hs (by simp [saving, hph])
  · exact absurd hp (by simp)

@[simp] theorem pending_enqueue : pending (Job.enqueue ()) = [] := rfl

@[simp] theorem saving_enqueue : saving (Job.enqueue ()) = none := rfl

@[simp] theorem pending_raise (job : Job Unit OddsWorker.Pc) : pending job.raise = [] := by
  unfold pending
  split
  · rename_i hp; exact absurd hp (job.raise_not_running _)
  · rename_i hp; exact absurd hp (job.raise_not_running _)
  · rfl

@[simp] theorem saving_raise (job : Job Unit OddsWorker.Pc) : saving job.raise = none := by
  unfold saving
  split
  · rename_i hp; exact absurd hp (job.raise_not_running _)
  · rfl

@[simp] theorem marking_enqueue (id : Int) : marking (Job.enqueue id) = none := rfl

@[simp] theorem finishing_enqueue (id : Int) : finishing (Job.enqueue id) = none := rfl

@[simp] theorem marking_raise (job : Job Int MonitorWEBWorker.Pc) : marking job.raise = none := by
  unfold marking
  split
  · rename_i hp; exact absurd hp (job.raise_not_running _)
  · rfl

@[simp] theorem finishing_raise (job : Job Int MonitorWEBWorker.Pc) :
    finishing job.raise = none := by
  unfold finishing
  split
  · rename_i hp; exact absurd hp (job.raise_not_running _)
  · rfl

theorem isLive_of_running {α pc : Type} {job : Job α pc} {p : pc} (h : job.phase = .running p) :
    job.isLive = true := by
  unfold Job.isLive
  rw [h]
  rfl

theorem isLive_of_finishing {job : Job Int MonitorWEBWorker.Pc} {c : Event}
    (h : finishing job = some c) : job.isLive = true := by
  unfold finishing at h
  split at h
  · rename_i hp; exact isLive_of_running hp
  · exact absurd h (by simp)

/-! ## The inversion lemma -/

theorem importRows_effect {t t' batch : List Event} (h : Event.importRows t batch = .ok t') :
    t' = t ++ batch.filter (Event.validation.valid t)
      ∧ ((t.map Event.id).Nodup → (t'.map Event.id).Nodup) := by
  unfold Event.importRows at h
  split at h
  · rename_i hnd
    injection h with h
    subst h
    refine ⟨rfl, fun ht => ?_⟩
    rw [Validation.importRows, List.map_append, List.nodup_append]
    refine ⟨ht, hnd, ?_⟩
    intro a ha b hb he
    obtain ⟨x, hx, rfl⟩ := List.mem_map.mp ha
    obtain ⟨y, hy, rfl⟩ := List.mem_map.mp hb
    exact (Validation.valid_iff.mp (List.mem_filter.mp hy).2).2 x hx he
  · exact absurd h (by simp)

theorem tick_effect {cfg : Config} {w : World} {i d : Nat} {job : Job Unit OddsWorker.Pc}
    {pc : OddsWorker.Pc} (hj : w.ticks[i]? = some job) (hp : job.phase = .running pc) :
    Effect cfg w (w.afterTick i job (w.now + d) (OddsWorker.step w.now (w.now + d) w.store pc))
      (.tick i d) := by
  -- away from the first loop a run holds no copy and touches no event
  have quiet : ∀ r : OddsWorker.Step, r.store.events = w.store.events → r.monitors = [] →
      saving job = none → saving (job.settle r.next) = none →
      pending (job.settle r.next) <:+ pending job →
      Effect cfg w (w.afterTick i job (w.now + d) r) (.tick i d) := by
    intro r hev hm h1 h2 h3
    exact .tickQuiet hj rfl hev (by simp [World.afterTick, hm]) h1 h2 h3
  -- only a run that stands at `e.save` has a flag to save
  have hs : ∀ p, pc = p → (∀ e rows, p ≠ .save e rows) → saving job = none := by
    intro p he hne
    unfold saving
    rw [hp, he]
    split
    · rename_i heq; injection heq with heq; exact absurd heq (hne _ _)
    · rfl
  cases pc with
  | load =>
      exact .tickLoaded hj hp rfl rfl
        (by simp [World.afterTick, OddsWorker.step, OddsWorker.Step.plain]) rfl rfl
  | monitor rows =>
      have hs0 : saving job = none := hs _ rfl (by simp)
      cases rows with
      | nil => exact quiet _ rfl rfl hs0 rfl (List.nil_suffix)
      | cons e rows =>
          have hpend : pending job = e :: rows := by simp [pending, hp]
          rw [OddsWorker.step]
          split
          · exact quiet _ rfl rfl hs0 rfl (by rw [hpend]; exact List.suffix_cons e rows)
          · rename_i hmon
            exact .tickEnqueued hj rfl rfl rfl hs0 hpend hmon rfl rfl
  | save e rows =>
      exact .tickSaved hj rfl rfl (by simp [World.afterTick, OddsWorker.step,
        OddsWorker.Step.plain]) (by simp [saving, hp]) rfl (by simp [pending, hp]; rfl)
  | refreshLoad sc => exact quiet _ rfl rfl (hs _ rfl (by simp)) rfl (List.nil_suffix)
  | refresh sc ids =>
      have hs0 : saving job = none := hs _ rfl (by simp)
      cases ids with
      | nil =>
          refine quiet _ rfl rfl hs0 ?_ ?_
          · cases sc with
            | now => rfl
            | range r => cases r <;> simp [OddsWorker.step, OddsWorker.Step.plain,
                OddsWorker.Scope.after, OddsWorker.Range.after, Job.settle, saving]
          · cases sc with
            | now => exact List.nil_suffix
            | range r => cases r <;> exact List.nil_suffix
      | cons id ids => exact quiet _ rfl rfl hs0 rfl (List.nil_suffix)
  | stampGet r => exact quiet _ rfl rfl (hs _ rfl (by simp)) rfl (List.nil_suffix)
  | stampTest r t =>
      rw [OddsWorker.step]
      split
      · exact quiet _ rfl rfl (hs _ rfl (by simp)) rfl (List.nil_suffix)
      · refine quiet _ rfl rfl (hs _ rfl (by simp)) ?_ ?_
        · cases r <;> rfl
        · cases r <;> exact List.nil_suffix
  | stampRead r => exact quiet _ rfl rfl (hs _ rfl (by simp)) rfl (List.nil_suffix)
  | stampSet r t => exact quiet _ rfl rfl (hs _ rfl (by simp)) rfl (List.nil_suffix)

theorem monitor_effect {cfg : Config} {w : World} {j : Nat} {body : Body}
    {job : Job Int MonitorWEBWorker.Pc} {pc : MonitorWEBWorker.Pc}
    (hj : w.monitors[j]? = some job) (hp : job.phase = .running pc) :
    Effect cfg w (w.afterMonitor j job (MonitorWEBWorker.step cfg job.arg body w.store pc))
      (.monitor j body) := by
  have hl : job.isLive = true := isLive_of_running hp
  -- the statements between the two updates leave the events alone, or raise
  have quiet : ∀ (s : Store) (p : MonitorWEBWorker.Pc),
      MonitorWEBWorker.step cfg job.arg body w.store pc = (s, .next p) →
      s.events = w.store.events → marking (job.settle (.next p)) = none →
      finishing (job.settle (.next p)) = none →
      Effect cfg w (w.afterMonitor j job (MonitorWEBWorker.step cfg job.arg body w.store pc))
        (.monitor j body) := by
    intro s p he hev h1 h2
    rw [he]
    exact .monitorQuiet hj rfl hev rfl hl rfl rfl h1 h2
  have raised : ∀ s : Store, MonitorWEBWorker.step cfg job.arg body w.store pc = (s, .raised) →
      s.events = w.store.events →
      Effect cfg w (w.afterMonitor j job (MonitorWEBWorker.step cfg job.arg body w.store pc))
        (.monitor j body) := by
    intro s he hev
    rw [he]
    exact .monitorRaised hj rfl hev rfl hp (Or.inr ⟨body, rfl, by rw [he]⟩)
  cases pc with
  | waiting n =>
      by_cases hn : n = 200
      · exact quiet w.store .loadEnded (by simp [MonitorWEBWorker.step, hn]) rfl rfl rfl
      · cases body with
        | empty => exact quiet w.store _ (by simp [MonitorWEBWorker.step, hn]; rfl) rfl rfl rfl
        | json t => exact quiet w.store _ (by simp [MonitorWEBWorker.step, hn]; rfl) rfl rfl rfl
  | setKey t => exact quiet _ _ rfl rfl rfl rfl
  | findHome t =>
      cases hsc : t.score with
      | none => exact raised w.store (by simp [MonitorWEBWorker.step, hsc]) rfl
      | some sc =>
          obtain ⟨home, away⟩ := sc
          cases home with
          | none => exact raised w.store (by simp [MonitorWEBWorker.step, hsc]) rfl
          | some home =>
              cases away with
              | none => exact raised w.store (by simp [MonitorWEBWorker.step, hsc]) rfl
              | some away =>
                  cases hf : Runner.findBy cfg.collation w.store.runners home.name with
                  | none =>
                      exact quiet w.store (.createHome home.name away.name)
                        (by simp [MonitorWEBWorker.step, hsc, hf]) rfl rfl rfl
                  | some r =>
                      exact quiet w.store (.findAway home.name away.name (some r.id))
                        (by simp [MonitorWEBWorker.step, hsc, hf]) rfl rfl rfl
  | createHome h a =>
      cases hc : Runner.create w.store.runners h with
      | error x => exact raised w.store (by simp [MonitorWEBWorker.step, hc]) rfl
      | ok r =>
          exact quiet { w.store with runners := r.1 } (.findAway h a r.2)
            (by simp [MonitorWEBWorker.step, hc]) rfl rfl rfl
  | findAway h a rh =>
      cases hf : Runner.findBy cfg.collation w.store.runners a with
      | none =>
          exact quiet w.store (.createAway h a rh) (by simp [MonitorWEBWorker.step, hf])
            rfl rfl rfl
      | some r =>
          exact quiet w.store (.loadInPlay ⟨h, a, rh, some r.id⟩)
            (by simp [MonitorWEBWorker.step, hf]) rfl rfl rfl
  | createAway h a rh =>
      cases hc : Runner.create w.store.runners a with
      | error x => exact raised w.store (by simp [MonitorWEBWorker.step, hc]) rfl
      | ok r =>
          exact quiet { w.store with runners := r.1 } (.loadInPlay ⟨h, a, rh, r.2⟩)
            (by simp [MonitorWEBWorker.step, hc]) rfl rfl rfl
  | loadInPlay m =>
      cases hf : Event.find w.store.events job.arg with
      | error x => exact raised w.store (by simp [MonitorWEBWorker.step, hf]) rfl
      | ok e =>
          have he : MonitorWEBWorker.step cfg job.arg body w.store (.loadInPlay m)
              = (w.store, .next (.saveInPlay m e)) := by simp [MonitorWEBWorker.step, hf]
          rw [he]
          exact .monitorMarks hj rfl rfl rfl hl rfl rfl (Event.find_eq_ok.mp hf) rfl rfl
  | saveInPlay m e =>
      exact .monitorMarked hj rfl rfl rfl (by simp [marking, hp]) hl rfl rfl rfl rfl
  | polling m sc =>
      cases body with
      | empty => exact raised w.store rfl rfl
      | json t =>
          cases hsc : t.score with
          | none => exact raised w.store (by simp [MonitorWEBWorker.step, hsc]) rfl
          | some score =>
              exact quiet w.store _ (by simp [MonitorWEBWorker.step, hsc]; rfl) rfl rfl rfl
  | snapshot m sc t =>
      let s := w.store.redisSet (redisKey job.arg) (.json (MonitorWEBWorker.encode job.arg m sc t))
      by_cases ho : MonitorWEBWorker.isOver t = true
      · exact quiet s (.delKey m t.updateDetails) (by simp [MonitorWEBWorker.step, ho, s])
          rfl rfl rfl
      · exact quiet s (.polling m sc) (by simp [MonitorWEBWorker.step, ho, s]) rfl rfl rfl
  | delKey m us => exact quiet _ _ rfl rfl rfl rfl
  | importUpdates m us =>
      cases us with
      | none => exact raised w.store rfl rfl
      | some us => exact quiet _ _ rfl rfl rfl rfl
  | loadEnded =>
      cases hf : Event.find w.store.events job.arg with
      | error x => exact raised w.store (by simp [MonitorWEBWorker.step, hf]) rfl
      | ok e =>
          have he : MonitorWEBWorker.step cfg job.arg body w.store .loadEnded
              = (w.store, .next (.saveEnded e)) := by simp [MonitorWEBWorker.step, hf]
          rw [he]
          exact .monitorFinishes hj hp rfl rfl rfl rfl rfl (Event.find_eq_ok.mp hf) rfl rfl
  | saveEnded e =>
      exact .monitorFinished hj rfl rfl rfl (by simp [finishing, hp]) hl rfl rfl rfl rfl

/-- **What a step can do.** -/
theorem act_effect {cfg : Config} {w w' : World} {a : World.Act}
    (h : World.act cfg w a = some w') : Effect cfg w w' a := by
  cases World.act_cases h with
  | imported hnew ht =>
      obtain ⟨he, hnd⟩ := importRows_effect ht
      refine .imported he rfl rfl hnd ?_
      intro e hmem
      obtain ⟨hb, hv⟩ := List.mem_filter.mp hmem
      exact ⟨hnew e hb, (Validation.valid_iff.mp hv).1⟩
  | advanced => exact .idle rfl rfl rfl
  | scheduled => exact .scheduled rfl rfl rfl
  | @startedTick i job hj hno =>
      have hs0 : saving job = none := by
        unfold saving
        split
        · rename_i hp
          exact absurd hp (hno _)
        · rfl
      exact .tickQuiet hj rfl rfl rfl hs0 rfl List.nil_suffix
  | ticked hj hp => exact tick_effect hj hp
  | raisedTick hj _ => exact .tickRaised hj rfl rfl rfl
  | startedMonitor hj hl => exact .monitorQuiet hj rfl rfl rfl hl rfl rfl rfl rfl
  | monitored hj hp => exact monitor_effect hj hp
  | raisedMonitor hj hp => exact .monitorRaised hj rfl rfl rfl hp (Or.inl rfl)

end BetterEfisis.Proof

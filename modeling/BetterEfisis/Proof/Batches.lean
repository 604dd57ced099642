import BetterEfisis.Proof.Turn

/-!
# Batches that are cut short

`time(range)` tests the stamp and sets it, and only then the batch of the range is
queried and enqueued. An attempt that raises behind the stamp leaves the rest of the
batch to a retry that finds the range not due (`batch_cut_short`). And an event can
leave the range while the clock moves on from the test to the query.

Every other failure is made good by the retry. One that comes between the test and
the setting of the stamp leaves the range due, and the retry finds it so. A batch is
complete whenever its stamp is advanced and no run is in progress, as long as no
attempt raises behind the stamp of a range with an event of it still to come, and
the query selects what was in the range when it was found due.
-/

namespace BetterEfisis.Proof

open Lib OddsWorker

/-- The statements of a range's line behind its stamp. -/
def inLine (r : Range) : Pc → Bool
  | .refreshLoad sc | .refresh sc _ => decide (sc = .range r)
  | _ => false

/-- The run stands there. -/
def InLine (w : Tick) (r : Range) : Prop := ∃ pc, w.job.phase = .running pc ∧ inLine r pc = true

/-- An event that was in range `r` when it was found due is still to be enqueued. -/
def Missing (w : Tick) (r : Range) : Prop :=
  ∃ e ∈ w.due, e.range = r ∧ ∃ id ∈ e.ids, id ∉ w.enqueued

/--
The steps that complete a batch: no raise in the line of a due range while an event
of it is missing, and a query that selects the events that are missing.
-/
def CompletesBatches (w : Tick) : Tick.Act → Prop
  | .raise => ∀ r, InLine w r → ¬ Missing w r
  | .perform d =>
      match w.job.phase with
      | .running (.refreshLoad (.range r)) =>
          ∀ e ∈ w.due, e.range = r → ∀ id ∈ e.ids, id ∈ w.enqueued
            ∨ id ∈ ((Scope.range r).load w.store.events w.now (w.now + d)).map Event.id
      | _ => True
  | _ => True

/--
No stamp is left advanced with part of its batch not enqueued: whenever no run is in
progress, a job has been enqueued for every event that was in a range when the range
was found due, if the stamp has been set since. Once the job has completed one has
been enqueued for all of them.
-/
structure SkipsNobody (w : Tick) : Prop where
  advanced : w.job.inProgress = false → ∀ e ∈ w.due, e.time ≤ w.stampOf e.range →
    ∀ id ∈ e.ids, id ∈ w.enqueued
  completed : w.job.phase = .finished → ∀ e ∈ w.due, ∀ id ∈ e.ids, id ∈ w.enqueued

/-- The event is enqueued in the line the run stands in, or is about to be. -/
def Coming (w : Tick) (r : Range) (id : Int) : Prop :=
  w.job.phase = .running (.refreshLoad (.range r))
    ∨ ∃ ids, w.job.phase = .running (.refresh (.range r) ids) ∧ id ∈ ids

/-- The range is as due as it was found: its stamp has not been set since. -/
def StillDue (w : Tick) (e : Due) : Prop := e.range.value < e.time - w.stampOf e.range

/-- The statements up to the one that sets the stamp of a range. -/
def ahead (r : Range) : Pc → Bool
  | .load | .monitor _ | .save _ _ | .refreshLoad .now | .refresh .now _ => true
  | .refreshLoad (.range r') | .refresh (.range r') _ => decide (r' ∈ linesBefore r)
  | .stampGet r' | .stampTest r' _ | .stampRead r' | .stampSet r' _ =>
      decide (r' ∈ linesBefore r ∨ r' = r)

/-- The stamp of the range is still to be set, by this attempt or by the next. -/
def Ahead (r : Range) : Phase Pc → Prop
  | .running pc => ahead r pc = true
  | .finished => False
  | .queued | .retrying | .discarded => True

/-- An id of a batch is enqueued, or is coming, or the range will be found due again. -/
def Accounted (w : Tick) (e : Due) (id : Int) : Prop :=
  id ∈ w.enqueued ∨ Coming w e.range id ∨ (StillDue w e ∧ Ahead e.range w.job.phase)

/-- What the place of a run says about the stamp of its range. -/
def Stamps (w : Tick) : Phase Pc → Prop
  | .running (.stampTest r timestamp) => timestamp = w.stampOf r
  | .running (.stampSet _ stamp) => ∀ e ∈ w.due, e.time ≤ stamp
  | .running (.refreshLoad (.range r)) | .running (.refresh (.range r) _) =>
      ∀ e ∈ w.due, e.range = r → e.time ≤ w.stampOf r
  | _ => True

/-- What the attempts maintain about all they found due. -/
structure BatchInv (w : Tick) : Prop where
  accounted : ∀ e ∈ w.due, ∀ id ∈ e.ids, Accounted w e id
  past : ∀ e ∈ w.due, e.time ≤ w.now
  stamps : Stamps w w.job.phase

theorem batchInv_init {w : Tick} (h : Tick.Init w) : BatchInv w := by
  have hnone : ∀ e, e ∉ w.due := by
    intro e he
    rw [h.due] at he
    exact absurd he List.not_mem_nil
  refine ⟨fun e he => absurd he (hnone e), fun e he => absurd he (hnone e), ?_⟩
  rw [h.job]
  trivial

theorem inProgress_of_running {job : Job Unit Pc} {pc : Pc} (h : job.phase = .running pc) :
    job.inProgress = true := by
  unfold Job.inProgress
  rw [h]

theorem not_running_of_idle {job : Job Unit Pc} (h : job.inProgress = false) (pc : Pc) :
    job.phase ≠ .running pc := by
  intro hp
  rw [inProgress_of_running hp] at h
  exact absurd h (by simp)

/-- Nothing is coming where the run stands in no line. -/
theorem not_coming_of_phase {w : Tick} {pc : Pc} (hp : w.job.phase = .running pc)
    (h1 : ∀ sc, pc ≠ .refreshLoad sc) (h2 : ∀ sc ids, pc ≠ .refresh sc ids) (r : Range)
    (id : Int) : ¬ Coming w r id := by
  intro h
  rcases h with h | ⟨ids, h, _⟩
  · rw [hp] at h
    exact h1 _ (Phase.running.inj h)
  · rw [hp] at h
    exact h2 _ _ (Phase.running.inj h)

theorem not_coming_of_idle {w : Tick} (h : w.job.inProgress = false) (r : Range) (id : Int) :
    ¬ Coming w r id := by
  intro hc
  rcases hc with hp | ⟨ids, hp, _⟩
  · exact not_running_of_idle h _ hp
  · exact not_running_of_idle h _ hp

theorem inLine_of_coming {w : Tick} {r : Range} {id : Int} (h : Coming w r id) :
    InLine w r := by
  rcases h with hp | ⟨ids, hp, _⟩
  · exact ⟨_, hp, decide_eq_true rfl⟩
  · exact ⟨_, hp, decide_eq_true rfl⟩

theorem Quiet.stampOf {w w' : Tick} (hq : Quiet w w') (r : Range) :
    w'.stampOf r = w.stampOf r := by
  unfold Tick.stampOf
  rw [hq.redis]

theorem Quiet.past {w w' : Tick} (hq : Quiet w w') (h : ∀ e ∈ w.due, e.time ≤ w.now) :
    ∀ e ∈ w'.due, e.time ≤ w'.now := by
  intro e he
  rw [hq.due] at he
  exact Int.le_trans (h e he) hq.now

theorem Quiet.stamps {w w' : Tick} (hq : Quiet w w') {ph : Phase Pc} (h : Stamps w ph) :
    Stamps w' ph := by
  unfold Stamps at h ⊢
  split at h
  · rw [hq.stampOf]
    exact h
  · rw [hq.due]
    exact h
  · rw [hq.due, hq.stampOf]
    exact h
  · rw [hq.due, hq.stampOf]
    exact h
  · trivial

theorem StillDue.of_stamp {w w' : Tick} {e : Due} (h : StillDue w e)
    (hs : w'.stampOf e.range = w.stampOf e.range) : StillDue w' e := by
  unfold StillDue
  rw [hs]
  exact h

theorem stampOf_congr {w w' : Tick} (h : w'.store = w.store) (r : Range) :
    w'.stampOf r = w.stampOf r := by
  unfold Tick.stampOf
  rw [h]

/-- What a step has to see to, where the id was accounted for. -/
theorem Accounted.goes {w w' : Tick} {e : Due} {id : Int} (h : Accounted w e id)
    (henqueued : id ∈ w.enqueued → id ∈ w'.enqueued)
    (hcoming : Coming w e.range id → Accounted w' e id)
    (hahead : StillDue w e → Ahead e.range w.job.phase →
      StillDue w' e ∧ Ahead e.range w'.job.phase) : Accounted w' e id := by
  rcases h with hdone | hc | ⟨hd, hl⟩
  · exact Or.inl (henqueued hdone)
  · exact hcoming hc
  · exact Or.inr (Or.inr (hahead hd hl))

/-- Behind the line of a range come the lines of the later ones. -/
theorem ahead_after (job : Job Unit Pc) {r r' : Range} (h : r ∈ linesBefore r') :
    Ahead r' (job.settle r.after).phase := by
  cases r <;> cases r' <;> first | rfl | exact absurd h (by decide)

theorem stamps_after (w : Tick) (job : Job Unit Pc) (r : Range) :
    Stamps w (job.settle r.after).phase := by
  cases r <;> trivial

theorem raise_waiting (job : Job Unit Pc) (r : Range) (w : Tick) :
    Ahead r job.raise.phase ∧ Stamps w job.raise.phase := by
  unfold Job.raise
  split
  · exact ⟨trivial, trivial⟩
  · exact ⟨trivial, trivial⟩

theorem ahead_of_first {pc : Pc} (h : inFirstLoop pc = true ∨ pc = .refreshLoad .now)
    (r : Range) : Ahead r (.running pc) := by
  rcases h with h | rfl
  · cases pc with
    | load | monitor _ | save _ _ => rfl
    | refreshLoad _ | refresh _ _ | stampGet _ | stampTest _ _ | stampRead _ | stampSet _ _ =>
        exact absurd h (by simp [inFirstLoop])
  · rfl

theorem stamps_of_first {pc : Pc} (h : inFirstLoop pc = true ∨ pc = .refreshLoad .now)
    (w : Tick) : Stamps w (.running pc) := by
  rcases h with h | rfl
  · cases pc with
    | load | monitor _ | save _ _ => trivial
    | refreshLoad _ | refresh _ _ | stampGet _ | stampTest _ _ | stampRead _ | stampSet _ _ =>
        exact absurd h (by simp [inFirstLoop])
  · trivial

theorem ahead_of_soon (job : Job Unit Pc) (r : Range) :
    Ahead r (job.settle Scope.now.after).phase := by
  cases r <;> rfl

/-- In a range's line its stamp has been set since it was found due. -/
theorem stamped_of_inLine {w : Tick} {r : Range} (h : Stamps w w.job.phase)
    (hl : InLine w r) : ∀ e ∈ w.due, e.range = r → e.time ≤ w.stampOf r := by
  obtain ⟨pc, hp, hpc⟩ := hl
  rw [hp] at h
  cases pc with
  | refreshLoad sc =>
      obtain rfl : sc = .range r := of_decide_eq_true hpc
      exact h
  | refresh sc ids =>
      obtain rfl : sc = .range r := of_decide_eq_true hpc
      exact h
  | load | monitor _ | save _ _ | stampGet _ | stampTest _ _ | stampRead _ | stampSet _ _ =>
      exact absurd hpc (by simp [inLine])

theorem stamps_refresh {w w' : Tick} {sc : Scope} (hd : w'.due = w.due)
    (hstore : w'.store = w.store) (ids : List Int)
    (h : ∀ r, sc = .range r → ∀ e ∈ w.due, e.range = r → e.time ≤ w.stampOf r) :
    Stamps w' (.running (.refresh sc ids)) := by
  cases sc with
  | now => trivial
  | range r =>
      intro e he hr
      rw [hd] at he
      rw [stampOf_congr hstore]
      exact h r rfl e he hr

/-- So no stamp is left advanced with part of its batch missing. -/
theorem skipsNobody_of_batchInv {w : Tick} (h : BatchInv w) : SkipsNobody w where
  advanced := by
    intro hidle e he hle id hid
    rcases h.accounted e he id hid with hdone | hc | ⟨hd, _⟩
    · exact hdone
    · exact absurd hc (not_coming_of_idle hidle _ _)
    · unfold StillDue at hd
      have hpos : 0 < e.range.value := by cases e.range <;> decide
      omega
  completed := by
    intro hp e he id hid
    have hidle : w.job.inProgress = false := by simp [Job.inProgress, hp]
    rcases h.accounted e he id hid with hdone | hc | ⟨_, hl⟩
    · exact hdone
    · exact absurd hc (not_coming_of_idle hidle _ _)
    · rw [hp] at hl
      exact absurd hl not_false

/-! ## The statements that find due, stamp, query and enqueue -/

section Statements

variable {w w' : Tick} {d : Nat} {r : Range} {sc : Scope}

/-- A quiet step keeps the invariant where nothing is coming that is not enqueued. -/
theorem BatchInv.quiet (h : BatchInv w) (hq : Quiet w w')
    (hnot : ∀ e ∈ w.due, ∀ id ∈ e.ids, id ∉ w.enqueued → ¬ Coming w e.range id)
    (hahead : ∀ e ∈ w.due, StillDue w e → Ahead e.range w.job.phase →
      Ahead e.range w'.job.phase)
    (hstamps : Stamps w' w'.job.phase) : BatchInv w' := by
  refine ⟨?_, hq.past h.past, hstamps⟩
  intro e he id hid
  rw [hq.due] at he
  by_cases hdone : id ∈ w.enqueued
  · exact Or.inl (hq.enqueued ▸ hdone)
  · refine (h.accounted e he id hid).goes (fun hin => absurd hin hdone)
      (fun hc => absurd hc (hnot e he id hid hdone)) ?_
    intro hd hl
    exact ⟨hd.of_stamp (hq.stampOf _), hahead e he hd hl⟩

/-- A range that the test finds due has the stamp that was just tested. -/
theorem batchInv_due {timestamp : Int} (h : BatchInv w)
    (hp : w.job.phase = .running (.stampTest r timestamp)) (hgt : r.value < w.now - timestamp)
    (hp' : w'.job.phase = .running (.stampRead r)) (he' : w'.enqueued = w.enqueued)
    (hd' : w'.due = w.due ++ [⟨r, w.now, w.inScope (.range r)⟩]) (hstore : w'.store = w.store)
    (hnow : w.now ≤ w'.now) : BatchInv w' := by
  refine ⟨?_, ?_, by rw [hp']; trivial⟩
  · intro e he id hid
    rw [hd'] at he
    rcases List.mem_append.mp he with hold | hnew
    · refine (h.accounted e hold id hid).goes (fun hin => he' ▸ hin) ?_ ?_
      · intro hc
        exact absurd hc (not_coming_of_phase hp (by simp) (by simp) _ _)
      · intro hd hl
        rw [hp] at hl
        rw [hp']
        exact ⟨hd.of_stamp (stampOf_congr hstore _), hl⟩
    · rw [List.mem_singleton.mp hnew]
      refine Or.inr (Or.inr ⟨?_, ?_⟩)
      · have hstamps := h.stamps
        rw [hp] at hstamps
        have hts : timestamp = w.stampOf r := hstamps
        show r.value < w.now - w'.stampOf r
        rw [stampOf_congr hstore, ← hts]
        exact hgt
      · rw [hp']
        exact decide_eq_true (Or.inr rfl)
  · intro e he
    rw [hd'] at he
    rcases List.mem_append.mp he with hold | hnew
    · exact Int.le_trans (h.past e hold) hnow
    · rw [List.mem_singleton.mp hnew]
      exact hnow

/-- Once the stamp is set, the batch of its range is what comes next. -/
theorem batchInv_stamped {stamp : Int} (h : BatchInv w)
    (hp : w.job.phase = .running (.stampSet r stamp))
    (hp' : w'.job.phase = .running (.refreshLoad (.range r))) (he' : w'.enqueued = w.enqueued)
    (hd' : w'.due = w.due) (hstore : w'.store = w.store.redisSet r.key (.int stamp))
    (hnow : w.now ≤ w'.now) : BatchInv w' := by
  have hstamps := h.stamps
  rw [hp] at hstamps
  refine ⟨?_, ?_, ?_⟩
  · intro e he id hid
    rw [hd'] at he
    by_cases hr : e.range = r
    · exact Or.inr (Or.inl (Or.inl (hr ▸ hp')))
    · refine (h.accounted e he id hid).goes (fun hin => he' ▸ hin) ?_ ?_
      · intro hc
        exact absurd hc (not_coming_of_phase hp (by simp) (by simp) _ _)
      · intro hd hl
        have hsame : w'.stampOf e.range = w.stampOf e.range := by
          rw [stampOf_redisSet hstore, if_neg hr]
        refine ⟨hd.of_stamp hsame, ?_⟩
        rw [hp] at hl
        rw [hp']
        rcases of_decide_eq_true hl with hbefore | heq
        · exact decide_eq_true hbefore
        · exact absurd heq.symm hr
  · intro e he
    rw [hd'] at he
    exact Int.le_trans (h.past e he) hnow
  · rw [hp']
    intro e he _
    rw [hd'] at he
    rw [stampOf_redisSet hstore, if_pos rfl]
    exact hstamps e he

/-- In a scope's line the stamps ahead are those behind it. -/
theorem ahead_refresh {ids : List Int} {r : Range} (h : ahead r (.refreshLoad sc) = true) :
    ahead r (.refresh sc ids) = true := by
  cases sc with
  | now => rfl
  | range r' => exact h

/-- The query selects what is missing of its range. -/
theorem batchInv_loaded (h : BatchInv w) (hok : CompletesBatches w (.perform d))
    (hp : w.job.phase = .running (.refreshLoad sc))
    (hp' : w'.job.phase
      = .running (.refresh sc ((sc.load w.store.events w.now (w.now + d)).map Event.id)))
    (he' : w'.enqueued = w.enqueued) (hd' : w'.due = w.due) (hstore : w'.store = w.store)
    (hnow : w'.now = w.now + d) : BatchInv w' := by
  refine ⟨?_, ?_, ?_⟩
  · intro e he id hid
    rw [hd'] at he
    refine (h.accounted e he id hid).goes (fun hin => he' ▸ hin) ?_ ?_
    · intro hc
      have hsc : sc = .range e.range := by
        rcases hc with hc | ⟨ids, hc, _⟩
        · rw [hp] at hc
          exact Pc.refreshLoad.inj (Phase.running.inj hc)
        · rw [hp] at hc
          exact absurd (Phase.running.inj hc) (by simp)
      subst hsc
      have hsel : id ∈ w.enqueued ∨ id ∈ ((Scope.range e.range).load w.store.events w.now
          (w.now + d)).map Event.id := by
        unfold CompletesBatches at hok
        rw [hp] at hok
        exact hok e he rfl id hid
      rcases hsel with hdone | hin
      · exact Or.inl (he' ▸ hdone)
      · exact Or.inr (Or.inl (Or.inr ⟨_, hp', hin⟩))
    · intro hd hl
      rw [hp] at hl
      rw [hp']
      exact ⟨hd.of_stamp (stampOf_congr hstore _), ahead_refresh hl⟩
  · intro e he
    rw [hd'] at he
    have hle := h.past e he
    omega
  · rw [hp']
    refine stamps_refresh hd' hstore _ ?_
    intro r hr
    exact stamped_of_inLine h.stamps ⟨_, hp, decide_eq_true hr⟩

/-- What is coming is enqueued, one id after the other. -/
theorem batchInv_enqueued {x : Int} {ids : List Int} (h : BatchInv w)
    (hp : w.job.phase = .running (.refresh sc (x :: ids)))
    (hp' : w'.job.phase = .running (.refresh sc ids)) (he' : w'.enqueued = w.enqueued ++ [x])
    (hd' : w'.due = w.due) (hstore : w'.store = w.store) (hnow : w.now ≤ w'.now) :
    BatchInv w' := by
  refine ⟨?_, ?_, ?_⟩
  · intro e he id hid
    rw [hd'] at he
    refine (h.accounted e he id hid).goes (fun hin => he' ▸ List.mem_append_left _ hin) ?_ ?_
    · intro hc
      rcases hc with hc | ⟨ids', hc, hin⟩
      · rw [hp] at hc
        exact absurd (Phase.running.inj hc) (by simp)
      · rw [hp] at hc
        obtain ⟨rfl, rfl⟩ := Pc.refresh.inj (Phase.running.inj hc)
        rcases List.mem_cons.mp hin with rfl | hrest
        · exact Or.inl (he' ▸ List.mem_append_right _ List.mem_cons_self)
        · exact Or.inr (Or.inl (Or.inr ⟨ids, hp', hrest⟩))
    · intro hd hl
      rw [hp] at hl
      rw [hp']
      refine ⟨hd.of_stamp (stampOf_congr hstore _), ?_⟩
      cases sc with
      | now => rfl
      | range r => exact hl
  · intro e he
    rw [hd'] at he
    exact Int.le_trans (h.past e he) hnow
  · rw [hp']
    refine stamps_refresh hd' hstore ids ?_
    intro r hr
    exact stamped_of_inLine h.stamps ⟨_, hp, decide_eq_true hr⟩

/-- A range that is not due is not one that was found due and not stamped since. -/
theorem not_stillDue_of_notDue {timestamp : Int} (h : BatchInv w)
    (hp : w.job.phase = .running (.stampTest r timestamp)) (hle : w.now - timestamp ≤ r.value)
    {e : Due} (he : e ∈ w.due) (hr : e.range = r) : ¬ StillDue w e := by
  intro hd
  -- the clock has only gone on
  have hstamps := h.stamps
  rw [hp] at hstamps
  have hts : timestamp = w.stampOf r := hstamps
  have htime := h.past e he
  unfold StillDue at hd
  rw [hr] at hd
  omega

/-- Nothing more is coming in a line that is done. -/
theorem not_coming_of_lineDone (hp : w.job.phase = .running (.refresh sc [])) (r : Range)
    (id : Int) : ¬ Coming w r id := by
  intro hc
  rcases hc with hc | ⟨ids, hc, hin⟩
  · rw [hp] at hc
    exact absurd (Phase.running.inj hc) (by simp)
  · rw [hp] at hc
    obtain ⟨_, rfl⟩ := Pc.refresh.inj (Phase.running.inj hc)
    exact absurd hin List.not_mem_nil

end Statements

/-- **What was found due is enqueued, is coming, or will be found due again.** -/
theorem batchInv_step {w w' : Tick} {a : Tick.Act} (h : BatchInv w)
    (hok : CompletesBatches w a) (hs : Turn w w' a) : BatchInv w' := by
  -- where the run stands at a statement outside the lines, nothing is coming
  have outside : ∀ {pc : Pc}, w.job.phase = .running pc → (∀ sc, pc ≠ .refreshLoad sc) →
      (∀ sc ids, pc ≠ .refresh sc ids) →
      ∀ e ∈ w.due, ∀ id ∈ e.ids, id ∉ w.enqueued → ¬ Coming w e.range id :=
    fun hp h1 h2 e _ id _ _ => not_coming_of_phase hp h1 h2 e.range id
  cases hs with
  | later hq hj =>
      refine ⟨?_, hq.past h.past, by rw [hj]; exact hq.stamps h.stamps⟩
      intro e he id hid
      rw [hq.due] at he
      unfold Accounted Coming StillDue
      rw [hj, hq.enqueued, hq.stampOf]
      exact h.accounted e he id hid
  | started hq hwait hp' =>
      have hidle : w.job.inProgress = false := by
        unfold Job.inProgress
        rcases hwait with hp | hp
        · rw [hp]
        · rw [hp]
      refine h.quiet hq (fun e _ id _ _ => not_coming_of_idle hidle _ _) ?_ ?_
      · intro e _ _ _
        rw [hp']
        rfl
      · rw [hp']
        trivial
  | raised hq hp hj =>
      refine h.quiet hq ?_ ?_ ?_
      · -- what is coming would be missing behind its stamp
        intro e he id hid hdone hc
        exact hok e.range (inLine_of_coming hc) ⟨e, he, rfl, id, hid, hdone⟩
      · intro e _ _ _
        rw [hj]
        exact (raise_waiting w.job e.range w').1
      · rw [hj]
        exact (raise_waiting w.job .soon w').2
  | @looped d pc pc' hq hp hloop hp' hloop' =>
      refine h.quiet hq (outside hp ?_ ?_) ?_ ?_
      · rintro sc rfl
        exact absurd hloop (by simp [inFirstLoop])
      · rintro sc ids rfl
        exact absurd hloop (by simp [inFirstLoop])
      · intro e _ _ _
        rw [hp']
        exact ahead_of_first hloop' e.range
      · rw [hp']
        exact stamps_of_first hloop' w'
  | @got d r hq hp hp' =>
      refine h.quiet hq (outside hp (by simp) (by simp)) ?_ ?_
      · intro e _ _ hl
        rw [hp] at hl
        rw [hp']
        exact hl
      · rw [hp']
        exact (hq.stampOf r).symm
  | @notDue d r timestamp hq hp hle hj =>
      refine h.quiet hq (outside hp (by simp) (by simp)) ?_ ?_
      · intro e he hd hl
        rw [hp] at hl
        rw [hj]
        rcases of_decide_eq_true hl with hbefore | heq
        · exact ahead_after w.job hbefore
        · exact absurd hd (not_stillDue_of_notDue h hp hle he heq.symm)
      · rw [hj]
        exact stamps_after w' w.job r
  | due hp hgt hp' he' hd' _ hstore hnow => exact batchInv_due h hp hgt hp' he' hd' hstore hnow
  | @taken d r hq hp hp' =>
      refine h.quiet hq (outside hp (by simp) (by simp)) ?_ ?_
      · intro e _ _ hl
        rw [hp] at hl
        rw [hp']
        exact hl
      · rw [hp']
        intro e he
        rw [hq.due] at he
        exact h.past e he
  | stamped hp hp' he' hd' _ hstore hnow => exact batchInv_stamped h hp hp' he' hd' hstore hnow
  | loaded hp hp' he' hd' _ hstore hnow =>
      exact batchInv_loaded h hok hp hp' he' hd' hstore hnow
  | enqueued hp hp' he' hd' _ hstore hnow => exact batchInv_enqueued h hp hp' he' hd' hstore hnow
  | @lineDone d sc hq hp hj =>
      refine h.quiet hq (fun e _ id _ _ => not_coming_of_lineDone hp _ _) ?_ ?_
      · intro e _ _ hl
        rw [hp] at hl
        rw [hj]
        cases sc with
        | now => exact ahead_of_soon w.job e.range
        | range r => exact ahead_after w.job (of_decide_eq_true hl)
      · rw [hj]
        cases sc with
        | now => trivial
        | range r => exact stamps_after w' w.job r

theorem batchInv_reachable {w : Tick}
    (h : Reachable Tick.act CompletesBatches Tick.Init w) : BatchInv w :=
  h.invariant (fun _ => batchInv_init) (fun _ _ _ hi hok hs => batchInv_step hi hok (act_turn hs))

/--
**No failure skips an event but one in the midst of a due batch.** From such a
failure on, a stamp is left advanced with part of its batch not enqueued.
-/
theorem skipsNobody_of_completesBatches :
    ∀ w, Reachable Tick.act CompletesBatches Tick.Init w →
      SkipsNobody w
        ∧ ∀ w', Tick.act w .raise = some w' → (SkipsNobody w' ↔ CompletesBatches w .raise) := by
  intro w h
  have hinv := batchInv_reachable h
  refine ⟨skipsNobody_of_batchInv hinv, ?_⟩
  intro w' hs
  constructor
  · intro hskip r hline hmissing
    obtain ⟨e, he, hr, id, hid, hnot⟩ := hmissing
    cases act_turn hs with
    | raised hq _ hj =>
        have hidle : w'.job.inProgress = false := by rw [hj, Job.raise_inProgress]
        have hset : e.time ≤ w'.stampOf e.range := by
          rw [hq.stampOf, hr]
          exact stamped_of_inLine hinv.stamps hline e he hr
        exact hnot (hq.enqueued ▸ hskip.advanced hidle e (hq.due.symm ▸ he) hset id hid)
  · intro hok
    exact skipsNobody_of_batchInv (batchInv_step hinv hok (act_turn hs))

instance (w : Tick) (r : Range) : Decidable (InLine w r) :=
  match h : w.job.phase with
  | .running pc => decidable_of_iff (inLine r pc = true) (by simp [InLine, h])
  | .queued | .retrying | .finished | .discarded => isFalse (by simp [InLine, h])

instance (w : Tick) (r : Range) : Decidable (Missing w r) :=
  inferInstanceAs (Decidable (∃ e ∈ w.due, _))

instance (w : Tick) (a : Tick.Act) : Decidable (CompletesBatches w a) := by
  unfold CompletesBatches
  split
  · exact decidable_of_iff (∀ r ∈ [Range.soon, .later, .tomorow, .someday],
      InLine w r → ¬ Missing w r) (by
        constructor
        · intro h r
          refine h r ?_
          cases r <;> simp
        · intro h r _
          exact h r)
  · split <;> infer_instance
  · infer_instance

/-- A match that opens at time `d`. -/
def opening (id d : Int) : Event :=
  ⟨id, some "A v B", some d, some "GB", some .notStarted, some false⟩

/-- A job just enqueued, at time 10000, with the stamps of a fresh boot. -/
def tickWith (events : List Event) : Tick :=
  ⟨{ Store.boot with events := events }, 10000, Job.enqueue (), [], [], [], fun _ => (0, 0)⟩

theorem tickWith_init (events : List Event) : Tick.Init (tickWith events) := ⟨rfl, rfl, rfl⟩

/-- An attempt of `n` statements that raises, and one of `m` statements. -/
def failsOnce (n m : Nat) : List Tick.Act :=
  .start :: List.replicate n (.perform 0) ++ .raise :: .start :: List.replicate m (.perform 0)

/-- The first attempt raises inside `time('soon')`: the range is due, its stamp not yet set. -/
theorem skipsNobody_failsOnce :
    ∃ w, w.job.phase = .finished ∧ w.enqueued = [1, 2] ∧ SkipsNobody w := by
  obtain ⟨w, hr, hp, he⟩ := reachable_of_run Tick.act CompletesBatches (failsOnce 6 30)
    (fun w => w.job.phase = .finished ∧ w.enqueued = [1, 2])
    (tickWith_init [opening 1 11000, opening 2 12000]) (by decide +kernel)
  exact ⟨w, hp, he, (skipsNobody_of_completesBatches w hr).1⟩

/-! ## The two ways to skip an event -/

/-- A job that has completed within the interval of a range has enqueued all it found due there. -/
def CompletesInTime (w : Tick) : Prop :=
  w.job.phase = .finished → ∀ e ∈ w.due, w.now - e.time ≤ e.range.value →
    ∀ id ∈ e.ids, id ∈ w.enqueued

theorem completesInTime_of_skipsNobody {w : Tick} (h : SkipsNobody w) : CompletesInTime w := by
  intro hp e he _ id hid
  exact h.completed hp e he id hid

/-- Runs of one attempt. -/
def NoRaise (_ : Tick) : Tick.Act → Prop
  | .raise => False
  | _ => True

instance (w : Tick) (a : Tick.Act) : Decidable (NoRaise w a) := by
  unfold NoRaise
  split <;> infer_instance

/-- The job is done in time, and has not enqueued event 2. -/
def SkipsTwo (w : Tick) : Prop :=
  w.job.phase = .finished ∧ ∃ e ∈ w.due, w.now - e.time ≤ e.range.value ∧ 2 ∈ e.ids
    ∧ 2 ∉ w.enqueued

instance (w : Tick) : Decidable (SkipsTwo w) :=
  inferInstanceAs (Decidable (_ ∧ ∃ e ∈ w.due, _))

/-- Event 2 leaves the range between the test that finds it due and the setting of the stamp. -/
def overtaken : List Tick.Act :=
  .start :: List.replicate 6 (.perform 0) ++ .advance 1 :: List.replicate 22 (.perform 0)

/--
**A retry does not make good a batch that was cut short, and an attempt that never
fails can overtake an event.**
-/
theorem batch_cut_short :
    (¬ ∀ w, Reachable Tick.act always Tick.Init w → CompletesInTime w)
      ∧ ¬ ∀ w, Reachable Tick.act NoRaise Tick.Init w → CompletesInTime w := by
  have no : ∀ w, SkipsTwo w → ¬ CompletesInTime w := by
    intro w h hall
    obtain ⟨hp, e, he, ht, hid, hnot⟩ := h
    exact hnot (hall hp e he ht 2 hid)
  constructor
  · intro hall
    obtain ⟨w, hr, h⟩ := reachable_of_run Tick.act always (failsOnce 10 24) SkipsTwo
      (tickWith_init [opening 1 11000, opening 2 12000]) (by decide +kernel)
    exact no w h (hall w hr)
  · intro hall
    obtain ⟨w, hr, h⟩ := reachable_of_run Tick.act NoRaise overtaken SkipsTwo
      (tickWith_init [opening 2 10660]) (by decide +kernel)
    exact no w h (hall w hr)

end BetterEfisis.Proof

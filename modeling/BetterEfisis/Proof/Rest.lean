import BetterEfisis.Lib.Rest
import BetterEfisis.Proof.History

/-!
# The application comes to rest

Once nothing new is scheduled and no match stays in play, the application comes to rest,
whatever the order of its steps, whatever calls fail, whatever is answered, and whatever time
passes in between. That takes a well-founded order, for a tick enqueues as many jobs as there
are events by then, and every job can start again from its first statement 25 times.

The places below go down along the code. Where a loop has a counter or a list, so does the
place; the polling loop has none, and is why a match must not stay in play.
-/

namespace BetterEfisis.Proof

open Lib Application

variable {env : Environment}

/-! ## The places go down -/

def rangeRank : OddsWorker.Range → ℕ
  | .soon => 3
  | .later => 2
  | .tomorow => 1
  | .someday => 0

def tickPlace : OddsWorker.Pc → Rank
  | .load => stage 27 0 0
  | .monitor rows => stage 26 (2 * rows.length) 0
  | .save _ rows => stage 26 (2 * rows.length + 1) 0
  | .refreshLoad .now => stage 25 0 0
  | .refresh .now ids => stage 24 ids.length 0
  | .stampGet r => stage (6 * rangeRank r + 5) 0 0
  | .stampTest r _ => stage (6 * rangeRank r + 4) 0 0
  | .stampRead r => stage (6 * rangeRank r + 3) 0 0
  | .stampSet r _ => stage (6 * rangeRank r + 2) 0 0
  | .refreshLoad (.range r) => stage (6 * rangeRank r + 1) 0 0
  | .refresh (.range r) ids => stage (6 * rangeRank r) ids.length 0

def monitorPlace : MonitorWEBWorker.Pc → Rank
  | .waiting n => stage 20 (200 - n) 0
  | .setKey _ => stage 19 0 0
  | .findHome _ => stage 18 0 0
  | .createHome _ _ => stage 17 0 0
  | .findAway _ _ _ => stage 16 0 0
  | .createAway _ _ _ => stage 15 0 0
  | .loadInPlay _ => stage 14 0 0
  | .saveInPlay _ _ => stage 13 0 0
  -- a snapshot that is not the last leads back to the poll
  | .snapshot _ _ t => if MonitorWEBWorker.isOver t = true then stage 10 0 0 else stage 12 0 0
  | .polling _ _ => stage 11 0 0
  | .delKey _ _ => stage 9 0 0
  | .importUpdates _ _ => stage 8 0 0
  | .loadEnded => stage 7 0 0
  | .saveEnded _ => stage 6 0 0

def importPlace : EventWorker.Pc → Rank
  | .login => stage 5 0 0
  | .fetch => stage 4 0 0
  | .importEvents _ => stage 3 0 0
  | .importMarkets _ => stage 2 0 0
  | .importSelections _ => stage 1 0 0

def refreshPlace : RefreshOddsWorker.Pc → Rank
  | .login => stage 5 0 0
  | .load => stage 4 0 0
  | .ask _ groups _ => stage 3 (2 * groups.length) 0
  | .parse _ results groups _ => stage 3 (2 * groups.length + 1) results.length

/-- Behind a line comes one of a nearer stage. -/
theorem range_after_place {r : OddsWorker.Range} {pc : OddsWorker.Pc} (h : r.after = .next pc)
    {b c : ℕ} : tickPlace pc < stage (6 * rangeRank r) b c := by
  cases r <;> cases h <;> exact stage_lt.mpr (Or.inl (by decide))

theorem tick_place {now now' : Int} {s : Store} {pc pc' : OddsWorker.Pc} {r : OddsWorker.Step}
    (h : OddsStep now now' s pc r) (hr : r.next = .next pc') : tickPlace pc' < tickPlace pc := by
  cases h with
  | loaded | through =>
      cases hr
      exact stage_lt.mpr (Or.inl (by decide))
  | skipped _ | enqueued _ =>
      cases hr
      refine stage_lt.mpr (Or.inr ⟨rfl, Or.inl ?_⟩)
      rw [List.length_cons]
      omega
  | saved =>
      cases hr
      exact stage_lt.mpr (Or.inr ⟨rfl, Or.inl (Nat.lt_succ_self _)⟩)
  | @selected sc =>
      cases hr
      cases sc with
      | now => exact stage_lt.mpr (Or.inl (by decide))
      | range rg => exact stage_lt.mpr (Or.inl (Nat.lt_succ_self _))
  | @refreshed sc id ids =>
      cases hr
      cases sc with
      | now => exact stage_lt.mpr (Or.inr ⟨rfl, Or.inl (Nat.lt_succ_self _)⟩)
      | range rg => exact stage_lt.mpr (Or.inr ⟨rfl, Or.inl (Nat.lt_succ_self _)⟩)
  | @lineDone sc =>
      cases sc with
      | now =>
          cases hr
          exact stage_lt.mpr (Or.inl (by decide))
      | range rg => exact range_after_place hr
  | @notDue rg t _ =>
      have hafter : tickPlace pc' < stage (6 * rangeRank rg) 0 0 := range_after_place hr
      exact hafter.trans (stage_lt.mpr (Or.inl (by omega)))
  | stampGot | due _ | stampTaken | stamped =>
      cases hr
      exact stage_lt.mpr (Or.inl (by omega))

/-- A monitor's statement, if it is not a poll that leaves the match in play. -/
theorem monitor_place {cfg : Config} {id : Int} {body : Body} {s s' : Store}
    {pc pc' : MonitorWEBWorker.Pc} (h : MonitorStep cfg id body s pc s' (.next pc'))
    (hwait : ∀ n, pc = .waiting n → n ≤ 200)
    (hover : ∀ m sc t, pc = .polling m sc → body = .json t → MonitorWEBWorker.isOver t = true) :
    monitorPlace pc' < monitorPlace pc := by
  cases h with
  | @waited n hn =>
      have hle := hwait n rfl
      exact stage_lt.mpr (Or.inr ⟨rfl, Or.inl (by omega)⟩)
  | polled hbody =>
      have hlast := hover _ _ _ rfl hbody
      rw [monitorPlace, if_pos hlast]
      exact stage_lt.mpr (Or.inl (by decide))
  | cached hnot =>
      rw [monitorPlace, monitorPlace, if_neg hnot]
      exact stage_lt.mpr (Or.inl (by decide))
  | cachedLast hlast =>
      rw [monitorPlace, monitorPlace, if_pos hlast]
      exact stage_lt.mpr (Or.inl (by decide))
  | givenUp | begun _ _ | keySet | homeFound _ | homeMissing | homeCreated _ | awayFound _
  | awayMissing | awayCreated _ | inPlayLoaded _ | inPlaySaved | keyDeleted | updatesImported
  | endedLoaded _ => exact stage_lt.mpr (Or.inl (by decide))

theorem import_place {answers : Answers} {l : EventWorker.Logon} {ids : Nat → Nat} {s s' : Store}
    {pc pc' : EventWorker.Pc} (h : ImportStep env answers l ids s pc s' (.next pc')) :
    importPlace pc' < importPlace pc := by
  cases h <;> exact stage_lt.mpr (Or.inl (by decide))

theorem refresh_place {l : EventWorker.Logon} {answer : Option (List Betfair.MarketBook)}
    {id : Int} {s s' : Store} {pc pc' : RefreshOddsWorker.Pc}
    (h : RefreshStep env l answer id s pc s' (.next pc')) :
    refreshPlace pc' < refreshPlace pc := by
  cases h with
  | loggedIn _ | loaded _ => exact stage_lt.mpr (Or.inl (by decide))
  | asked _ =>
      refine stage_lt.mpr (Or.inr ⟨rfl, Or.inl ?_⟩)
      rw [List.length_cons]
      omega
  | skipped =>
      refine stage_lt.mpr (Or.inr ⟨rfl, Or.inl ?_⟩)
      rw [List.length_cons]
      omega
  | parsed _ => exact stage_lt.mpr (Or.inr ⟨rfl, Or.inr ⟨rfl, Nat.lt_succ_self _⟩⟩)
  | parsedAll => exact stage_lt.mpr (Or.inr ⟨rfl, Or.inl (Nat.lt_succ_self _)⟩)

/-! ## The weight of the application -/

/-- Ticks are of the larger kind: they enqueue the jobs of two of the others. -/
def weightOf (w : Application) : Multiset Weight :=
  weights 1 tickPlace w.ticks + (weights 0 monitorPlace w.monitors
    + (weights 0 importPlace w.imports + weights 0 refreshPlace w.refreshes))

/-- A step of a job: it is picked up, executes a statement, or raises. -/
def OfJob (_ : Application) : Application.Act → Prop
  | .startTick _ | .tick _ _ | .raiseTick _ | .startMonitor _ | .monitor _ _ | .raiseMonitor _
  | .startImport _ | .import_ _ _ _ _ | .raiseImport _ | .startRefresh _ | .refresh _ _ _
  | .raiseRefresh _ => True
  | .advance _ | .createAccount _ _ _ | .editAccount _ _ _ _ | .boot | .resetStamp _
  | .scheduleTick | .scheduleImport => False

/-- No job is scheduled, and no poll finds its match in play. -/
def WindsDown (w : Application) : Application.Act → Prop
  | .scheduleTick | .scheduleImport => False
  | .monitor j body => ∀ m sc t, standsAt w.monitors j = some (.polling m sc) →
      body = .json t → MonitorWEBWorker.isOver t = true
  | .advance _ | .createAccount _ _ _ | .editAccount _ _ _ _ | .boot | .resetStamp _
  | .startTick _ | .tick _ _ | .raiseTick _ | .startMonitor _ | .raiseMonitor _
  | .startImport _ | .import_ _ _ _ _ | .raiseImport _ | .startRefresh _ | .refresh _ _ _
  | .raiseRefresh _ => True

/-- No run waits longer than it counts. -/
def WaitsCounted (w : Application) : Prop :=
  AllStand (fun _ pc => ∀ n, pc = .waiting n → n ≤ 200) w.monitors

theorem monitor_waits {cfg : Config} {id : Int} {body : Body} {s s' : Store}
    {pc pc' : MonitorWEBWorker.Pc} (h : MonitorStep cfg id body s pc s' (.next pc'))
    (hwait : ∀ n, pc = .waiting n → n ≤ 200) : ∀ n, pc' = .waiting n → n ≤ 200 := by
  intro n hn
  cases h with
  | @waited k hk =>
      cases hn
      have hle := hwait k rfl
      omega
  | _ => exact absurd hn (by simp)

theorem waitsCounted_moved {w w' : Application} {a : Application.Act} (h : WaitsCounted w)
    (hm : Moved env w a w') : WaitsCounted w' := by
  cases hm with
  | startedMonitor _ _ _ =>
      refine h.start ?_
      intro n hn
      cases hn
      omega
  | raisedMonitor _ _ => exact h.raise
  | ticked _ _ => exact h.enqueue _
  | @monitored j body job pc hj hp =>
      refine h.settle ?_
      intro q hq
      have hstep := monitor_step env.toConfig job.arg body w.store pc
      rw [hq] at hstep
      exact monitor_waits hstep (h.here hj hp)
  | _ => exact h

theorem waitsCounted_reachable {ok : Application → Application.Act → Prop} {w : Application}
    (h : Reachable (Application.act env) ok Application.Init w) : WaitsCounted w := by
  refine h.invariant ?_ (fun _ _ _ hw _ hs => waitsCounted_moved hw (act_iff.mp hs))
  intro w hw
  obtain ⟨now, rfl⟩ := hw
  exact allStand_nil

section Summands

open Relation

variable {w v : Application}

/-- A step that changes one of the four lists makes the weight smaller if it does that list's. -/
theorem lighter_monitors
    (h : CutExpand (· < ·) (weights 0 monitorPlace v.monitors) (weights 0 monitorPlace w.monitors))
    (ht : v.ticks = w.ticks) (hi : v.imports = w.imports) (hr : v.refreshes = w.refreshes) :
    CutExpand (· < ·) (weightOf v) (weightOf w) := by
  unfold weightOf
  rw [ht, hi, hr]
  exact (cutExpand_add_left _).mpr ((cutExpand_add_right _).mpr h)

theorem lighter_imports
    (h : CutExpand (· < ·) (weights 0 importPlace v.imports) (weights 0 importPlace w.imports))
    (ht : v.ticks = w.ticks) (hm : v.monitors = w.monitors) (hr : v.refreshes = w.refreshes) :
    CutExpand (· < ·) (weightOf v) (weightOf w) := by
  unfold weightOf
  rw [ht, hm, hr]
  exact (cutExpand_add_left _).mpr ((cutExpand_add_left _).mpr ((cutExpand_add_right _).mpr h))

theorem lighter_refreshes
    (h : CutExpand (· < ·) (weights 0 refreshPlace v.refreshes)
      (weights 0 refreshPlace w.refreshes))
    (ht : v.ticks = w.ticks) (hm : v.monitors = w.monitors) (hi : v.imports = w.imports) :
    CutExpand (· < ·) (weightOf v) (weightOf w) := by
  unfold weightOf
  rw [ht, hm, hi]
  exact (cutExpand_add_left _).mpr ((cutExpand_add_left _).mpr ((cutExpand_add_left _).mpr h))

/-- A tick may enqueue jobs for the monitors and the refreshes. -/
theorem lighter_ticks {i : ℕ} {job job' : Job Unit OddsWorker.Pc}
    {ms : List (Job Int MonitorWEBWorker.Pc)} {rs : List (Job Int RefreshOddsWorker.Pc)}
    (hj : w.ticks[i]? = some job) (hlt : job'.weight 1 tickPlace < job.weight 1 tickPlace)
    (ht : v.ticks = w.ticks.set i job') (hm : v.monitors = w.monitors ++ ms)
    (hr : v.refreshes = w.refreshes ++ rs) (hi : v.imports = w.imports) :
    CutExpand (· < ·) (weightOf v) (weightOf w) := by
  have hcut : CutExpand (· < ·) (weights 1 tickPlace (w.ticks.set i job')
      + (weights 0 monitorPlace ms + weights 0 refreshPlace rs)) (weights 1 tickPlace w.ticks) := by
    refine cut_set hj hlt ?_
    intro x hx
    rcases Multiset.mem_add.mp hx with hx | hx
    · exact weights_lt_of_kind Nat.zero_lt_one x hx
    · exact weights_lt_of_kind Nat.zero_lt_one x hx
  have hsum := (cutExpand_add_right (r := (· < ·)) (weights 0 monitorPlace w.monitors
    + (weights 0 importPlace w.imports + weights 0 refreshPlace w.refreshes))).mpr hcut
  unfold weightOf
  rw [ht, hm, hr, hi, weights_append, weights_append]
  -- the same summands, in another order
  refine cast ?_ hsum
  congr 1
  abel

end Summands

/-- **Every step of a job makes the application lighter.** -/
theorem weight_moved {w w' : Application} {a : Application.Act} (h : WaitsCounted w)
    (hok : WindsDown w a) (hjob : OfJob w a) (hm : Moved env w a w') :
    Relation.CutExpand (· < ·) (weightOf w') (weightOf w) := by
  cases hm with
  | advanced | created | edited _ | booted | stampReset _ | scheduledTick | scheduledImport =>
      exact hjob.elim
  | startedTick hj hlive hno =>
      exact lighter_ticks hj (weight_start hlive hno) rfl (List.append_nil _).symm
        (List.append_nil _).symm rfl
  | raisedTick hj hp =>
      exact lighter_ticks hj (weight_raise hp) rfl (List.append_nil _).symm
        (List.append_nil _).symm rfl
  | @ticked i d job pc hj hp =>
      have hstep := odds_step w.now (w.now + d) w.store pc
      exact lighter_ticks hj (weight_settle hp (fun q hq => tick_place hstep hq)) rfl rfl rfl rfl
  | startedMonitor hj hlive hno =>
      exact lighter_monitors (cut_move hj (weight_start hlive hno)) rfl rfl rfl
  | raisedMonitor hj hp => exact lighter_monitors (cut_move hj (weight_raise hp)) rfl rfl rfl
  | @monitored j body job pc hj hp =>
      refine lighter_monitors (cut_move hj (weight_settle hp ?_)) rfl rfl rfl
      intro q hq
      have hstep := monitor_step env.toConfig job.arg body w.store pc
      rw [hq] at hstep
      refine monitor_place hstep (h.here hj hp) ?_
      intro m sc t hpc hbody
      exact hok m sc t (standsAt_iff.mpr ⟨job, hj, by rw [hp, hpc]⟩) hbody
  | startedImport hj hlive hno =>
      exact lighter_imports (cut_move hj (weight_start hlive hno)) rfl rfl rfl
  | raisedImport hj hp => exact lighter_imports (cut_move hj (weight_raise hp)) rfl rfl rfl
  | @imported i x answers ids job pc hj hp =>
      refine lighter_imports (cut_move hj (weight_settle hp ?_)) rfl rfl rfl
      intro q hq
      have hstep := import_step env answers (x.logon w.now) ids w.store pc
      rw [hq] at hstep
      exact import_place hstep
  | startedRefresh hj hlive hno =>
      exact lighter_refreshes (cut_move hj (weight_start hlive hno)) rfl rfl rfl
  | raisedRefresh hj hp => exact lighter_refreshes (cut_move hj (weight_raise hp)) rfl rfl rfl
  | @refreshed k x answer job pc hj hp =>
      refine lighter_refreshes (cut_move hj (weight_settle hp ?_)) rfl rfl rfl
      intro q hq
      have hstep := refresh_step env (x.logon w.now) answer job.arg w.store pc
      rw [hq] at hstep
      exact refresh_place hstep

/-- The other steps leave the jobs alone, but for those that schedule one. -/
theorem weight_kept {w w' : Application} {a : Application.Act} (hok : WindsDown w a)
    (hjob : ¬ OfJob w a) (hm : Moved env w a w') : weightOf w' = weightOf w := by
  cases hm with
  | scheduledTick | scheduledImport => exact hok.elim
  | advanced | created | edited _ | booted | stampReset _ => rfl
  | _ => exact absurd trivial hjob

/-! ## Rest -/

/-- No job of any kind is left. -/
structure Quiescent (w : Application) : Prop where
  ticks : AllDone w.ticks
  monitors : AllDone w.monitors
  imports : AllDone w.imports
  refreshes : AllDone w.refreshes

/-- A list of jobs none of which can be picked up or can raise. -/
theorem allDone_of_stuck {arg pc : Type} {l : List (Job arg pc)} (p : pc)
    (hstart : ∀ i, startAt l i p = none) (hraise : ∀ i, raiseAt l i = none) : AllDone l := by
  intro j hj
  cases hlive : j.isLive with
  | false => rfl
  | true =>
      obtain ⟨i, hi⟩ := can_move_of_live p hj hlive
      rcases hi with hi | hi
      · exact absurd (hstart i) hi
      · exact absurd (hraise i) hi

theorem atRest_iff {w : Application} :
    AtRest (Application.act env) WindsDown OfJob w ↔ Quiescent w := by
  constructor
  · intro h
    refine ⟨?_, ?_, ?_, ?_⟩
    · exact allDone_of_stuck .load
        (fun i => Option.map_eq_none_iff.mp (h (.startTick i) trivial trivial))
        (fun i => Option.map_eq_none_iff.mp (h (.raiseTick i) trivial trivial))
    · exact allDone_of_stuck (.waiting 0)
        (fun j => Option.map_eq_none_iff.mp (h (.startMonitor j) trivial trivial))
        (fun j => Option.map_eq_none_iff.mp (h (.raiseMonitor j) trivial trivial))
    · exact allDone_of_stuck .login
        (fun i => Option.map_eq_none_iff.mp (h (.startImport i) trivial trivial))
        (fun i => Option.map_eq_none_iff.mp (h (.raiseImport i) trivial trivial))
    · exact allDone_of_stuck .login
        (fun k => Option.map_eq_none_iff.mp (h (.startRefresh k) trivial trivial))
        (fun k => Option.map_eq_none_iff.mp (h (.raiseRefresh k) trivial trivial))
  · intro h a _ hjob
    cases a with
    | advance d | createAccount u p s | editAccount i u p s | boot | resetStamp b
    | scheduleTick | scheduleImport => exact hjob.elim
    | startTick i => exact Option.map_eq_none_iff.mpr (startAt_of_done h.ticks)
    | startMonitor j => exact Option.map_eq_none_iff.mpr (startAt_of_done h.monitors)
    | startImport i => exact Option.map_eq_none_iff.mpr (startAt_of_done h.imports)
    | startRefresh k => exact Option.map_eq_none_iff.mpr (startAt_of_done h.refreshes)
    | tick i d => exact Option.map_eq_none_iff.mpr (runningAt_of_done h.ticks)
    | monitor j body => exact Option.map_eq_none_iff.mpr (runningAt_of_done h.monitors)
    | import_ i x answers ids => exact Option.map_eq_none_iff.mpr (runningAt_of_done h.imports)
    | refresh k x answer => exact Option.map_eq_none_iff.mpr (runningAt_of_done h.refreshes)
    | raiseTick i => exact Option.map_eq_none_iff.mpr (raiseAt_of_done h.ticks)
    | raiseMonitor j => exact Option.map_eq_none_iff.mpr (raiseAt_of_done h.monitors)
    | raiseImport i => exact Option.map_eq_none_iff.mpr (raiseAt_of_done h.imports)
    | raiseRefresh k => exact Option.map_eq_none_iff.mpr (raiseAt_of_done h.refreshes)

/-- A run in which nothing new comes in comes to an end of the steps of jobs. -/
theorem jobs_end {w : Application} {f : ℕ → Application} {g : ℕ → Application.Act}
    (hw : WaitsCounted w) (h : Endless (Application.act env) WindsDown w f g) :
    ∃ m, ∀ n, m ≤ n → ¬ OfJob (f n) (g n) := by
  refine finitely_many weight_wf weightOf WaitsCounted ?_ ?_ ?_ hw h
  · exact fun _ _ _ hw _ hs => waitsCounted_moved hw (act_iff.mp hs)
  · exact fun _ _ _ hok hjob hs => weight_kept hok hjob (act_iff.mp hs)
  · exact fun _ _ _ hw hok hjob hs => weight_moved hw hok hjob (act_iff.mp hs)

/--
**The application comes to rest.** Take any run from any state it reaches, with time passing
and accounts edited and processes booted as they may: if from some step on nothing new is
scheduled and no match is found in play, there is an end of the steps of jobs. Where these can
go no further, every job has returned or been discarded.
-/
theorem application_rests {ok : Application → Application.Act → Prop} {w : Application}
    (h : Reachable (Application.act env) ok Application.Init w) :
    (∀ f g, Endless (Application.act env) always w f g →
      (∃ m, ∀ n, m ≤ n → WindsDown (f n) (g n)) → ∃ m, ∀ n, m ≤ n → ¬ OfJob (f n) (g n))
      ∧ ∀ w', Lib.Path (Application.act env) always w w' →
        (AtRest (Application.act env) WindsDown OfJob w' ↔ Quiescent w') := by
  refine ⟨?_, fun _ _ => atRest_iff⟩
  rintro f g hrun ⟨m, hm⟩
  have hreached := (h.mono (fun _ _ _ => trivial)).later (hrun.path m)
  obtain ⟨k, hk⟩ := jobs_end (waitsCounted_reachable hreached) (hrun.drop hm)
  refine ⟨m + k, fun n hn => ?_⟩
  have hlast := hk (n - m) (by omega)
  rwa [Nat.add_sub_cancel' (by omega)] at hlast

/-- A tick in its first loop, and the monitor it has enqueued. -/
theorem application_rests_tick : ∃ w : Application, w.monitors.map Job.arg = [7]
    ∧ ∀ f g, Endless (Application.act oneAccount) always w f g →
      (∃ m, ∀ n, m ≤ n → WindsDown (f n) (g n)) → ∃ m, ∀ n, m ≤ n → ¬ OfJob (f n) (g n) := by
  obtain ⟨w, hw, harg⟩ := reachable_of_run (Application.act oneAccount) always
    firstNightAndTick (fun w => w.monitors.map Job.arg = [7]) init_boot (by decide +kernel)
  exact ⟨w, harg, (application_rests hw).1⟩

end BetterEfisis.Proof

import BetterEfisis.Proof.Feed
import BetterEfisis.Proof.Malformed
import BetterEfisis.Proof.Statements

/-!
# What the other systems see of the application

`World` has the two scheduled workers, and of `EventWorker` one step, the import of a
batch of new events. `Sessions` has the accounts and the logins. Both are the application
with part of its state covered up, and each step of it is one of theirs, or none.

For `World` this takes an invariant: a batch about to be imported was collected from an
answer, so its events are new ones.
-/

namespace BetterEfisis.Proof

open Lib Application

variable {env : Environment}

/-! ## The batches in hand -/

/-- A batch that was collected from some answer. -/
def Made (env : Environment) (b : Batch) : Prop :=
  ∃ ls, EventWorker.collect env.md5 env.parseDate (some ls) = .ok b

/-- Every run of `EventWorker` has its batch from an answer. -/
def BatchesMade (env : Environment) (w : Application) : Prop :=
  AllStand (fun _ pc => ∀ b, batchOf pc = some b → Made env b) w.imports

theorem collect_some {answers : Answers} {b : Batch}
    (h : EventWorker.collect env.md5 env.parseDate answers = .ok b) : Made env b := by
  obtain ⟨ls, hls, h⟩ := bind_eq_ok.mp h
  rw [notNil_eq_ok] at hls
  subst hls
  exact ⟨ls, h⟩

theorem batchesMade_moved {w w' : Application} {a : Application.Act} (h : BatchesMade env w)
    (hm : Moved env w a w') : BatchesMade env w' := by
  cases hm with
  | scheduledImport => exact h.enqueue [()]
  | startedImport => exact h.start (by simp [batchOf])
  | raisedImport => exact h.raise
  | imported hj hp =>
      refine h.settle ?_
      intro q hq b hb
      rcases step_batch hq hb with hold | hmade
      · exact h.here hj hp b hold
      · exact collect_some hmade
  | _ => exact h

theorem batchesMade_reachable {ok : Application → Application.Act → Prop} {w : Application}
    (h : Reachable (Application.act env) ok Application.Init w) : BatchesMade env w := by
  refine h.invariant ?_ ?_
  · intro w hw
    obtain ⟨now, rfl⟩ := hw
    exact allStand_nil
  · intro w a w' hw _ hs
    exact batchesMade_moved hw (act_iff.mp hs)

/-- The events collected are new ones. -/
theorem isNew_of_made {b : Batch} (h : Made env b) : ∀ e ∈ b.events, World.isNew e := by
  obtain ⟨ls, h⟩ := h
  intro e he
  rw [collect_eventRows h, List.mem_flatMap] at he
  obtain ⟨l, _, he⟩ := he
  unfold eventRows at he
  split at he
  · rename_i row hv hrow
    cases List.mem_singleton.mp he
    obtain ⟨d, _, hrow⟩ := bind_eq_ok.mp hrow
    cases hrow
    exact ⟨rfl, rfl⟩
  · exact absurd he (by simp)

/-! ## `World` -/

/-- The store without the tables the two scheduled workers never use. -/
def scheduledStore (s : Store) : Store :=
  { s with accounts := [], markets := [], selections := [], books := [] }

/-- What `World` has of the application. -/
def toWorld (w : Application) : World :=
  ⟨scheduledStore w.store, w.now, w.ticks, w.monitors, w.refreshes.map Job.arg⟩

/-- `OddsWorker` neither reads nor writes these tables. -/
theorem odds_scheduled (now now' : Int) (s : Store) (pc : OddsWorker.Pc) :
    OddsWorker.step now now' (scheduledStore s) pc
      = { OddsWorker.step now now' s pc with
          store := scheduledStore (OddsWorker.step now now' s pc).store } := by
  cases pc with
  | load | save | refreshLoad | stampGet | stampRead | stampSet => rfl
  | monitor rows =>
      cases rows with
      | nil => rfl
      | cons e rows =>
          rw [OddsWorker.step, OddsWorker.step]
          split <;> rfl
  | refresh sc ids => cases ids <;> rfl
  | stampTest r t =>
      rw [OddsWorker.step, OddsWorker.step]
      split <;> rfl

/-- Nor does `MonitorWEBWorker`. -/
theorem monitor_scheduled (cfg : Config) (id : Int) (body : Body) (s : Store)
    (pc : MonitorWEBWorker.Pc) :
    MonitorWEBWorker.step cfg id body (scheduledStore s) pc
      = (scheduledStore (MonitorWEBWorker.step cfg id body s pc).1,
          (MonitorWEBWorker.step cfg id body s pc).2) := by
  have hrunners : (scheduledStore s).runners = s.runners := rfl
  have hevents : (scheduledStore s).events = s.events := rfl
  cases pc with
  | setKey | saveInPlay | delKey | saveEnded => rfl
  | waiting n =>
      by_cases hn : n = 200
      · simp only [MonitorWEBWorker.step, if_pos hn]
      · simp only [MonitorWEBWorker.step, if_neg hn]
        cases body <;> rfl
  | findHome t =>
      simp only [MonitorWEBWorker.step, hrunners]
      split
      · split <;> rfl
      · rfl
  | createHome | findAway | createAway =>
      simp only [MonitorWEBWorker.step, hrunners]
      split <;> rfl
  | loadInPlay | loadEnded =>
      simp only [MonitorWEBWorker.step, hevents]
      split <;> rfl
  | polling m sc =>
      cases body with
      | empty => rfl
      | json t =>
          simp only [MonitorWEBWorker.step]
          split <;> rfl
  | snapshot m sc t =>
      simp only [MonitorWEBWorker.step]
      split <;> rfl
  | importUpdates m us => cases us <;> rfl

/-- `EventWorker` writes a batch of events there, or nothing. -/
theorem import_scheduled {answers : Answers} {l : EventWorker.Logon} {ids : Nat → Nat}
    {s s' : Store} {pc : EventWorker.Pc} {o : Outcome EventWorker.Pc}
    (h : ImportStep env answers l ids s pc s' o) :
    scheduledStore s' = scheduledStore s
      ∨ ∃ b t, batchOf pc = some b ∧ Event.importRows s.events b.events = .ok t
          ∧ scheduledStore s' = { scheduledStore s with events := t } := by
  cases h with
  | raised | loggedIn _ | fetched _ | markets | selections => exact Or.inl rfl
  | events ht => exact Or.inr ⟨_, _, rfl, ht, rfl⟩

/-- `RefreshOddsWorker` writes nothing there. -/
theorem refresh_scheduled {l : EventWorker.Logon} {answer : Option (List Betfair.MarketBook)}
    {id : Int} {s s' : Store} {pc : RefreshOddsWorker.Pc} {o : Outcome RefreshOddsWorker.Pc}
    (h : RefreshStep env l answer id s pc s' o) : scheduledStore s' = scheduledStore s := by
  cases h <;> rfl

/-- No stamp is set by a process that boots. -/
def KeepsStamps (_ : Application) (a : Application.Act) : Prop := ∀ b, a ≠ .resetStamp b

/-- One step of the application is a run of `World`: of no step, of one, or of two. -/
theorem world_moved {w w' : Application} {a : Application.Act} (hmade : BatchesMade env w)
    (hkeeps : KeepsStamps w a) (hm : Moved env w a w') :
    Lib.Path (World.act env.toConfig) always (toWorld w) (toWorld w') := by
  -- a step of the same kind on the same job
  have one : ∀ {b : World.Act}, World.act env.toConfig (toWorld w) b = some (toWorld w') →
      Lib.Path (World.act env.toConfig) always (toWorld w) (toWorld w') :=
    fun h => Lib.Path.one trivial h
  -- the clock moves on, and nothing else that `World` has
  have waits : ∀ d : Nat, toWorld w' = { toWorld w with now := w.now + d } →
      Lib.Path (World.act env.toConfig) always (toWorld w) (toWorld w') := by
    intro d h
    rw [h]
    exact Lib.Path.one (a := World.Act.advance d) trivial rfl
  cases hm with
  | @advanced d => exact waits d rfl
  | created | edited _ | booted | scheduledImport | startedImport | raisedImport _ _ =>
      exact Lib.Path.refl _
  | stampReset _ => exact absurd rfl (hkeeps _)
  | scheduledTick => exact one (b := .schedule) rfl
  | @startedTick i job hj hlive hno =>
      refine one (b := .startTick i) ?_
      have hj' : (toWorld w).ticks[i]? = some job := hj
      simp only [World.act, hj', Job.start_of_live hlive hno]
      rfl
  | @startedMonitor j job hj hlive hno =>
      refine one (b := .startMonitor j) ?_
      have hj' : (toWorld w).monitors[j]? = some job := hj
      simp only [World.act, hj', Job.start_of_live hlive hno]
      rfl
  | @raisedTick i job pc hj hp =>
      refine one (b := .raiseTick i) ?_
      have hj' : (toWorld w).ticks[i]? = some job := hj
      simp only [World.act, hj', hp]
      rfl
  | @raisedMonitor j job pc hj hp =>
      refine one (b := .raiseMonitor j) ?_
      have hj' : (toWorld w).monitors[j]? = some job := hj
      simp only [World.act, hj', hp]
      rfl
  | @ticked i d job pc hj hp =>
      refine one (b := .tick i d) ?_
      have hj' : (toWorld w).ticks[i]? = some job := hj
      have hstore : (toWorld w).store = scheduledStore w.store := rfl
      simp only [World.act, hj', hp, hstore, odds_scheduled]
      simp only [World.afterTick, toWorld, Application.afterTick, List.map_append,
        map_arg_enqueue]
  | @monitored j body job pc hj hp =>
      refine one (b := .monitor j body) ?_
      have hj' : (toWorld w).monitors[j]? = some job := hj
      have hstore : (toWorld w).store = scheduledStore w.store := rfl
      simp only [World.act, hj', hp, hstore, monitor_scheduled]
      rfl
  | @imported i x answers ids job pc hj hp =>
      -- the time of the login passes, and then the batch is imported, if it is one
      rcases import_scheduled (import_step env answers (x.logon w.now) ids w.store pc)
        with hsame | ⟨b, t, hb, ht, hstore⟩
      · refine waits x.total ?_
        simp only [toWorld, Application.afterImport, hsame]
      · have hnew : ∀ e ∈ b.events, World.isNew e := isNew_of_made (hmade.here hj hp b hb)
        let v : World := { toWorld w with now := w.now + x.total }
        have hv : Lib.Path (World.act env.toConfig) always (toWorld w) v :=
          Lib.Path.one (a := World.Act.advance x.total) trivial rfl
        refine hv.tail (a := World.Act.importEvents b.events) trivial ?_
        have ht' : Event.importRows v.store.events b.events = .ok t := ht
        simp only [World.act, if_pos hnew, ht', toWorld, Application.afterImport, hstore]
        rfl
  | @startedRefresh k job hj _ _ =>
      simp only [toWorld]
      rw [map_arg_set hj { job with phase := .running .login } rfl]
      exact Lib.Path.refl _
  | @raisedRefresh k job pc hj _ =>
      simp only [toWorld]
      rw [map_arg_set hj job.raise job.raise_arg]
      exact Lib.Path.refl _
  | @refreshed k x answer job pc hj hp =>
      refine waits x.total ?_
      have hstore := refresh_scheduled
        (refresh_step env (x.logon w.now) answer job.arg w.store pc)
      simp only [toWorld, Application.afterRefresh, hstore]
      rw [map_arg_set hj _ (Job.settle_arg job _)]

/--
**The application refines `World`.** As long as no other process boots, every state of
the application is, for the two scheduled workers, one that `World` reaches; and what an
`EventWorker` run is about to import are new events.
-/
theorem application_refines_world {w : Application}
    (h : Reachable (Application.act env) KeepsStamps Application.Init w) :
    Reachable (World.act env.toConfig) always World.Init (toWorld w)
      ∧ AllStand (fun _ pc => ∀ b, batchOf pc = some b → ∀ e ∈ b.events, World.isNew e)
        w.imports := by
  have hsim : ∃ v, Reachable (World.act env.toConfig) always World.Init v ∧ v = toWorld w := by
    refine h.simulate (R := fun w v => v = toWorld w) ?_ ?_
    · intro w hw
      obtain ⟨now, rfl⟩ := hw
      exact ⟨_, ⟨now, rfl⟩, rfl⟩
    · intro w a w' v hreach hv hok hs
      subst hv
      exact ⟨_, world_moved (batchesMade_reachable hreach) hok (act_iff.mp hs), rfl⟩
  obtain ⟨v, hv, rfl⟩ := hsim
  exact ⟨hv, (batchesMade_reachable h).mono fun _ _ hmade b hb => isNew_of_made (hmade b hb)⟩

/-! ## `Sessions` -/

/-- What `Sessions` has of the application, which does not keep the tokens issued. -/
def Covers (w : Application) (v : Sessions) : Prop := v.accounts = w.store.accounts ∧ v.now = w.now

/-- A login of a worker is one of `Sessions`, or comes to nothing before it begins. -/
theorem covers_login {v : Sessions} {x : Waits} {t : List Account}
    (h : EventWorker.apiNew env.md5 env.same env.apiAccount (x.logon v.now) v.accounts = .ok t) :
    ∃ v', Lib.Path (Sessions.act env.same env.md5) always v v' ∧ v'.accounts = t
      ∧ v'.now = v.now + x.total := by
  obtain ⟨account, _, h⟩ := bind_eq_ok.mp h
  obtain ⟨username, _, h⟩ := bind_eq_ok.mp h
  obtain ⟨password, _, h⟩ := bind_eq_ok.mp h
  obtain ⟨⟨t', r⟩, hl, h⟩ := bind_eq_ok.mp h
  cases h
  let now := v.now + x.d + x.d' + x.d''
  let v' : Sessions := ⟨t, now, Sessions.received username password now r ++ v.issued⟩
  have hact : Sessions.act env.same env.md5 v (.login username password x.d x.d' x.d'' x.answer)
      = some v' := by
    have hl' : Betfair.login env.same env.md5 v.accounts username password (v.now + x.d)
        (v.now + x.d + x.d') (v.now + x.d + x.d' + x.d'') x.answer = .ok (t, r) := hl
    simp only [Sessions.act, hl', v', now]
  refine ⟨v', Lib.Path.one trivial hact, rfl, ?_⟩
  show v.now + x.d + x.d' + x.d'' = v.now + (x.d + x.d' + x.d'' : Nat)
  omega

theorem odds_accounts {now now' : Int} {s : Store} {pc : OddsWorker.Pc} {r : OddsWorker.Step}
    (h : OddsStep now now' s pc r) : r.store.accounts = s.accounts := by
  cases h <;> rfl

theorem monitor_accounts {cfg : Config} {id : Int} {body : Body} {s s' : Store}
    {pc : MonitorWEBWorker.Pc} {o : Outcome MonitorWEBWorker.Pc}
    (h : MonitorStep cfg id body s pc s' o) : s'.accounts = s.accounts := by
  cases h <;> rfl

/-- The accounts after a step of `EventWorker`: those a login left, or the same. -/
theorem import_accounts {answers : Answers} {l : EventWorker.Logon} {ids : Nat → Nat}
    {s s' : Store} {pc : EventWorker.Pc} {o : Outcome EventWorker.Pc}
    (h : ImportStep env answers l ids s pc s' o) :
    s'.accounts = s.accounts
      ∨ EventWorker.apiNew env.md5 env.same env.apiAccount l s.accounts = .ok s'.accounts := by
  cases h with
  | raised | fetched _ | events _ | markets | selections => exact Or.inl rfl
  | loggedIn ht => exact Or.inr ht

/-- And after one of `RefreshOddsWorker`. -/
theorem refresh_accounts {l : EventWorker.Logon} {answer : Option (List Betfair.MarketBook)}
    {id : Int} {s s' : Store} {pc : RefreshOddsWorker.Pc} {o : Outcome RefreshOddsWorker.Pc}
    (h : RefreshStep env l answer id s pc s' o) :
    s'.accounts = s.accounts
      ∨ EventWorker.apiNew env.md5 env.same env.apiAccount l s.accounts = .ok s'.accounts := by
  cases h with
  | raised | loaded _ | asked _ | skipped | parsed _ | parsedAll | imported => exact Or.inl rfl
  | loggedIn ht => exact Or.inr ht

/-- What a step of the application is to `Sessions`. -/
theorem sessions_moved {w w' : Application} {a : Application.Act} {v : Sessions}
    (hv : Covers w v) (hm : Moved env w a w') :
    ∃ v', Lib.Path (Sessions.act env.same env.md5) always v v' ∧ Covers w' v' := by
  obtain ⟨haccounts, hnow⟩ := hv
  -- the accounts stay, and time passes
  have waits : ∀ d : Nat, w'.store.accounts = w.store.accounts → w'.now = w.now + d →
      ∃ v', Lib.Path (Sessions.act env.same env.md5) always v v' ∧ Covers w' v' := by
    intro d ha hd
    refine ⟨{ v with now := v.now + d },
      Lib.Path.one (a := Sessions.Act.advance d) trivial rfl, ?_, ?_⟩
    · rw [ha]
      exact haccounts
    · rw [hd, ← hnow]
  have stays : w'.store.accounts = w.store.accounts → w'.now = w.now →
      ∃ v', Lib.Path (Sessions.act env.same env.md5) always v v' ∧ Covers w' v' :=
    fun ha hd => ⟨v, Lib.Path.refl v, haccounts.trans ha.symm, hnow.trans hd.symm⟩
  -- a login leaves `t`
  have login : ∀ (x : Waits) (t : List Account),
      EventWorker.apiNew env.md5 env.same env.apiAccount (x.logon w.now) w.store.accounts = .ok t →
      w'.store.accounts = t → w'.now = w.now + x.total →
      ∃ v', Lib.Path (Sessions.act env.same env.md5) always v v' ∧ Covers w' v' := by
    intro x t ht ha hd
    rw [← hnow, ← haccounts] at ht
    obtain ⟨v', hpath, hva, hvn⟩ := covers_login ht
    exact ⟨v', hpath, hva.trans ha.symm, by rw [hvn, hd, hnow]⟩
  cases hm with
  | @advanced d => exact waits d rfl rfl
  | @created username password service =>
      refine ⟨_, Lib.Path.one (a := Sessions.Act.create username password service) trivial rfl, ?_⟩
      exact ⟨by rw [haccounts], hnow⟩
  | @edited i username password service a ha =>
      let v' : Sessions := { v with
        accounts :=
          Account.save env.md5 v.accounts i (Sessions.edited a username password service) }
      have hact : Sessions.act env.same env.md5 v (.edit i username password service)
          = some v' := by
        have ha' : v.accounts[i]? = some a := by rw [haccounts, ha]
        simp only [Sessions.act, ha', v']
      exact ⟨v', Lib.Path.one trivial hact, by simp only [v', haccounts], hnow⟩
  | @ticked i d job pc hj hp =>
      exact waits d (odds_accounts (odds_step w.now (w.now + d) w.store pc)) rfl
  | @monitored j body job pc hj hp =>
      exact stays (monitor_accounts (monitor_step env.toConfig job.arg body w.store pc)) rfl
  | @imported i x answers ids job pc hj hp =>
      have hw := import_step env answers (x.logon w.now) ids w.store pc
      rcases import_accounts hw with hsame | ht
      · exact waits x.total hsame rfl
      · exact login x _ ht rfl rfl
  | @refreshed k x answer job pc hj hp =>
      have hw := refresh_step env (x.logon w.now) answer job.arg w.store pc
      rcases refresh_accounts hw with hsame | ht
      · exact waits x.total hsame rfl
      · exact login x _ ht rfl rfl
  | booted | stampReset _ | scheduledTick | startedTick _ _ _ | raisedTick _ _
  | startedMonitor _ _ _ | raisedMonitor _ _ | scheduledImport | startedImport _ _ _
  | raisedImport _ _ | startedRefresh _ _ _ | raisedRefresh _ _ => exact stays rfl rfl

/--
**The application refines `Sessions`.** Whatever else goes on, its accounts and its clock
are those of a run in which accounts are created and edited and logins come in.
-/
theorem application_refines_sessions {ok : Application → Application.Act → Prop}
    {w : Application} (h : Reachable (Application.act env) ok Application.Init w) :
    ∃ issued, Reachable (Sessions.act env.same env.md5) always Sessions.Init
      ⟨w.store.accounts, w.now, issued⟩ := by
  have hsim : ∃ v, Reachable (Sessions.act env.same env.md5) always Sessions.Init v
      ∧ Covers w v := by
    refine h.simulate ?_ ?_
    · intro w hw
      obtain ⟨now, rfl⟩ := hw
      exact ⟨⟨[], now, []⟩, ⟨rfl, rfl⟩, rfl, rfl⟩
    · intro w a w' v _ hv _ hs
      exact sessions_moved hv (act_iff.mp hs)
  obtain ⟨⟨accounts, now, issued⟩, hv, hacc, hnow⟩ := hsim
  have hacc : accounts = w.store.accounts := hacc
  have hnow : now = w.now := hnow
  subst hacc hnow
  exact ⟨issued, hv⟩

/-! ## A run of all of it -/

instance (w : Application) (a : Application.Act) : Decidable (KeepsStamps w a) :=
  match a with
  | .resetStamp b => .isFalse (fun h => h b rfl)
  | .advance _ | .createAccount _ _ _ | .editAccount _ _ _ _ | .boot | .scheduleTick
  | .startTick _ | .tick _ _ | .raiseTick _ | .startMonitor _ | .monitor _ _ | .raiseMonitor _
  | .scheduleImport | .startImport _ | .import_ _ _ _ _ | .raiseImport _ | .startRefresh _
  | .refresh _ _ _ | .raiseRefresh _ => .isTrue (fun _ h => nomatch h)

/-- One account, no digest to speak of, and every date the same. -/
def oneAccount : Environment where
  collation := .binary
  updateMethod := .persistence
  md5 := id
  parseDate := fun _ => some 100
  apiAccount := List.head?

/-- A match with one market of one runner. -/
def oneListed : List Listed :=
  [⟨⟨"7", some "Home v Away", some "PT", some "2014-03-30", some 1⟩,
    some [⟨"1.1", some "Match Odds", none, some [⟨some 5, some "Home", none⟩]⟩]⟩]

/-- The account, a login, an import, and the first loop of a tick. -/
def firstNightAndTick : List Application.Act :=
  [.createAccount (some "ana") (some "secret") (some "betfair"), .scheduleImport, .startImport 0,
    .import_ 0 ⟨1, 1, 1, some "token"⟩ none id, .import_ 0 ⟨0, 0, 0, none⟩ (some oneListed) id,
    .import_ 0 ⟨0, 0, 0, none⟩ none id, .import_ 0 ⟨0, 0, 0, none⟩ none id,
    .import_ 0 ⟨0, 0, 0, none⟩ none id, .scheduleTick, .startTick 0, .tick 0 1, .tick 0 1,
    .tick 0 1, .startMonitor 0]

theorem application_refines_world_tick : ∃ w : Application, w.monitors.map Job.arg = [7]
    ∧ Reachable (World.act oneAccount.toConfig) always World.Init (toWorld w) := by
  obtain ⟨w, hw, harg⟩ := reachable_of_run (Application.act oneAccount) KeepsStamps
    firstNightAndTick (fun w => w.monitors.map Job.arg = [7]) init_boot
    (by decide +kernel)
  exact ⟨w, harg, (application_refines_world hw).1⟩

theorem application_refines_sessions_login : ∃ w : Application,
    w.store.accounts.map Account.ssoid = [some "token"] ∧ ∃ issued,
      Reachable (Sessions.act Collation.binary.same id) always Sessions.Init
        ⟨w.store.accounts, w.now, issued⟩ := by
  obtain ⟨w, hw, hsso⟩ := reachable_of_run (Application.act oneAccount) KeepsStamps
    firstNightAndTick (fun w => w.store.accounts.map Account.ssoid = [some "token"]) init_boot
    (by decide +kernel)
  exact ⟨w, hsso, application_refines_sessions hw⟩

end BetterEfisis.Proof

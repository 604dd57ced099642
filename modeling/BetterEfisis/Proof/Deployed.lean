import BetterEfisis.Proof.Client
import BetterEfisis.Proof.Cached
import BetterEfisis.Proof.Projection

/-!
# The application with its Redis at the server

Every statement of the workers that calls on `$redis` is a command the server serves, while
its cron does what it does, and while other clients, the queues of Sidekiq for one, have
their own keys there (`LeavesOwn`). The application keeps its map as well, so that the two
can be compared: they agree in every state on the keys of the application, no call is
refused, and every reply is what the map says (`deployed_agrees`). What is proved of the map
is so proved of the server.
-/

namespace BetterEfisis.Redis

open Lib (Reachable always runningAt live bytes)

/--
What a statement of `OddsWorker` calls on `$redis`. The jobs it enqueues go to Sidekiq's own
keys, which is a step of another client here.
-/
def oddsCall : OddsWorker.Pc → Option WorkerCall
  | .stampGet r => some (.get r.key)
  | .stampSet r stamp => some (.set r.key (.int stamp))
  | _ => none

/-- What a statement of the monitor of event `id` calls. -/
def monitorCall (id : Int) : MonitorWEBWorker.Pc → Option WorkerCall
  | .setKey _ => some (.set (redisKey id) .blank)
  | .snapshot m sc t => some (.set (redisKey id) (.json (MonitorWEBWorker.encode id m sc t)))
  | .delKey _ _ => some (.del (redisKey id))
  | _ => none

/-- What the next step of the application calls. The other two workers call nothing. -/
def called (w : Application) : Application.Act → Option WorkerCall
  | .resetStamp b =>
      match w.boots[b]? with
      | some (r :: _) => some (.set r.key (.int 0))
      | _ => none
  | .tick i _ => (runningAt w.ticks i).bind fun x => oddsCall x.2
  | .monitor j _ => (runningAt w.monitors j).bind fun x => monitorCall x.1.arg x.2
  | _ => none

/-- The application and the server. -/
structure Deployed (π : Type) where
  app : Application
  server : Server π

namespace Deployed

inductive Act (π : Type) where
  | app (a : Application.Act) (ticks : List Nat)
  | cron (e : ServerEvent) (hcron : ∀ c, e ≠ .command c) (ticks : List Nat)
  /-- Another client has been served, and left the server as it is said. -/
  | others (s' : Server π)

variable {π : Type}

/-- What other clients do leaves the keys of the application alone. -/
def LeavesOwn (hash : Sds → UInt32) (s s' : Server π) : Prop :=
  ∀ σ, Keeps hash s σ 0 → s.now ≤ s'.now ∧ ∃ σ', Keeps hash s' σ' 0 ∧
    ∀ k, OwnKey k → live (s'.now : Int) σ' k = live (s'.now : Int) σ k

/-- Any step of the application and the cron, and of others what leaves its keys alone. -/
def Bystanding (hash : Sds → UInt32) (x : Deployed π) : Act π → Prop
  | .others s' => LeavesOwn hash x.server s'
  | .app _ _ | .cron _ _ _ => True

def act (env : Environment) (hash : Sds → UInt32) (write : RedisValue → Sds) (x : Deployed π) :
    Act π → Option (Deployed π)
  | .app a ticks => do
      let w ← Application.act env x.app a
      match called x.app a with
      | none => some { x with app := w }
      | some c => do
          let (_, s) ← serverStep hash x.server ticks (.command (c.command write))
          some ⟨w, s⟩
  | .cron e _ ticks => do
      let (_, s) ← serverStep hash x.server ticks e
      some { x with server := s }
  | .others s' => some { x with server := s' }

/-- The server keeps the map of the application, and no key of it has a deadline. -/
def Agrees (hash : Sds → UInt32) (write : RedisValue → Sds) (x : Deployed π) : Prop :=
  ∃ σ, Keeps hash x.server σ 0 ∧ Mirrors write OwnKey (live (x.server.now : Int) σ) x.app.store

/-- The application has booted, and the server has the stamps of its initializer. -/
def Init (hash : Sds → UInt32) (write : RedisValue → Sds) (x : Deployed π) : Prop :=
  Application.Init x.app ∧ Agrees hash write x

end Deployed

variable {π : Type} {env : Environment} {hash : Sds → UInt32} {write : RedisValue → Sds}
  {x x' : Deployed π}

/-! ## What a step does to the map -/

theorem odds_called (now now' : Int) (s : Store) (pc : OddsWorker.Pc) :
    (OddsWorker.step now now' s pc).store.redis =
      ((oddsCall pc).elim s fun c => c.after s).redis := by
  have h := Proof.odds_step now now' s pc
  generalize OddsWorker.step now now' s pc = r at h
  cases h with
  | _ => rfl

/-- A statement that calls nothing. -/
theorem monitor_uncalled {cfg : Config} {id : Int} {body : Body} {s s' : Store}
    {pc : MonitorWEBWorker.Pc} {o : Lib.Outcome MonitorWEBWorker.Pc}
    (h : Proof.MonitorStep cfg id body s pc s' o) (hc : monitorCall id pc = none) :
    s'.redis = s.redis := by
  cases h with
  | keySet | cached _ | cachedLast _ | keyDeleted => cases hc
  | _ => rfl

theorem monitor_called (cfg : Config) (id : Int) (body : Body) (s : Store)
    (pc : MonitorWEBWorker.Pc) :
    (MonitorWEBWorker.step cfg id body s pc).1.redis =
      ((monitorCall id pc).elim s fun c => c.after s).redis := by
  cases hc : monitorCall id pc with
  | none => exact monitor_uncalled (Proof.monitor_step cfg id body s pc) hc
  | some c =>
      cases pc with
      | setKey _ | snapshot _ _ _ | delKey _ _ =>
          cases hc
          rfl
      | _ => cases hc

/-- **The call is all a step does to the map.** -/
theorem act_called {w w' : Application} {a : Application.Act}
    (h : Application.act env w a = some w') :
    w'.store.redis = ((called w a).elim w.store fun c => c.after w.store).redis := by
  cases Application.act_iff.mp h with
  | stampReset hb =>
      rw [called, hb]
      rfl
  | ticked hj hp =>
      rw [called, Lib.runningAt_iff.mpr ⟨hj, hp⟩]
      exact odds_called ..
  | monitored hj hp =>
      rw [called, Lib.runningAt_iff.mpr ⟨hj, hp⟩]
      exact monitor_called ..
  | imported _ _ => exact Proof.import_redis (Proof.import_step ..)
  | refreshed _ _ => exact Proof.refresh_redis (Proof.refresh_step ..)
  | _ => rfl

theorem monitorKey_own (id : Int) : OwnKey (bytes (redisKey id)) := by
  have hmatch := (keys_iff _ (redisKey id) rfl).mpr (Proof.isMonitorKey_redisKey id)
  rw [keyMatches_monitor, Option.some_inj, decide_eq_true_iff] at hmatch
  exact ownKey_monitor _ hmatch

theorem stampKey_own (r : OddsWorker.Range) : OwnKey (bytes r.key) :=
  Or.inl (List.mem_map.mpr ⟨r, by cases r <;> simp, rfl⟩)

/-- The calls are on keys of the application. -/
theorem called_own {w : Application} {a : Application.Act} {c : WorkerCall}
    (h : called w a = some c) : c.On OwnKey := by
  unfold called at h
  split at h
  · split at h
    · cases h
      exact stampKey_own _
    · cases h
  · obtain ⟨x, -, hx⟩ := Option.bind_eq_some_iff.mp h
    unfold oddsCall at hx
    split at hx <;> cases hx
    · exact stampKey_own _
    · exact stampKey_own _
  · obtain ⟨x, -, hx⟩ := Option.bind_eq_some_iff.mp h
    unfold monitorCall at hx
    split at hx <;> cases hx
    · exact monitorKey_own _
    · exact monitorKey_own _
    · exact monitorKey_own _
  · cases h

/-! ## What a step does to the server -/

theorem Mirrors.congr {own : Sds → Prop} {σ : Space π} {s s' : Store}
    (h : Mirrors write own σ s) (hredis : s'.redis = s.redis) : Mirrors write own σ s' :=
  ⟨fun key => by rw [hredis]; exact h.here key, h.only,
    fun key => by rw [hredis]; exact h.within key⟩

theorem call_served {s : Server π} {σ : Space π} {store : Store} (h : Keeps hash s σ 0)
    (hm : Mirrors write OwnKey (live (s.now : Int) σ) store) {c : WorkerCall} (hc : c.On OwnKey)
    (ticks : List Nat) :
    ∃ r s' σ', serverStep hash s ticks (.command (c.command write)) = some (some r, s') ∧
      Keeps hash s' σ' 0 ∧ c.Tells write store r ∧
      Mirrors write OwnKey (live (s'.now : Int) σ') (c.after store) := by
  have hfit : Fitting s (.command (c.command write)) :=
    (fits_workers hash s [(ticks, .call c)]).1
  obtain ⟨r, s', σ', σ'', hcall, h', hle, hanswers, hpurged⟩ :=
    call_answers (keeps_ticks h ticks) (c.command write) (by cases c <;> exact hfit)
  obtain ⟨htells, hm'⟩ :=
    answers_tells ownKey_monitor hm (Int.ofNat_le.mpr hle) hc hanswers
  exact ⟨r, s', σ'', by simp [serverStep, hcall], h', htells,
    hm'.sheds (Sheds.of_purged hpurged)⟩

theorem cron_served {s : Server π} {σ : Space π} {store : Store} (h : Keeps hash s σ 0)
    (hm : Mirrors write OwnKey (live (s.now : Int) σ) store) {e : ServerEvent}
    (hcron : ∀ c, e ≠ .command c) (ticks : List Nat) :
    ∃ s' σ', serverStep hash s ticks e = some (none, s') ∧ Keeps hash s' σ' 0 ∧
      Mirrors write OwnKey (live (s'.now : Int) σ') store := by
  obtain ⟨s', σ', hstep, h', hle, hσ⟩ := cron_spec h ticks hcron
  exact ⟨s', σ', hstep, h', (hm.later (Int.ofNat_le.mpr hle)).sheds hσ⟩

/-! ## Runs -/

namespace Deployed

/-- **A step of the application** is served, and the reply is what the map says. -/
theorem app_served (h : Agrees hash write x) {a : Application.Act} {w : Application}
    (hw : Application.act env x.app a = some w) (ticks : List Nat) :
    ∃ x', act env hash write x (.app a ticks) = some x' ∧ x'.app = w ∧ Agrees hash write x' ∧
      ∀ c, called x.app a = some c → ∃ r s',
        serverStep hash x.server ticks (.command (c.command write)) = some (some r, s') ∧
        c.Tells write x.app.store r := by
  obtain ⟨σ, hkeeps, hm⟩ := h
  have hredis := act_called hw
  cases hc : called x.app a with
  | none =>
      rw [hc] at hredis
      exact ⟨{ x with app := w }, by simp [act, hw, hc], rfl, ⟨σ, hkeeps, hm.congr hredis⟩,
        fun c hno => absurd hno (by simp)⟩
  | some c =>
      rw [hc] at hredis
      obtain ⟨r, s', σ', hstep, h', htells, hm'⟩ := call_served hkeeps hm (called_own hc) ticks
      refine ⟨⟨w, s'⟩, by simp [act, hw, hc, hstep], rfl, ⟨σ', h', hm'.congr hredis⟩, ?_⟩
      intro c' hcc
      cases hcc
      exact ⟨r, s', hstep, htells⟩

theorem agrees_step {a : Act π} (h : Agrees hash write x) (hok : Bystanding hash x a)
    (hs : act env hash write x a = some x') : Agrees hash write x' := by
  cases a with
  | app a ticks =>
      obtain ⟨w, hw, -⟩ := Option.bind_eq_some_iff.mp hs
      obtain ⟨x'', hx, -, hagrees, -⟩ := app_served h hw ticks
      rw [hx] at hs
      cases hs
      exact hagrees
  | cron e hcron ticks =>
      obtain ⟨σ, hkeeps, hm⟩ := h
      obtain ⟨s', σ', hstep, h', hm'⟩ := cron_served hkeeps hm hcron ticks
      simp only [act, hstep, Option.bind_eq_bind, Option.bind_some] at hs
      cases hs
      exact ⟨σ', h', hm'⟩
  | others s' =>
      obtain ⟨σ, hkeeps, hm⟩ := h
      obtain ⟨hle, σ', h', hown⟩ := hok σ hkeeps
      cases hs
      exact ⟨σ', h', (hm.later (Int.ofNat_le.mpr hle)).same hown⟩

theorem agrees_reachable
    (h : Reachable (act env hash write) (Bystanding hash) (Init hash write) x) :
    Agrees hash write x :=
  h.invariant (fun _ hinit => hinit.2) fun _ _ _ hagrees hok hs => agrees_step hagrees hok hs

/-- A step is one of the application, or leaves the application as it was. -/
theorem app_step {a : Act π} (hs : act env hash write x a = some x') :
    Lib.Path (Application.act env) always x.app x'.app := by
  cases a with
  | app a ticks =>
      obtain ⟨w, hw, hs⟩ := Option.bind_eq_some_iff.mp hs
      have happ : x'.app = w := by
        cases hc : called x.app a with
        | none =>
            simp only [hc] at hs
            cases hs
            rfl
        | some c =>
            simp only [hc] at hs
            obtain ⟨⟨_, s⟩, -, hs⟩ := Option.bind_eq_some_iff.mp hs
            cases hs
            rfl
      rw [happ]
      exact Lib.Path.one trivial hw
  | cron e hcron ticks =>
      obtain ⟨⟨_, s⟩, -, hs⟩ := Option.bind_eq_some_iff.mp hs
      cases hs
      exact Lib.Path.refl _
  | others s' =>
      cases hs
      exact Lib.Path.refl _

/--
**The server is the map of the application.** Whatever the jobs do and the cron of the
server does, in any order, and whatever others do with keys of their own: the application is
where it would be with its map alone, the server keeps that map, no step is refused, and each
reply is what the map says.
-/
theorem deployed_agrees
    (h : Reachable (act env hash write) (Bystanding hash) (Init hash write) x) :
    Reachable (Application.act env) always Application.Init x.app ∧ Agrees hash write x ∧
      ∀ a w, Application.act env x.app a = some w → ∀ ticks,
        ∃ x', act env hash write x (.app a ticks) = some x' ∧ x'.app = w ∧
          ∀ c, called x.app a = some c → ∃ r s',
            serverStep hash x.server ticks (.command (c.command write)) = some (some r, s') ∧
            c.Tells write x.app.store r := by
  have hagrees := agrees_reachable h
  have happ : ∃ w, Reachable (Application.act env) always Application.Init w ∧ w = x.app := by
    refine h.simulate (R := fun x w => w = x.app) ?_ ?_
    · intro x hx
      exact ⟨x.app, hx.1, rfl⟩
    · intro x a x' w _ hw _ hs
      subst hw
      exact ⟨x'.app, app_step hs, rfl⟩
  obtain ⟨w, hw, rfl⟩ := happ
  refine ⟨hw, hagrees, fun a w ha ticks => ?_⟩
  obtain ⟨x', hx, hw', -, hreplies⟩ := app_served hagrees ha ticks
  exact ⟨x', hx, hw', hreplies⟩

/-! ## Others -/

/-- A value that another client sets under a key of its own. -/
theorem leavesOwn_set {s s' : Server π} {key val : Sds} {opts : List Sds} {ticks : List Nat}
    {r : Option Reply} (hkey : ¬ OwnKey key)
    (hstep : serverStep hash s ticks (.command (.set key val opts)) = some (r, s')) :
    LeavesOwn hash s s' := by
  intro σ h
  obtain ⟨r', s'', σ', σ'', hcall, h', hle, hanswers, hpurged⟩ :=
    call_answers (keeps_ticks h ticks) (.set key val opts) trivial
  have hs : s' = s'' := by
    simp only [serverStep, hcall, Option.bind_eq_bind, Option.bind_some] at hstep
    cases hstep
    rfl
  subst hs
  refine ⟨hle, σ'', h', fun k hk => ?_⟩
  have hne : k ≠ key := fun he => hkey (he ▸ hk)
  rw [hpurged.live le_rfl]
  simp only [Answers] at hanswers
  split at hanswers
  · rw [hanswers.2]
  · unfold SetAnswers at hanswers
    split at hanswers
    · rw [hanswers.2]
    · obtain ⟨-, hσ, -⟩ | ⟨-, -, -, hσ⟩ := hanswers
      · rw [hσ]
      · rw [hσ, written, Lib.live_update_of_ne hne]

/-! ## A tick that asks for a stamp -/

/-- The server when the initializer has run. Sidekiq has its list there. -/
def stampedServer : Server Unit :=
  ((serverRun byLength queuedServer
    [([], .command (.set (bytes "soon") (plainText (.int 0)) [])),
      ([], .command (.set (bytes "later") (plainText (.int 0)) [])),
      ([], .command (.set (bytes "tomorow") (plainText (.int 0)) [])),
      ([], .command (.set (bytes "someday") (plainText (.int 0)) []))]).map Prod.snd).getD
    queuedServer

theorem init_stampedServer : Init byLength plainText ⟨Application.boot, stampedServer⟩ := by
  refine ⟨Application.init_boot, ?_⟩
  have hkeys : ∀ k ∈ queuedServer.dict.entries.keys, ¬ OwnKey k := by decide +kernel
  have h0 := mirrors_blankStore keeps_queuedServer hkeys plainText (queuedServer.now : Int)
  have served := fun {s : Server Unit} {σ : Space Unit} {store : Store} (h : Keeps byLength s σ 0)
    (hm : Mirrors plainText OwnKey (live (s.now : Int) σ) store) (r : OddsWorker.Range) =>
    call_served h hm (show (WorkerCall.set r.key (.int 0)).On OwnKey from stampKey_own r) []
  obtain ⟨r1, s1, σ1, h1, k1, -, m1⟩ := served keeps_queuedServer h0 .soon
  obtain ⟨r2, s2, σ2, h2, k2, -, m2⟩ := served k1 m1 .later
  obtain ⟨r3, s3, σ3, h3, k3, -, m3⟩ := served k2 m2 .tomorow
  obtain ⟨r4, s4, σ4, h4, k4, -, m4⟩ := served k3 m3 .someday
  have hs : stampedServer = s4 := by
    simp only [WorkerCall.command, OddsWorker.Range.key] at h1 h2 h3 h4
    simp [stampedServer, serverRun, h1, h2, h3, h4]
  refine ⟨σ4, hs ▸ k4, hs ▸ m4.congr ?_⟩
  funext k
  simp only [WorkerCall.after, Store.redisSet, blankStore, Application.boot, Store.boot,
    OddsWorker.Range.key]
  grind

/-- There are no events, so the tick soon comes to the first stamp. -/
def toFirstStamp : List (Act Unit) :=
  [.app .scheduleTick [], .app (.startTick 0) [], .app (.tick 0 1) [], .app (.tick 0 1) [],
    .cron (.activeExpire 1) (activeExpire_cron 1) [3], .app (.tick 0 1) [], .app (.tick 0 1) []]

/-- The steps of the application and the cron. -/
def Act.isOwn : Act Unit → Bool
  | .app _ _ | .cron _ _ _ => true
  | .others _ => false

/-- Before the stamp is asked for, another client sets a value of its own. -/
theorem deployed_agrees_firstStamp : ∃ x : Deployed Unit, ∃ r s' s'',
    serverStep byLength x.server [2] (.command (.set (bytes "queues") [49] [])) =
      some (some .ok, s') ∧
    serverStep byLength s' [] (.command (.get (bytes "soon"))) = some (some r, s'') ∧
    r = .bulk [48] := by
  obtain ⟨x, hx, ⟨hcalled, hget, happ⟩, hset⟩ := Lib.reachable_of_run
    (act Proof.oneAccount byLength plainText) (fun _ a => a.isOwn = true) toFirstStamp
    (fun x => (called x.app (.tick 0 1) = some (.get "soon") ∧
      x.app.store.redis "soon" = some (.int 0) ∧
      (Application.act Proof.oneAccount x.app (.tick 0 1)).isSome = true) ∧
      (serverStep byLength x.server [2] (.command (.set (bytes "queues") [49] []))).map Prod.fst =
        some (some .ok))
    init_stampedServer (by decide +kernel)
  obtain ⟨w, hw⟩ := Option.isSome_iff_exists.mp happ
  obtain ⟨⟨r, s'⟩, hstep, hr⟩ := Option.map_eq_some_iff.mp hset
  cases hr
  -- the value is set, and the application goes on
  have hx' : Reachable (act Proof.oneAccount byLength plainText) (Bystanding byLength)
      (Init byLength plainText) ⟨x.app, s'⟩ := by
    have hown : Reachable (act Proof.oneAccount byLength plainText) (Bystanding byLength)
        (Init byLength plainText) x := hx.mono fun y a ha => by
      cases a with
      | app _ _ | cron _ _ _ => trivial
      | others _ => exact absurd ha (by simp [Act.isOwn])
    have hleaves : LeavesOwn byLength x.server s' := leavesOwn_set (by decide +kernel) hstep
    exact hown.later (Lib.Path.one (a := .others s') hleaves rfl)
  obtain ⟨-, -, hserved⟩ := deployed_agrees hx'
  obtain ⟨x'', -, -, hreplies⟩ := hserved _ w hw []
  obtain ⟨r, s'', hstep', htells⟩ := hreplies _ hcalled
  rw [WorkerCall.Tells, hget] at htells
  exact ⟨x, r, s', s'', hstep, hstep', htells⟩

end Deployed

end BetterEfisis.Redis

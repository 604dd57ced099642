import BetterEfisis.Proof.References
import BetterEfisis.Proof.Throttle
import Mathlib

/-!
# What is cached

The application has two kinds of keys in Redis, and no third: the four stamps of
`OddsWorker`, and the keys of the events that are or were watched. A stamp is a number that
is no time to come. Under the key of an event is the empty text or a snapshot of that very
event, and the runners that a snapshot names by their ids are stored under the names it
gives them. What Sidekiq keeps in the same database is not the application's.
-/

namespace BetterEfisis.Proof

open Lib Application

variable {env : Environment}

/-! ## The keys -/

theorem redisKey_injective : Function.Injective redisKey := by
  intro id id' h
  unfold redisKey at h
  have hlists := congrArg String.toList h
  rw [String.toList_append, String.toList_append] at hlists
  exact Int.repr_inj.mp (String.toList_inj.mp (List.append_cancel_left hlists))

/-! ## What the values say -/

/-- The runner, if any, is stored under the name, upper and lower case aside. -/
def RunnerNamed (s : Store) (name : Option String) (r : Option Nat) : Prop :=
  ∀ i, r = some i → ∃ row ∈ s.runners, row.id = i ∧ some (downcase row.name) = name.map downcase

theorem RunnerNamed.mono {s s' : Store} {name : Option String} {r : Option Nat}
    (h : RunnerNamed s name r) (hr : s.runners <+: s'.runners) : RunnerNamed s' name r := by
  intro i hi
  obtain ⟨row, hrow, hid⟩ := h i hi
  exact ⟨row, hr.subset hrow, hid⟩

theorem runnerNamed_found {c : Collation} {s : Store} {name : Option String} {r : Runner}
    (h : Runner.findBy c s.runners name = some r) : RunnerNamed s name (some r.id) := by
  obtain ⟨n, rfl, hmem, hsame⟩ := Runner.findBy_some h
  intro i hi
  cases hi
  refine ⟨r, hmem, rfl, ?_⟩
  cases c with
  | binary =>
      have hname : r.name = n := of_decide_eq_true hsame
      rw [hname]
      rfl
  | ignoreCase =>
      have hname : downcase r.name = downcase n := of_decide_eq_true hsame
      rw [hname]
      rfl

theorem runnerNamed_created {s : Store} {t : List Runner} {name : Option String} {r : Option Nat}
    (h : Runner.create s.runners name = .ok (t, r)) :
    RunnerNamed { s with runners := t } name r := by
  intro i hi
  unfold Runner.create at h
  split at h
  · exact absurd h (by simp)
  · split at h
    · cases h
      exact absurd hi (by simp)
    · rename_i n _
      cases h
      cases hi
      refine ⟨⟨s.runners.length + 1, downcase n⟩, List.mem_append_right _ (by simp), rfl, ?_⟩
      rw [downcase_downcase]
      rfl

/-- The snapshot is one of event `id`, and right about the ids of its runners. -/
structure SnapshotOf (s : Store) (id : Int) (sn : Snapshot) : Prop where
  id : sn.id = id
  home : RunnerNamed s sn.homeName sn.runnerHome
  away : RunnerNamed s sn.awayName sn.runnerAway

/-- A value that a monitor of event `id` stores. -/
def IsCache (s : Store) (id : Int) : RedisValue → Prop
  | .blank => True
  | .int _ => False
  | .json sn => SnapshotOf s id sn

/-- A stamp that is no time to come; the initializer sets 0. -/
def IsStamp (now : Int) : RedisValue → Prop
  | .int n => n = 0 ∨ n ≤ now
  | .blank | .json _ => False

theorem IsCache.mono {s s' : Store} {id : Int} {v : RedisValue} (h : IsCache s id v)
    (hr : s.runners <+: s'.runners) : IsCache s' id v := by
  cases v with
  | blank => trivial
  | int n => exact h
  | json sn => exact ⟨h.id, h.home.mono hr, h.away.mono hr⟩

theorem IsStamp.mono {now now' : Int} {v : RedisValue} (h : IsStamp now v) (hle : now ≤ now') :
    IsStamp now' v := by
  cases v with
  | int n => exact h.imp_right (fun hn => by omega)
  | blank => exact h
  | json sn => exact h

/-! ## What the runs have in hand -/

/-- The names a monitor has read from the feed, each with the id it has found for it. -/
def namesOf : MonitorWEBWorker.Pc → List (Option String × Option Nat)
  | .findAway home _ r | .createAway home _ r => [(home, r)]
  | .loadInPlay m | .saveInPlay m _ | .polling m _ | .snapshot m _ _ | .delKey m _
  | .importUpdates m _ => [(m.homeName, m.runnerHome), (m.awayName, m.runnerAway)]
  | _ => []

/-- The ids are those of runners stored under these names. -/
def PcNamed (s : Store) (pc : MonitorWEBWorker.Pc) : Prop :=
  ∀ p ∈ namesOf pc, RunnerNamed s p.1 p.2

theorem pcNamed_match {s : Store} {m : MonitorWEBWorker.Match} :
    (∀ p ∈ [(m.homeName, m.runnerHome), (m.awayName, m.runnerAway)], RunnerNamed s p.1 p.2)
      ↔ RunnerNamed s m.homeName m.runnerHome ∧ RunnerNamed s m.awayName m.runnerAway := by
  simp

theorem PcNamed.mono {s s' : Store} {pc : MonitorWEBWorker.Pc} (h : PcNamed s pc)
    (hr : s.runners <+: s'.runners) : PcNamed s' pc := fun p hp => (h p hp).mono hr

theorem monitor_named {cfg : Config} {id : Int} {body : Body} {s s' : Store}
    {pc pc' : MonitorWEBWorker.Pc} (h : MonitorStep cfg id body s pc s' (.next pc'))
    (hr : s.runners <+: s'.runners) (hpc : PcNamed s pc) : PcNamed s' pc' := by
  have none : ∀ {q : MonitorWEBWorker.Pc}, namesOf q = [] → PcNamed s' q := by
    intro q hq p hp
    rw [hq] at hp
    exact absurd hp (by simp)
  cases h with
  | homeFound hf =>
      intro p hp
      cases List.mem_singleton.mp hp
      exact runnerNamed_found hf
  | homeCreated hc =>
      intro p hp
      cases List.mem_singleton.mp hp
      exact runnerNamed_created hc
  | awayFound hf =>
      exact pcNamed_match.mpr ⟨hpc _ List.mem_cons_self, runnerNamed_found hf⟩
  | awayCreated hc =>
      exact pcNamed_match.mpr ⟨(hpc _ List.mem_cons_self).mono hr, runnerNamed_created hc⟩
  | awayMissing | inPlayLoaded _ | inPlaySaved | polled _ | cached _ | cachedLast _
  | keyDeleted => exact hpc.mono hr
  | givenUp | waited _ | begun _ _ | keySet | homeMissing | updatesImported | endedLoaded _ =>
      exact none rfl

/-! ## What the workers do to Redis -/

theorem redisSet_cases {s : Store} {key k : String} {v v' : RedisValue}
    (h : (s.redisSet key v).redis k = some v') :
    (k = key ∧ v' = v) ∨ s.redis k = some v' := by
  unfold Store.redisSet at h
  dsimp only at h
  split at h
  · rename_i hk
    exact Or.inl ⟨hk, (Option.some.inj h).symm⟩
  · exact Or.inr h

theorem redisDel_cases {s : Store} {key k : String} {v : RedisValue}
    (h : (s.redisDel key).redis k = some v) : s.redis k = some v := by
  unfold Store.redisDel at h
  dsimp only at h
  split at h
  · exact absurd h (by simp)
  · exact h

/-- A monitor writes under the key of its event. -/
theorem monitor_redis {cfg : Config} {id : Int} {body : Body} {s s' : Store}
    {pc : MonitorWEBWorker.Pc} {o : Outcome MonitorWEBWorker.Pc}
    (h : MonitorStep cfg id body s pc s' o) (hpc : PcNamed s pc) {k : String} {v : RedisValue}
    (hk : s'.redis k = some v) : (k = redisKey id ∧ IsCache s' id v) ∨ s.redis k = some v := by
  cases h with
  | keySet =>
      rcases redisSet_cases hk with ⟨hkey, rfl⟩ | hold
      · exact Or.inl ⟨hkey, trivial⟩
      · exact Or.inr hold
  | cached _ | cachedLast _ =>
      rcases redisSet_cases hk with ⟨hkey, rfl⟩ | hold
      · obtain ⟨hh, ha⟩ := pcNamed_match.mp hpc
        exact Or.inl ⟨hkey, rfl, hh, ha⟩
      · exact Or.inr hold
  | keyDeleted => exact Or.inr (redisDel_cases hk)
  | _ => exact Or.inr hk

/-- `OddsWorker` writes the stamp it has taken. -/
theorem odds_redis {now now' : Int} {s : Store} {pc : OddsWorker.Pc} {r : OddsWorker.Step}
    (h : OddsStep now now' s pc r) {k : String} {v : RedisValue}
    (hk : r.store.redis k = some v) :
    (∃ rg n, pc = .stampSet rg n ∧ k = rg.key ∧ v = .int n) ∨ s.redis k = some v := by
  cases h with
  | stamped =>
      rcases redisSet_cases hk with ⟨hkey, rfl⟩ | hold
      · exact Or.inl ⟨_, _, rfl, hkey, rfl⟩
      · exact Or.inr hold
  | _ => exact Or.inr hk

/-- The other two write nothing there. -/
theorem import_redis {answers : Answers} {l : EventWorker.Logon} {ids : Nat → Nat}
    {s s' : Store} {pc : EventWorker.Pc} {o : Outcome EventWorker.Pc}
    (h : ImportStep env answers l ids s pc s' o) : s'.redis = s.redis := by
  cases h <;> rfl

theorem refresh_redis {l : EventWorker.Logon} {answer : Option (List Betfair.MarketBook)}
    {id : Int} {s s' : Store} {pc : RefreshOddsWorker.Pc} {o : Outcome RefreshOddsWorker.Pc}
    (h : RefreshStep env l answer id s pc s' o) : s'.redis = s.redis := by
  cases h <;> rfl

/-- The keys of the stamps are never deleted. -/
theorem redisSet_isSome {s : Store} {key k : String} {v : RedisValue}
    (h : (s.redis k).isSome = true) : ((s.redisSet key v).redis k).isSome = true := by
  unfold Store.redisSet
  dsimp only
  split
  · rfl
  · exact h

theorem monitor_stamp {cfg : Config} {id : Int} {body : Body} {s s' : Store}
    {pc : MonitorWEBWorker.Pc} {o : Outcome MonitorWEBWorker.Pc}
    (h : MonitorStep cfg id body s pc s' o) (r : OddsWorker.Range)
    (hr : (s.redis r.key).isSome = true) : (s'.redis r.key).isSome = true := by
  cases h with
  | keySet | cached _ | cachedLast _ => exact redisSet_isSome hr
  | keyDeleted =>
      unfold Store.redisDel
      dsimp only
      rw [if_neg (redisKey_ne id r).symm]
      exact hr
  | _ => exact hr

theorem odds_stamp {now now' : Int} {s : Store} {pc : OddsWorker.Pc} {r : OddsWorker.Step}
    (h : OddsStep now now' s pc r) (rg : OddsWorker.Range)
    (hr : (s.redis rg.key).isSome = true) : (r.store.redis rg.key).isSome = true := by
  cases h with
  | stamped => exact redisSet_isSome hr
  | _ => exact hr

/-- A stamp is the time at which it was taken. -/
theorem stamp_of_now {now now' : Int} {s : Store} {pc : OddsWorker.Pc} {r : OddsWorker.Step}
    {rg : OddsWorker.Range} {n : Int} (h : OddsStep now now' s pc r)
    (hr : r.next = .next (.stampSet rg n)) : n = now := by
  cases h with
  | stampTaken =>
      cases hr
      rfl
  | lineDone =>
      obtain ⟨_, hpc⟩ := scope_after hr
      exact absurd hpc (by simp)
  | notDue _ =>
      obtain ⟨_, hpc⟩ := range_after hr
      exact absurd hpc (by simp)
  | _ => exact absurd hr (by simp)

/-! ## The invariant -/

/-- What Redis holds, and what the runs are about to write there. -/
structure CachedInv (w : Application) : Prop where
  keys : ∀ k v, w.store.redis k = some v →
    (∃ r : OddsWorker.Range, k = r.key ∧ IsStamp w.now v)
      ∨ ∃ id ∈ w.monitors.map Job.arg, k = redisKey id ∧ IsCache w.store id v
  stamps : ∀ r : OddsWorker.Range, (w.store.redis r.key).isSome = true
  ticks : AllStand (fun _ pc => ∀ r n, pc = .stampSet r n → n ≤ w.now) w.ticks
  monitors : AllStand (fun _ pc => PcNamed w.store pc) w.monitors

theorem cachedInv_init {w : Application} (h : Application.Init w) : CachedInv w := by
  obtain ⟨now, rfl⟩ := h
  refine ⟨?_, ?_, allStand_nil, allStand_nil⟩
  · intro k v hk
    simp only [Application.boot, Store.boot] at hk
    split at hk
    · rename_i hkey
      cases hk
      refine Or.inl ?_
      rcases hkey with rfl | rfl | rfl | rfl
      · exact ⟨.soon, rfl, Or.inl rfl⟩
      · exact ⟨.later, rfl, Or.inl rfl⟩
      · exact ⟨.tomorow, rfl, Or.inl rfl⟩
      · exact ⟨.someday, rfl, Or.inl rfl⟩
    · exact absurd hk (by simp)
  · intro r
    cases r <;> rfl

/--
What a step keeps, if it writes what is allowed: `keys` are those of the old store, a stamp,
or the key of a watched event.
-/
theorem CachedInv.moves {w v : Application} (h : CachedInv w)
    (hr : w.store.runners <+: v.store.runners) (hnow : w.now ≤ v.now)
    (hargs : w.monitors.map Job.arg ⊆ v.monitors.map Job.arg)
    (hkeys : ∀ k x, v.store.redis k = some x →
      (∃ r : OddsWorker.Range, k = r.key ∧ IsStamp v.now x)
        ∨ (∃ id ∈ v.monitors.map Job.arg, k = redisKey id ∧ IsCache v.store id x)
        ∨ w.store.redis k = some x)
    (hstamps : ∀ r : OddsWorker.Range, (v.store.redis r.key).isSome = true)
    (hticks : AllStand (fun _ pc => ∀ r n, pc = .stampSet r n → n ≤ v.now) v.ticks)
    (hmonitors : AllStand (fun _ pc => PcNamed v.store pc) v.monitors) : CachedInv v := by
  refine ⟨?_, hstamps, hticks, hmonitors⟩
  intro k x hk
  rcases hkeys k x hk with hstamp | hcache | hold
  · exact Or.inl hstamp
  · exact Or.inr hcache
  · rcases h.keys k x hold with ⟨r, hkey, hs⟩ | ⟨id, hid, hkey, hc⟩
    · exact Or.inl ⟨r, hkey, hs.mono hnow⟩
    · exact Or.inr ⟨id, hargs hid, hkey, hc.mono hr⟩

/-- A step that leaves Redis and the clock alone. -/
theorem CachedInv.quiet {w v : Application} (h : CachedInv w)
    (hr : w.store.runners <+: v.store.runners) (hnow : w.now ≤ v.now)
    (hargs : w.monitors.map Job.arg ⊆ v.monitors.map Job.arg)
    (hredis : v.store.redis = w.store.redis)
    (hticks : AllStand (fun _ pc => ∀ r n, pc = .stampSet r n → n ≤ v.now) v.ticks)
    (hmonitors : AllStand (fun _ pc => PcNamed v.store pc) v.monitors) : CachedInv v := by
  refine h.moves hr hnow hargs ?_ ?_ hticks hmonitors
  · intro k x hk
    rw [hredis] at hk
    exact Or.inr (Or.inr hk)
  · intro r
    rw [hredis]
    exact h.stamps r

/-- **What one step keeps.** -/
theorem cachedInv_moved {w w' : Application} {a : Application.Act} (h : CachedInv w)
    (hg : Grows w.store w'.store) (hm : Moved env w a w') : CachedInv w' := by
  have hr := hg.runners
  have later : ∀ d : Nat,
      AllStand (fun _ pc => ∀ r n, pc = .stampSet r n → n ≤ w.now + d) w.ticks :=
    fun d => h.ticks.mono (fun _ _ hn r n hp => by have := hn r n hp; omega)
  cases hm with
  | @advanced d =>
      exact h.quiet hr (by simp) (List.Subset.refl _) rfl (later d) h.monitors
  | created | edited _ | booted | scheduledImport | startedImport _ _ _ | raisedImport _ _
  | startedRefresh _ _ _ | raisedRefresh _ _ =>
      exact h.quiet hr (Int.le_refl _) (List.Subset.refl _) rfl h.ticks h.monitors
  | @stampReset b r rs _ =>
      refine h.moves hr (Int.le_refl _) (List.Subset.refl _) ?_ ?_ h.ticks h.monitors
      · intro k x hk
        rcases redisSet_cases hk with ⟨hkey, rfl⟩ | hold
        · exact Or.inl ⟨r, hkey, Or.inl rfl⟩
        · exact Or.inr (Or.inr hold)
      · exact fun rg => redisSet_isSome (h.stamps rg)
  | scheduledTick =>
      exact h.quiet hr (Int.le_refl _) (List.Subset.refl _) rfl (h.ticks.enqueue [()]) h.monitors
  | startedTick _ _ _ =>
      exact h.quiet hr (Int.le_refl _) (List.Subset.refl _) rfl
        (h.ticks.start (fun _ _ hp => absurd hp (by simp))) h.monitors
  | raisedTick _ _ =>
      exact h.quiet hr (Int.le_refl _) (List.Subset.refl _) rfl h.ticks.raise h.monitors
  | @startedMonitor j job hj _ _ =>
      refine h.quiet hr (Int.le_refl _) ?_ rfl h.ticks
        (h.monitors.start (fun p hp => absurd hp (by simp [namesOf])))
      rw [map_arg_set hj { job with phase := .running (.waiting 0) } rfl]
      exact List.Subset.refl _
  | @raisedMonitor j job pc hj _ =>
      refine h.quiet hr (Int.le_refl _) ?_ rfl h.ticks h.monitors.raise
      rw [map_arg_set hj job.raise job.raise_arg]
      exact List.Subset.refl _
  | @ticked i d job pc hj hp =>
      have hstep := odds_step w.now (w.now + d) w.store pc
      refine h.moves hr (by show w.now ≤ w.now + d; omega) ?_ ?_ ?_ ?_ ?_
      · show _ ⊆ (w.monitors ++ _).map Job.arg
        rw [List.map_append]
        exact List.subset_append_left _ _
      · intro k v hk
        rcases odds_redis hstep hk with ⟨rg, n, rfl, hkey, rfl⟩ | hold
        · have hn := h.ticks.here hj hp rg n rfl
          refine Or.inl ⟨rg, hkey, Or.inr ?_⟩
          show n ≤ w.now + d
          omega
        · exact Or.inr (Or.inr hold)
      · exact fun rg => odds_stamp hstep rg (h.stamps rg)
      · refine (later d).settle ?_
        intro q hq rg n hstamp
        subst hstamp
        rw [stamp_of_now hstep hq]
        show w.now ≤ w.now + d
        omega
      · exact (h.monitors.mono (fun _ _ hn => hn.mono hr)).enqueue _
  | @monitored j body job pc hj hp =>
      have hstep := monitor_step env.toConfig job.arg body w.store pc
      have hhere := h.monitors.here hj hp
      have hargs : (w.monitors.set j (job.settle
          (MonitorWEBWorker.step env.toConfig job.arg body w.store pc).2)).map Job.arg
          = w.monitors.map Job.arg := map_arg_set hj _ (Job.settle_arg job _)
      refine h.moves hr (Int.le_refl _) ?_ ?_ ?_ h.ticks ?_
      · show _ ⊆ (w.monitors.set j _).map Job.arg
        rw [hargs]
        exact List.Subset.refl _
      · intro k v hk
        rcases monitor_redis hstep hhere hk with ⟨hkey, hc⟩ | hold
        · refine Or.inr (Or.inl ⟨job.arg, ?_, hkey, hc⟩)
          show job.arg ∈ (w.monitors.set j _).map Job.arg
          rw [hargs]
          exact List.mem_map_of_mem (List.mem_of_getElem? hj)
        · exact Or.inr (Or.inr hold)
      · exact fun rg => monitor_stamp hstep rg (h.stamps rg)
      · refine (h.monitors.mono (fun _ _ hn => hn.mono hr)).settle ?_
        intro q hq
        rw [hq] at hstep
        exact monitor_named hstep hr hhere
  | @imported i x answers ids job pc hj hp =>
      have hstep := import_step env answers (x.logon w.now) ids w.store pc
      exact h.quiet hr (by show w.now ≤ w.now + x.total; omega) (List.Subset.refl _)
        (import_redis hstep) (later x.total) (h.monitors.mono (fun _ _ hn => hn.mono hr))
  | @refreshed k x answer job pc hj hp =>
      have hstep := refresh_step env (x.logon w.now) answer job.arg w.store pc
      exact h.quiet hr (by show w.now ≤ w.now + x.total; omega) (List.Subset.refl _)
        (refresh_redis hstep) (later x.total) (h.monitors.mono (fun _ _ hn => hn.mono hr))

theorem cachedInv_reachable {ok : Application → Application.Act → Prop} {w : Application}
    (h : Reachable (Application.act env) ok Application.Init w) : CachedInv w := by
  refine h.invariant_on (fun _ hw => copiesKept_reachable hw) (fun _ hw => cachedInv_init hw) ?_
  intro w a w' hw hc _ hs
  exact cachedInv_moved hc (grows_moved hw (act_iff.mp hs)).1 (act_iff.mp hs)

/-- What Redis holds of the application. -/
structure Cached (w : Application) : Prop where
  /-- The four stamps are there, and none of a time to come. -/
  stamps : ∀ r : OddsWorker.Range, ∃ v, w.store.redis r.key = some v ∧ IsStamp w.now v
  /-- Under the key of an event is what its monitors have stored. -/
  events : ∀ id v, w.store.redis (redisKey id) = some v →
    id ∈ w.monitors.map Job.arg ∧ IsCache w.store id v
  /-- There are no other keys. -/
  others : ∀ k, w.store.redis k ≠ none →
    (∃ r : OddsWorker.Range, k = r.key) ∨ ∃ id ∈ w.monitors.map Job.arg, k = redisKey id

end BetterEfisis.Proof

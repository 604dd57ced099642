import BetterEfisis.Proof.History
import BetterEfisis.Proof.Requests

/-!
# No dangling reference

Rows, cached snapshots, enqueued jobs and the locals of runs refer to rows of other
tables by their keys, and the database enforces none of it. That every such reference is
to a stored row is an invariant of the whole application: a key gets into a row, a
snapshot or an argument from a local, into a local from a query, and no row that a query
has found is ever deleted.

What is not of this kind is what `EventWorker` takes from the answer of the exchange: the
`event_id` of a market, and the ids of a batch that it has yet to import. Those may be of
rows that are never stored.
-/

namespace BetterEfisis.Proof

open Lib Application

variable {env : Environment}

/-! ## References -/

/-- A row of another table, by the key it is referred to. -/
inductive Ref where
  | event (id : Int)
  | runner (id : Nat)
  | selection (id : Nat)
  | market (marketId : String)
deriving DecidableEq, Repr

/-- The row is stored. -/
def Stored (s : Store) : Ref → Prop
  | .event id => id ∈ s.events.map Event.id
  | .runner id => id ∈ s.runners.map Runner.id
  | .selection id => id ∈ s.selections.map Saved.id
  | .market marketId => marketId ∈ (rows s.markets).map Market.marketId

instance (s : Store) (r : Ref) : Decidable (Stored s r) :=
  match r with
  | .event id => inferInstanceAs (Decidable (id ∈ s.events.map Event.id))
  | .runner id => inferInstanceAs (Decidable (id ∈ s.runners.map Runner.id))
  | .selection id => inferInstanceAs (Decidable (id ∈ s.selections.map Saved.id))
  | .market marketId =>
      inferInstanceAs (Decidable (marketId ∈ (rows s.markets).map Market.marketId))

def RefsStored (s : Store) (rs : List Ref) : Prop := ∀ r ∈ rs, Stored s r

theorem Stored.mono {s s' : Store} (h : Grows s s') {r : Ref} (hr : Stored s r) : Stored s' r := by
  cases r with
  | event id =>
      obtain ⟨e, he, rfl⟩ := List.mem_map.mp hr
      obtain ⟨i, hi⟩ := List.getElem?_of_mem he
      obtain ⟨e', he', hages⟩ := h.events i e hi
      exact List.mem_map.mpr ⟨e', List.mem_of_getElem? he', hages.id⟩
  | runner id => exact (h.runners.map _).subset hr
  | selection id => exact (h.selections.map _).subset hr
  | market marketId => exact ((h.markets.map _).map _).subset hr

theorem RefsStored.mono {s s' : Store} {rs : List Ref} (h : RefsStored s rs) (hg : Grows s s') :
    RefsStored s' rs := fun r hr => Stored.mono hg (h r hr)

theorem refsStored_nil (s : Store) : RefsStored s [] := fun _ h => absurd h (by simp)

theorem refsStored_cons {s : Store} {r : Ref} {rs : List Ref} :
    RefsStored s (r :: rs) ↔ Stored s r ∧ RefsStored s rs := by
  simp [RefsStored]

theorem refsStored_append {s : Store} {rs rs' : List Ref} :
    RefsStored s (rs ++ rs') ↔ RefsStored s rs ∧ RefsStored s rs' := by
  unfold RefsStored
  exact List.forall_mem_append

/-! ## Who refers to what -/

/-- A runner that may not be known. -/
def runnerRef (r : Option Nat) : List Ref := (r.map Ref.runner).toList

def updateRefs (u : Update) : List Ref := .event u.eventId :: runnerRef u.runnerId

def bookRef (b : Book) : Ref := .selection b.selectionId

def selectionRef (x : Selection) : Ref := .market x.marketId

def marketRef (m : Market) : Ref := .market m.marketId

/-- What the rows of a store refer to. -/
def rowRefs (s : Store) : List Ref :=
  s.updates.flatMap updateRefs ++ (s.books.map bookRef ++ (rows s.selections).map selectionRef)

def matchRefs (m : MonitorWEBWorker.Match) : List Ref :=
  runnerRef m.runnerHome ++ runnerRef m.runnerAway

def snapshotRefs (sn : Snapshot) : List Ref :=
  .event sn.id :: (runnerRef sn.runnerHome ++ runnerRef sn.runnerAway)

/-- What the locals of an `OddsWorker` run refer to. -/
def tickRefs : OddsWorker.Pc → List Ref
  | .monitor rows => rows.map (fun e => .event e.id)
  | .save e rows => (e :: rows).map (fun e => .event e.id)
  | .refresh _ ids => ids.map .event
  | _ => []

/-- Those of a monitor. -/
def monitorRefs : MonitorWEBWorker.Pc → List Ref
  | .findAway _ _ r | .createAway _ _ r => runnerRef r
  | .loadInPlay m | .polling m _ | .snapshot m _ _ | .delKey m _ | .importUpdates m _ =>
      matchRefs m
  | .saveInPlay m e => .event e.id :: matchRefs m
  | .saveEnded e => [.event e.id]
  | _ => []

/-- Those of an `EventWorker` run that has imported its markets. -/
def importRefs : EventWorker.Pc → List Ref
  | .importSelections b => b.markets.map marketRef ++ b.selections.map selectionRef
  | _ => []

/-- The market ids of the groups still to ask for; the last group is filled up with `nil`. -/
def groupRefs (groups : List (List (Option String))) : List Ref :=
  (groups.flatten.filterMap (fun id => id)).map Ref.market

/-- Those of a `RefreshOddsWorker` run: all the markets it has selected, those of them it
has still to ask for, and the selections of its offers. -/
def refreshRefs : RefreshOddsWorker.Pc → List Ref
  | .ask ids groups books | .parse ids _ groups books =>
      ids.map Ref.market ++ (groupRefs groups ++ books.map bookRef)
  | _ => []

/-- The rows and the cached snapshots refer to stored rows. -/
structure StoreSound (s : Store) : Prop where
  rows : RefsStored s (rowRefs s)
  cache : ∀ k sn, s.redis k = some (.json sn) → RefsStored s (snapshotRefs sn)

/-- Every reference of the application is to a stored row. -/
structure NoDangling (w : Application) : Prop where
  store : StoreSound w.store
  /-- The arguments of the jobs, whatever has become of these. -/
  monitorArgs : AllArgs (fun id => Stored w.store (.event id)) w.monitors
  refreshArgs : AllArgs (fun id => Stored w.store (.event id)) w.refreshes
  ticks : AllStand (fun _ pc => RefsStored w.store (tickRefs pc)) w.ticks
  monitors : AllStand (fun _ pc => RefsStored w.store (monitorRefs pc)) w.monitors
  imports : AllStand (fun _ pc => RefsStored w.store (importRefs pc)) w.imports
  refreshes : AllStand (fun _ pc => RefsStored w.store (refreshRefs pc)) w.refreshes

/-! ## The store -/

section Store

variable {s s' : Store}

/-- A step that writes no reference. -/
theorem StoreSound.grows (h : StoreSound s) (hg : Grows s s') (hrows : rowRefs s' = rowRefs s)
    (hredis : ∀ k sn, s'.redis k = some (.json sn) → s.redis k = some (.json sn)) :
    StoreSound s' where
  rows := by
    rw [hrows]
    exact h.rows.mono hg
  cache := fun k sn hk => (h.cache k sn (hredis k sn hk)).mono hg

theorem redisSet_json {key : String} {v : RedisValue} (hv : ∀ sn, v ≠ .json sn) :
    ∀ k sn, (s.redisSet key v).redis k = some (.json sn) → s.redis k = some (.json sn) := by
  intro k sn hk
  unfold Store.redisSet at hk
  dsimp only at hk
  split at hk
  · exact absurd (Option.some.inj hk) (hv sn)
  · exact hk

theorem redisDel_json {key : String} :
    ∀ k sn, (s.redisDel key).redis k = some (.json sn) → s.redis k = some (.json sn) := by
  intro k sn hk
  unfold Store.redisDel at hk
  dsimp only at hk
  split at hk
  · exact absurd hk (by simp)
  · exact hk

end Store

/-! ## Monitors -/

/-- The id a new runner is given is one of a stored runner. -/
theorem stored_create {t t' : List Runner} {name : Option String} {r : Option Nat}
    (h : Runner.create t name = .ok (t', r)) : ∀ id, r = some id → id ∈ t'.map Runner.id := by
  intro id hid
  unfold Runner.create at h
  split at h
  · exact absurd h (by simp)
  · split at h
    · cases h
      exact absurd hid (by simp)
    · cases h
      cases hid
      simp

theorem refsStored_runnerRef {s : Store} {r : Option Nat} :
    RefsStored s (runnerRef r) ↔ ∀ id, r = some id → id ∈ s.runners.map Runner.id := by
  cases r with
  | none => simp [runnerRef, RefsStored]
  | some id => simp [runnerRef, RefsStored, Stored]

/-- A copy of an event that was found has the id of a stored row. -/
theorem stored_lookup {s : Store} {id : Int} {e : Event} (h : Event.lookup s.events id = some e) :
    Stored s (.event e.id) := List.mem_map_of_mem (Event.lookup_mem h).1

/-- What a monitor goes on with. -/
theorem monitor_refs {cfg : Config} {id : Int} {body : Body} {s s' : Store}
    {pc pc' : MonitorWEBWorker.Pc} (h : MonitorStep cfg id body s pc s' (.next pc'))
    (hg : Grows s s') (hpc : RefsStored s (monitorRefs pc)) : RefsStored s' (monitorRefs pc') := by
  -- a runner that was found is stored
  have found : ∀ {name : Option String} {r : Runner},
      Runner.findBy cfg.collation s.runners name = some r →
      RefsStored s (runnerRef (some r.id)) := by
    intro name r hr
    obtain ⟨n, _, hmem, _⟩ := Runner.findBy_some hr
    rw [refsStored_runnerRef]
    intro id hid
    cases hid
    exact List.mem_map_of_mem hmem
  cases h with
  | homeFound hr => exact found hr
  | homeCreated hc => exact refsStored_runnerRef.mpr (stored_create hc)
  | awayFound hr => exact refsStored_append.mpr ⟨hpc, found hr⟩
  | awayCreated hc =>
      exact refsStored_append.mpr ⟨hpc.mono hg, refsStored_runnerRef.mpr (stored_create hc)⟩
  | inPlayLoaded he => exact refsStored_cons.mpr ⟨stored_lookup he, hpc⟩
  | inPlaySaved => exact (refsStored_cons.mp (hpc.mono hg)).2
  | endedLoaded he => exact refsStored_cons.mpr ⟨stored_lookup he, refsStored_nil _⟩
  | awayMissing | polled _ | cached _ | cachedLast _ | keyDeleted => exact hpc.mono hg
  | givenUp | waited _ | begun _ _ | keySet | homeMissing | updatesImported =>
      exact refsStored_nil _

/-- The updates of a match refer to its event and its two runners. -/
theorem updates_refs {id : Int} {h a : Option Nat} {us : List UpdateDetail} :
    ∀ r ∈ (MonitorWEBWorker.updatesToDb id h a us).flatMap updateRefs,
      r = .event id ∨ r ∈ runnerRef h ++ runnerRef a := by
  intro r hr
  obtain ⟨u, hu, hr⟩ := List.mem_flatMap.mp hr
  obtain ⟨d, _, rfl⟩ := List.mem_map.mp hu
  rcases List.mem_cons.mp hr with rfl | hr
  · exact Or.inl rfl
  · right
    rw [List.mem_append]
    dsimp only at hr
    split at hr
    · exact absurd hr (by simp [runnerRef])
    · exact Or.inl hr
    · exact Or.inr hr
    · exact absurd hr (by simp [runnerRef])

/-- What a monitor writes. -/
theorem monitor_sound {cfg : Config} {id : Int} {body : Body} {s s' : Store}
    {pc : MonitorWEBWorker.Pc} {o : Outcome MonitorWEBWorker.Pc}
    (h : MonitorStep cfg id body s pc s' o) (hg : Grows s s') (hs : StoreSound s)
    (hid : Stored s (.event id)) (hpc : RefsStored s (monitorRefs pc)) : StoreSound s' := by
  -- the snapshot of a match refers to its event and its two runners
  have snapshot : ∀ (m : MonitorWEBWorker.Match) (sc : MonitorWEBWorker.Scores) (t : Timeline),
      RefsStored s (matchRefs m) →
      StoreSound (s.redisSet (redisKey id) (.json (MonitorWEBWorker.encode id m sc t))) := by
    intro m sc t hm
    refine ⟨hs.rows, ?_⟩
    intro k sn hk
    unfold Store.redisSet at hk
    dsimp only at hk
    split at hk
    · cases hk
      exact refsStored_cons.mpr ⟨hid, hm⟩
    · exact hs.cache k sn hk
  cases h with
  | raised | givenUp | waited _ | begun _ _ | homeFound _ | homeMissing | awayFound _
  | awayMissing | inPlayLoaded _ | polled _ | endedLoaded _ => exact hs
  | homeCreated _ | awayCreated _ | inPlaySaved | endedSaved =>
      exact hs.grows hg rfl (fun _ _ hk => hk)
  | keySet => exact hs.grows hg rfl (redisSet_json (by simp))
  | keyDeleted => exact hs.grows hg rfl redisDel_json
  | cached _ | cachedLast _ => exact snapshot _ _ _ hpc
  | @updatesImported m us =>
      refine ⟨?_, fun k sn hk => (hs.cache k sn hk).mono hg⟩
      have hold := hs.rows.mono hg
      unfold rowRefs at hold ⊢
      rw [refsStored_append] at hold ⊢
      rw [List.flatMap_append, refsStored_append]
      refine ⟨⟨hold.1, ?_⟩, hold.2⟩
      intro r hr
      rcases updates_refs r hr with rfl | hr
      · exact Stored.mono hg hid
      · exact Stored.mono hg (hpc r hr)

/-! ## `OddsWorker` -/

theorem refsStored_events {s : Store} {es : List Event} (h : ∀ e ∈ es, e ∈ s.events) :
    RefsStored s (es.map (fun e => .event e.id)) := by
  intro r hr
  obtain ⟨e, he, rfl⟩ := List.mem_map.mp hr
  exact List.mem_map_of_mem (h e he)

theorem mem_scope {sc : OddsWorker.Scope} {t : List Event} {now now' : Int} {e : Event}
    (h : e ∈ sc.load t now now') : e ∈ t := by
  have filtered : ∀ p : Event → Bool, e ∈ (Event.notFinished t).filter p → e ∈ t :=
    fun p hm => (Event.mem_notFinished.mp (List.mem_of_mem_filter hm)).1
  cases sc with
  | now => exact filtered _ h
  | range r => cases r <;> exact filtered _ h

/-- What an `OddsWorker` run goes on with, and what it enqueues. -/
theorem tick_refs {now now' : Int} {s : Store} {pc : OddsWorker.Pc} {r : OddsWorker.Step}
    (h : OddsStep now now' s pc r) (hg : Grows s r.store) (hpc : RefsStored s (tickRefs pc)) :
    (∀ q, r.next = .next q → RefsStored r.store (tickRefs q))
      ∧ ∀ id ∈ r.monitors ++ r.refreshes, Stored r.store (.event id) := by
  cases h with
  | loaded =>
      refine ⟨?_, by simp⟩
      intro q hq
      cases hq
      exact refsStored_events (fun e he => (Event.mem_startingNow he).1)
  | skipped _ =>
      refine ⟨?_, by simp⟩
      intro q hq
      cases hq
      exact (refsStored_cons.mp hpc).2
  | enqueued _ =>
      obtain ⟨he, _⟩ := refsStored_cons.mp hpc
      refine ⟨?_, by simpa using he⟩
      intro q hq
      cases hq
      exact hpc
  | saved =>
      refine ⟨?_, by simp⟩
      intro q hq
      cases hq
      exact (refsStored_cons.mp (hpc.mono hg)).2
  | selected =>
      refine ⟨?_, by simp⟩
      intro q hq
      cases hq
      rw [tickRefs, List.map_map]
      exact refsStored_events (fun e he => mem_scope he)
  | refreshed =>
      obtain ⟨hid, hids⟩ := refsStored_cons.mp hpc
      refine ⟨?_, by simpa using hid⟩
      intro q hq
      cases hq
      exact hids
  | lineDone =>
      refine ⟨?_, by simp⟩
      intro q hq
      obtain ⟨r, rfl⟩ := scope_after hq
      exact refsStored_nil _
  | notDue _ =>
      refine ⟨?_, by simp⟩
      intro q hq
      obtain ⟨r, rfl⟩ := range_after hq
      exact refsStored_nil _
  | through | stampGot | due _ | stampTaken | stamped =>
      refine ⟨?_, by simp⟩
      intro q hq
      cases hq
      exact refsStored_nil _

theorem tick_sound {now now' : Int} {s : Store} {pc : OddsWorker.Pc} {r : OddsWorker.Step}
    (h : OddsStep now now' s pc r) (hg : Grows s r.store) (hs : StoreSound s) :
    StoreSound r.store := by
  cases h with
  | saved => exact hs.grows hg rfl (fun _ _ hk => hk)
  | stamped => exact hs.grows hg rfl (redisSet_json (by simp))
  | _ => exact hs

/-! ## `EventWorker` -/

/-- Every selection of a batch is one of its markets'. -/
theorem market_of_selection {b : Batch} (h : Made env b) :
    ∀ x ∈ b.selections, x.marketId ∈ b.markets.map Market.marketId := by
  obtain ⟨ls, h⟩ := h
  obtain ⟨hmarkets, hselections⟩ := collect_lists h
  intro x hx
  rw [hselections] at hx
  obtain ⟨y, hy, hx⟩ := List.mem_flatMap.mp hx
  obtain ⟨r, _, rfl⟩ := List.mem_map.mp hx
  rw [hmarkets, List.map_map]
  exact List.mem_map.mpr ⟨y, hy, rfl⟩

/-- A market that is handed to the import is stored behind it, if only by an older row. -/
theorem stored_importMarkets {s : Store} {ids : Nat → Nat} {b : Batch} {id : String}
    (h : id ∈ b.markets.map Market.marketId) :
    Stored { s with markets := Market.validation.importSaved ids s.markets b.markets }
      (.market id) := by
  obtain ⟨m, hm, rfl⟩ := List.mem_map.mp h
  obtain ⟨m', hm', hkey⟩ := Validation.key_stored (V := Market.validation) (t := rows s.markets)
    hm rfl
  show m.marketId ∈ (rows (Market.validation.importSaved ids s.markets b.markets)).map _
  rw [rows_importSaved]
  exact List.mem_map.mpr ⟨m', hm', hkey⟩

theorem import_refs {answers : Answers} {l : EventWorker.Logon} {ids : Nat → Nat} {s s' : Store}
    {pc pc' : EventWorker.Pc} (h : ImportStep env answers l ids s pc s' (.next pc'))
    (hmade : ∀ b, batchOf pc = some b → Made env b) : RefsStored s' (importRefs pc') := by
  cases h with
  | loggedIn _ | fetched _ | events _ => exact refsStored_nil _
  | markets =>
      refine refsStored_append.mpr ⟨?_, ?_⟩
      · intro r hr
        obtain ⟨m, hm, rfl⟩ := List.mem_map.mp hr
        exact stored_importMarkets (List.mem_map_of_mem hm)
      · intro r hr
        obtain ⟨x, hx, rfl⟩ := List.mem_map.mp hr
        exact stored_importMarkets (market_of_selection (hmade _ rfl) x hx)

theorem import_sound {answers : Answers} {l : EventWorker.Logon} {ids : Nat → Nat} {s s' : Store}
    {pc : EventWorker.Pc} {o : Outcome EventWorker.Pc}
    (h : ImportStep env answers l ids s pc s' o) (hg : Grows s s') (hs : StoreSound s)
    (hpc : RefsStored s (importRefs pc)) : StoreSound s' := by
  cases h with
  | raised | fetched _ => exact hs
  | loggedIn _ | events _ | markets => exact hs.grows hg rfl (fun _ _ hk => hk)
  | selections =>
      refine ⟨?_, fun k sn hk => (hs.cache k sn hk).mono hg⟩
      have hold := hs.rows.mono hg
      unfold rowRefs at hold ⊢
      rw [refsStored_append, refsStored_append] at hold ⊢
      refine ⟨hold.1, hold.2.1, ?_⟩
      intro r hr
      obtain ⟨x, hx, rfl⟩ := List.mem_map.mp hr
      rw [rows_importSaved] at hx
      rcases Validation.mem_importRows.mp hx with hx | ⟨hx, _⟩
      · exact hold.2.2 _ (List.mem_map_of_mem hx)
      · exact (refsStored_append.mp (hpc.mono hg)).2 _ (List.mem_map_of_mem hx)

/-! ## `RefreshOddsWorker` -/

/-- What a refresh selects is stored. -/
theorem mem_marketArray {t : List (Saved Market)} {eventId : Int} {ids : List String}
    (h : RefreshOddsWorker.marketArray t eventId = .ok ids) {id : String} (hid : id ∈ ids) :
    ∃ m ∈ rows t, m.marketId = id := by
  have hloop := (foldlM_ok_iff (P := fun ids => id ∈ ids)
    (Q := fun m => ∃ ids, RefreshOddsWorker.wanted m = .ok ids ∧ id ∈ ids) ?_ h).mp hid
  · obtain ⟨m, hm, ids', hw, hmem⟩ := hloop.resolve_left List.not_mem_nil
    refine ⟨m, (List.mem_filter.mp hm).1, ?_⟩
    obtain ⟨name, _, hw⟩ := bind_eq_ok.mp hw
    cases hw
    rcases List.mem_append.mp hmem with hfirst | hsecond
    · split at hfirst
      · exact (List.mem_singleton.mp hfirst).symm
      · exact absurd hfirst List.not_mem_nil
    · split at hsecond
      · exact (List.mem_singleton.mp hsecond).symm
      · exact absurd hsecond List.not_mem_nil
  · intro acc m acc' hstep
    obtain ⟨ids', hw, hstep⟩ := bind_eq_ok.mp hstep
    cases hstep
    rw [List.mem_append, hw]
    simp

/-- The groups hold the ids that were collected, and `nil`. -/
theorem mem_of_inGroupsOf {α : Type} {n : Nat} (hn : 0 < n) {xs : List α} {x : α}
    (h : some x ∈ (RefreshOddsWorker.inGroupsOf n xs).flatten) : x ∈ xs := by
  rw [flatten_inGroupsOf hn] at h
  rcases List.mem_append.mp h with h | h
  · simpa using h
  · exact absurd (List.eq_of_mem_replicate h) (by simp)

theorem mem_groupRefs {groups : List (List (Option String))} {r : Ref} :
    r ∈ groupRefs groups ↔ ∃ id, some id ∈ groups.flatten ∧ Ref.market id = r := by
  simp only [groupRefs, List.mem_map, List.mem_filterMap, exists_eq_right]

/-- The first group is asked for, and the others remain. -/
theorem refsStored_groups {s : Store} {g : List (Option String)}
    {groups : List (List (Option String))} (h : RefsStored s (groupRefs (g :: groups))) :
    RefsStored s (groupRefs groups) := by
  intro r hr
  obtain ⟨id, hid, rfl⟩ := mem_groupRefs.mp hr
  refine h _ (mem_groupRefs.mpr ⟨id, ?_, rfl⟩)
  rw [List.flatten_cons]
  exact List.mem_append_right g hid

/-- `parse_runners` refers to the selections it has found. -/
theorem parseRunners_stored {t : List (Saved Selection)} {m : Betfair.MarketBook}
    {books : List Book} (h : Betfair.parseRunners t m = .ok books) :
    ∀ b ∈ books, b.selectionId ∈ t.map Saved.id := by
  rw [Betfair.parseRunners_eq] at h
  refine foldlM_preserves (P := fun bs => ∀ b ∈ bs, b.selectionId ∈ t.map Saved.id) ?_ (by simp) h
  intro bs r bs' hbs hstep
  obtain ⟨new, hnew, hstep⟩ := bind_eq_ok.mp hstep
  cases hstep
  obtain ⟨x, hx, hnew⟩ := bind_eq_ok.mp hnew
  rw [notNil_eq_ok] at hx
  have hmem : x.id ∈ t.map Saved.id := List.mem_map_of_mem (List.mem_of_find?_eq_some hx)
  cases hnew
  intro b hb
  rcases List.mem_append.mp hb with hb | hb
  · exact hbs b hb
  · rcases List.mem_append.mp hb with hb | hb
    · obtain ⟨o, _, rfl⟩ := List.mem_map.mp hb
      exact hmem
    · obtain ⟨o, _, rfl⟩ := List.mem_map.mp hb
      exact hmem

theorem refresh_refs {l : EventWorker.Logon} {answer : Option (List Betfair.MarketBook)}
    {id : Int} {s s' : Store} {pc pc' : RefreshOddsWorker.Pc}
    (h : RefreshStep env l answer id s pc s' (.next pc')) (hpc : RefsStored s (refreshRefs pc)) :
    RefsStored s' (refreshRefs pc') := by
  cases h with
  | loggedIn _ => exact refsStored_nil _
  | @loaded ids hids =>
      have hstored : ∀ mid ∈ ids, Stored s (.market mid) := fun mid hid =>
        List.mem_map.mpr (mem_marketArray hids hid)
      refine refsStored_append.mpr ⟨?_, refsStored_append.mpr ⟨?_, refsStored_nil _⟩⟩
      · intro r hr
        obtain ⟨mid, hid, rfl⟩ := List.mem_map.mp hr
        exact hstored mid hid
      · intro r hr
        obtain ⟨mid, hid, rfl⟩ := mem_groupRefs.mp hr
        exact hstored mid (mem_of_inGroupsOf (by decide) hid)
  | asked _ | skipped =>
      obtain ⟨hids, hrest⟩ := refsStored_append.mp hpc
      obtain ⟨hgroups, hbooks⟩ := refsStored_append.mp hrest
      exact refsStored_append.mpr
        ⟨hids, refsStored_append.mpr ⟨refsStored_groups hgroups, hbooks⟩⟩
  | parsedAll => exact hpc
  | parsed hb =>
      obtain ⟨hids, hrest⟩ := refsStored_append.mp hpc
      refine refsStored_append.mpr
        ⟨hids, refsStored_append.mpr ⟨(refsStored_append.mp hrest).1, ?_⟩⟩
      intro r hr
      obtain ⟨b, hmem, rfl⟩ := List.mem_map.mp hr
      exact parseRunners_stored hb b hmem

theorem refresh_sound {l : EventWorker.Logon} {answer : Option (List Betfair.MarketBook)}
    {id : Int} {s s' : Store} {pc : RefreshOddsWorker.Pc} {o : Outcome RefreshOddsWorker.Pc}
    (h : RefreshStep env l answer id s pc s' o) (hg : Grows s s') (hs : StoreSound s)
    (hpc : RefsStored s (refreshRefs pc)) : StoreSound s' := by
  cases h with
  | raised | loaded _ | asked _ | skipped | parsed _ | parsedAll => exact hs
  | loggedIn _ => exact hs.grows hg rfl (fun _ _ hk => hk)
  | imported =>
      refine ⟨?_, fun k sn hk => (hs.cache k sn hk).mono hg⟩
      have hold := hs.rows.mono hg
      unfold rowRefs at hold ⊢
      rw [refsStored_append, refsStored_append] at hold ⊢
      have hbooks := (refsStored_append.mp (refsStored_append.mp (hpc.mono hg)).2).2
      rw [List.map_append, refsStored_append]
      exact ⟨hold.1, ⟨hold.2.1, hbooks⟩, hold.2.2⟩

/-! ## The run -/

theorem noDangling_init {w : Application} (h : Application.Init w) : NoDangling w := by
  obtain ⟨now, rfl⟩ := h
  refine ⟨⟨refsStored_nil _, ?_⟩, allArgs_nil, allArgs_nil,
    allStand_nil, allStand_nil, allStand_nil, allStand_nil⟩
  intro k sn hk
  simp only [Application.boot, Store.boot] at hk
  split at hk <;> exact absurd hk (by simp)

/-- A step that writes no reference, and leaves the jobs alone. -/
theorem NoDangling.grows {w : Application} {s : Store} (h : NoDangling w) (hg : Grows w.store s)
    (hs : StoreSound s) : NoDangling { w with store := s } where
  store := hs
  monitorArgs := h.monitorArgs.mono (fun _ hid => hid.mono hg)
  refreshArgs := h.refreshArgs.mono (fun _ hid => hid.mono hg)
  ticks := h.ticks.mono (fun _ _ hp => hp.mono hg)
  monitors := h.monitors.mono (fun _ _ hp => hp.mono hg)
  imports := h.imports.mono (fun _ _ hp => hp.mono hg)
  refreshes := h.refreshes.mono (fun _ _ hp => hp.mono hg)

/-- **What one step keeps.** -/
theorem noDangling_moved {w w' : Application} {a : Application.Act} (h : NoDangling w)
    (hmade : BatchesMade env w) (hg : Grows w.store w'.store) (hm : Moved env w a w') :
    NoDangling w' := by
  cases hm with
  | advanced | booted => exact { h with }
  | created | edited _ => exact h.grows hg (h.store.grows hg rfl (fun _ _ hk => hk))
  | stampReset _ =>
      exact { h.grows hg (h.store.grows hg rfl (redisSet_json (by simp))) with }
  | scheduledTick => exact { h with ticks := h.ticks.enqueue [()] }
  | startedTick _ _ _ => exact { h with ticks := h.ticks.start (refsStored_nil _) }
  | raisedTick _ _ => exact { h with ticks := h.ticks.raise }
  | startedMonitor hj _ _ =>
      exact { h with
        monitorArgs := h.monitorArgs.set hj _ rfl
        monitors := h.monitors.start (refsStored_nil _) }
  | @raisedMonitor j job pc hj _ =>
      exact { h with
        monitorArgs := h.monitorArgs.set hj _ job.raise_arg
        monitors := h.monitors.raise }
  | scheduledImport => exact { h with imports := h.imports.enqueue [()] }
  | startedImport _ _ _ => exact { h with imports := h.imports.start (refsStored_nil _) }
  | raisedImport _ _ => exact { h with imports := h.imports.raise }
  | startedRefresh hj _ _ =>
      exact { h with
        refreshArgs := h.refreshArgs.set hj _ rfl
        refreshes := h.refreshes.start (refsStored_nil _) }
  | @raisedRefresh k job pc hj _ =>
      exact { h with
        refreshArgs := h.refreshArgs.set hj _ job.raise_arg
        refreshes := h.refreshes.raise }
  | @ticked i d job pc hj hp =>
      have hstep := odds_step w.now (w.now + d) w.store pc
      have hnext := tick_refs hstep hg (h.ticks.here hj hp)
      have hold := h.grows hg (tick_sound hstep hg h.store)
      have hargs := List.forall_mem_append.mp hnext.2
      exact { hold with
        monitorArgs := hold.monitorArgs.enqueue hargs.1
        refreshArgs := hold.refreshArgs.enqueue hargs.2
        ticks := hold.ticks.settle hnext.1
        monitors := hold.monitors.enqueue _
        refreshes := hold.refreshes.enqueue _ }
  | @monitored j body job pc hj hp =>
      have hstep := monitor_step env.toConfig job.arg body w.store pc
      have hhere := h.monitors.here hj hp
      have hid := h.monitorArgs.here hj
      have hold := h.grows hg (monitor_sound hstep hg h.store hid hhere)
      refine { hold with
        monitorArgs := hold.monitorArgs.set hj _ (Job.settle_arg job _)
        monitors := hold.monitors.settle ?_ }
      intro q hq
      rw [hq] at hstep
      exact monitor_refs hstep hg hhere
  | @imported i x answers ids job pc hj hp =>
      have hstep := import_step env answers (x.logon w.now) ids w.store pc
      have hold := h.grows hg (import_sound hstep hg h.store (h.imports.here hj hp))
      refine { hold with imports := hold.imports.settle ?_ }
      intro q hq
      rw [hq] at hstep
      exact import_refs hstep (hmade.here hj hp)
  | @refreshed k x answer job pc hj hp =>
      have hstep := refresh_step env (x.logon w.now) answer job.arg w.store pc
      have hhere := h.refreshes.here hj hp
      have hold := h.grows hg (refresh_sound hstep hg h.store hhere)
      refine { hold with
        refreshArgs := hold.refreshArgs.set hj _ (Job.settle_arg job _)
        refreshes := hold.refreshes.settle ?_ }
      intro q hq
      rw [hq] at hstep
      exact refresh_refs hstep hhere

/--
**No reference dangles.** In every state the application reaches, whatever `NoDangling`
counts as a reference of a row, a cached snapshot, the argument of a job or a local of a run
is to a stored row.
-/
theorem noDangling_reachable {ok : Application → Application.Act → Prop} {w : Application}
    (h : Reachable (Application.act env) ok Application.Init w) : NoDangling w := by
  have hJ : ∀ w, Reachable (Application.act env) ok Application.Init w →
      CopiesKept w ∧ BatchesMade env w :=
    fun w hw => ⟨copiesKept_reachable hw, batchesMade_reachable hw⟩
  refine h.invariant_on hJ (fun _ hw => noDangling_init hw) ?_
  intro w a w' hw hd _ hs
  exact noDangling_moved hd hw.2 (grows_moved hw.1 (act_iff.mp hs)).1 (act_iff.mp hs)

/-- A match that is over when it is first polled, with one goal. -/
def overAtOnce : Timeline :=
  ⟨some ⟨some ⟨some "Home", some 1⟩, some ⟨some "Away", some 0⟩⟩,
    some [⟨some 12, some "Goal", some "home"⟩], some 90, some "COMPLETE", none⟩

/-- An offer for its one runner. -/
def oneBook : List Betfair.MarketBook := [⟨"1.1", [⟨some 5, [⟨2, 10⟩], []⟩]⟩]

/-- The monitor and the refresh that the first tick enqueues, one after the other. -/
def monitorAndRefresh : List Application.Act :=
  List.replicate 13 (.monitor 0 (.json overAtOnce)) ++ List.replicate 4 (.tick 0 0)
    ++ .startRefresh 0 :: List.replicate 6 (.refresh 0 ⟨1, 1, 1, none⟩ (some oneBook))

/-- A run that leaves an update and a book. -/
theorem noDangling_match : ∃ w : Application, w.store.updates.map Update.runnerId = [some 1]
    ∧ w.store.books.map Book.selectionId = [0] ∧ NoDangling w := by
  obtain ⟨w, hw, hrows⟩ := reachable_of_run (Application.act oneAccount) always
    (firstNightAndTick ++ monitorAndRefresh)
    (fun w => w.store.updates.map Update.runnerId = [some 1]
      ∧ w.store.books.map Book.selectionId = [0]) init_boot (by decide +kernel)
  exact ⟨w, hrows.1, hrows.2, noDangling_reachable hw⟩

end BetterEfisis.Proof

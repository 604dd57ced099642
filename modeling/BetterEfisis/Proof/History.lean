import BetterEfisis.Lib.Keyed
import BetterEfisis.Proof.Copies
import BetterEfisis.Proof.Projection

/-!
# What the application never forgets

No worker deletes a row, and of the rows only accounts and events are written again. What
can become of an event is little, although every worker writes it from a copy that may
be long out of date: `save` writes the columns it has changed, and of the columns it has
not changed only `cc` is one that it changes by itself.

So the one thing to know of a copy is that its `cc` is that of the row, upper and lower
case aside.

An account is written over by its owner, who can change its three fields, and by a login,
which can change its session alone, and only one that has run out.
-/

namespace BetterEfisis.Proof

open Lib Application

variable {env : Environment}

/-! ## What becomes of an event -/

/-- What can become of a stored event. -/
structure Ages (e e' : Event) : Prop where
  id : e'.id = e.id
  name : e'.name = e.name
  openDate : e'.openDate = e.openDate
  /-- The country code is lower-cased, if anything. -/
  cc : e'.cc = e.cc ∨ e'.cc = e.cc.map downcase
  /-- A match that has begun is not taken for one that has not. -/
  begun : e'.status = some .notStarted → e.status = some .notStarted
  /-- And no column is made NULL. -/
  status : e.status.isSome = true → e'.status.isSome = true
  monitored : e.monitored.isSome = true → e'.monitored.isSome = true

theorem Ages.refl (e : Event) : Ages e e :=
  ⟨rfl, rfl, rfl, Or.inl rfl, fun h => h, fun h => h, fun h => h⟩

theorem downcase_cc (cc : Option String) : (cc.map downcase).map downcase = cc.map downcase := by
  cases cc with
  | none => rfl
  | some s => simp [downcase_downcase]

theorem Ages.trans {e e' e'' : Event} (h : Ages e e') (h' : Ages e' e'') : Ages e e'' where
  id := h'.id.trans h.id
  name := h'.name.trans h.name
  openDate := h'.openDate.trans h.openDate
  cc := by
    rcases h'.cc with hc' | hc' <;> rcases h.cc with hc | hc
    · exact Or.inl (hc'.trans hc)
    · exact Or.inr (hc'.trans hc)
    · exact Or.inr (by rw [hc', hc])
    · exact Or.inr (by rw [hc', hc, downcase_cc])
  begun := fun hs => h.begun (h'.begun hs)
  status := fun hs => h'.status (h.status hs)
  monitored := fun hm => h'.monitored (h.monitored hm)

/-- Upper and lower case aside, the country code is the same for ever. -/
theorem Ages.sameCc {e e' : Event} (h : Ages e e') : e'.cc.map downcase = e.cc.map downcase := by
  rcases h.cc with hc | hc
  · rw [hc]
  · rw [hc, downcase_cc]

/-! ## What the workers save -/

/-- What a worker changes of the copy it has loaded, before it saves it. -/
structure Edits (loaded cur : Event) : Prop where
  id : cur.id = loaded.id
  name : cur.name = loaded.name
  openDate : cur.openDate = loaded.openDate
  cc : cur.cc = loaded.cc
  status : cur.status = loaded.status ∨ cur.status = some .inPlay ∨ cur.status = some .ended
  monitored : cur.monitored = loaded.monitored ∨ cur.monitored.isSome = true

theorem edits_monitored (e : Event) : Edits e (OddsWorker.monitored e) :=
  ⟨rfl, rfl, rfl, rfl, Or.inl rfl, Or.inr rfl⟩

theorem edits_inPlay (e : Event) : Edits e (MonitorWEBWorker.inPlay e) :=
  ⟨rfl, rfl, rfl, rfl, Or.inr (Or.inl rfl), Or.inl rfl⟩

theorem edits_ended (e : Event) : Edits e (MonitorWEBWorker.ended e) :=
  ⟨rfl, rfl, rfl, rfl, Or.inr (Or.inr rfl), Or.inr rfl⟩

/-- What the write makes of the row, if the copy has the row's country code. -/
theorem ages_writeChanged {loaded cur row : Event} (he : Edits loaded cur)
    (hcc : row.cc.map downcase = loaded.cc.map downcase) :
    Ages row (Event.writeChanged loaded cur.beforeSave row) where
  id := rfl
  name := if_pos he.name
  openDate := if_pos he.openDate
  cc := by
    show (if cur.cc.map downcase = loaded.cc then row.cc else cur.cc.map downcase) = row.cc ∨ _
    split
    · exact Or.inl rfl
    · right
      show (if cur.cc.map downcase = loaded.cc then row.cc else cur.cc.map downcase) = _
      rw [if_neg ‹_›, he.cc, hcc]
  begun := by
    show (if cur.status = loaded.status then row.status else cur.status) = _ → _
    intro h
    split at h
    · exact h
    · rename_i hne
      rcases he.status with hs | hs | hs
      · exact absurd hs hne
      · rw [hs] at h
        exact absurd h (by simp)
      · rw [hs] at h
        exact absurd h (by simp)
  status := by
    show _ → (if cur.status = loaded.status then row.status else cur.status).isSome = true
    intro h
    split
    · exact h
    · rename_i hne
      rcases he.status with hs | hs | hs
      · exact absurd hs hne
      · rw [hs]
        rfl
      · rw [hs]
        rfl
  monitored := by
    show _ → (if cur.monitored = loaded.monitored then row.monitored
      else cur.monitored).isSome = true
    intro h
    split
    · exact h
    · rename_i hne
      exact he.monitored.resolve_left hne

/-! ## The table of the events -/

/-- The copy is of a stored event, and has its country code. -/
def Kept (t : List Event) (c : Event) : Prop :=
  ∃ row, Event.lookup t c.id = some row ∧ row.cc.map downcase = c.cc.map downcase

/-- What a step does to the events. -/
inductive EventsMove (t : List Event) : List Event → Prop where
  | stays : EventsMove t t
  | imported {batch t' : List Event} : Event.importRows t batch = .ok t' → EventsMove t t'
  | saved {loaded cur : Event} : Kept t loaded → Edits loaded cur →
      EventsMove t (Event.save t loaded cur)

/-- Under distinct ids, the look-up of a stored event's id finds it. -/
theorem lookup_of_mem {t : List Event} {e : Event} (hnd : (t.map Event.id).Nodup) (he : e ∈ t) :
    Event.lookup t e.id = some e := by
  obtain ⟨e', he'⟩ := Event.lookup_isSome (List.mem_map_of_mem (f := Event.id) he)
  obtain ⟨hmem, hid⟩ := Event.lookup_mem he'
  rw [he', List.inj_on_of_nodup_map hnd hmem he hid]

theorem nodup_eventsMove {t t' : List Event} (hnd : (t.map Event.id).Nodup)
    (h : EventsMove t t') : (t'.map Event.id).Nodup := by
  cases h with
  | stays => exact hnd
  | imported h => exact (importRows_effect h).2 hnd
  | saved _ _ =>
      rw [Event.save_ids]
      exact hnd

theorem allAge_eventsMove {t t' : List Event} (hnd : (t.map Event.id).Nodup)
    (h : EventsMove t t') : Evolves Ages t t' := by
  cases h with
  | stays => exact .refl Ages.refl t
  | imported h =>
      rw [(importRows_effect h).1]
      exact .append Ages.refl t _
  | @saved loaded cur hkept hedits =>
      unfold Event.save
      split
      · refine .map ?_
        intro e he
        unfold Event.saveRow
        by_cases hid : e.id = loaded.id
        · rw [if_pos hid]
          -- the row is the one the copy was loaded from
          obtain ⟨row, hrow, hcc⟩ := hkept
          rw [← hid, lookup_of_mem hnd he] at hrow
          cases hrow
          exact ages_writeChanged hedits hcc
        · rw [if_neg hid]
          exact Ages.refl e
      · exact .refl Ages.refl t

/-- What is a copy of a stored event stays one. -/
theorem kept_eventsMove {t t' : List Event} {c : Event} (hnd : (t.map Event.id).Nodup)
    (h : EventsMove t t') (hc : Kept t c) : Kept t' c := by
  obtain ⟨row, hrow, hcc⟩ := hc
  obtain ⟨hmem, hid⟩ := Event.lookup_mem hrow
  obtain ⟨i, hi⟩ := List.getElem?_of_mem hmem
  obtain ⟨row', hi', hages⟩ := allAge_eventsMove hnd h i row hi
  refine ⟨row', ?_, hages.sameCc.trans hcc⟩
  have hfound := lookup_of_mem (nodup_eventsMove hnd h) (List.mem_of_getElem? hi')
  rw [hages.id, hid] at hfound
  exact hfound

theorem kept_of_mem {t : List Event} {e : Event} (hnd : (t.map Event.id).Nodup) (he : e ∈ t) :
    Kept t e := ⟨e, lookup_of_mem hnd he, rfl⟩

/-! ## The copies in hand -/

/-- The rows an `OddsWorker` run has in hand. -/
def tickCopies : OddsWorker.Pc → List Event
  | .monitor rows => rows
  | .save e rows => e :: rows
  | _ => []

/-- The row a monitor has in hand. -/
def monitorCopies : MonitorWEBWorker.Pc → List Event
  | .saveInPlay _ e | .saveEnded e => [e]
  | _ => []

/-- Every copy in hand is one of a stored event. -/
structure CopiesKept (w : Application) : Prop where
  ids : (w.store.events.map Event.id).Nodup
  ticks : AllStand (fun _ pc => ∀ c ∈ tickCopies pc, Kept w.store.events c) w.ticks
  monitors : AllStand (fun _ pc => ∀ c ∈ monitorCopies pc, Kept w.store.events c) w.monitors

/-- What a statement of `OddsWorker` goes on with it had before, or has loaded. -/
theorem tick_copies {now now' : Int} {s : Store} {pc pc' : OddsWorker.Pc} {r : OddsWorker.Step}
    (h : OddsStep now now' s pc r) (hr : r.next = .next pc') :
    ∀ c ∈ tickCopies pc', c ∈ tickCopies pc ∨ c ∈ s.events := by
  intro c hc
  cases h with
  | loaded =>
      cases hr
      exact Or.inr (Event.mem_startingNow hc).1
  | skipped _ | saved =>
      cases hr
      exact Or.inl (List.mem_cons_of_mem _ hc)
  | enqueued _ =>
      cases hr
      exact Or.inl hc
  | lineDone =>
      obtain ⟨r, rfl⟩ := scope_after hr
      exact absurd hc (by simp [tickCopies])
  | notDue _ =>
      obtain ⟨r, rfl⟩ := range_after hr
      exact absurd hc (by simp [tickCopies])
  | through | selected | refreshed | stampGot | due _ | stampTaken | stamped =>
      cases hr
      exact absurd hc (by simp [tickCopies])

/-- And so for a monitor, which loads with `find`. -/
theorem monitor_copies {cfg : Config} {id : Int} {body : Body} {s s' : Store}
    {pc pc' : MonitorWEBWorker.Pc} (h : MonitorStep cfg id body s pc s' (.next pc')) :
    ∀ c ∈ monitorCopies pc', c ∈ s.events := by
  intro c hc
  cases h with
  | inPlayLoaded hl | endedLoaded hl =>
      cases List.mem_singleton.mp hc
      exact (Event.lookup_mem hl).1
  | _ => exact absurd hc (by simp [monitorCopies])

/-! ## What becomes of an account -/

/-- What can become of a stored account. -/
structure Renews (a a' : Account) : Prop where
  /-- A session is kept until it has run out, and gives way to a later one. -/
  session : ∀ time, a.time = some time → ∃ time', a'.time = some time'
    ∧ (time' = time ∧ a'.ssoid = a.ssoid ∨ time + 1200 ≤ time')
  /-- No column that has to be filled is emptied. -/
  present : a.presentFields = true → a'.presentFields = true

theorem Renews.refl (a : Account) : Renews a a :=
  ⟨fun time ht => ⟨time, ht, Or.inl ⟨rfl, rfl⟩⟩, fun h => h⟩

theorem Renews.trans {a a' a'' : Account} (h : Renews a a') (h' : Renews a' a'') :
    Renews a a'' where
  session := by
    intro time ht
    obtain ⟨time', ht', hs⟩ := h.session time ht
    obtain ⟨time'', ht'', hs'⟩ := h'.session time' ht'
    refine ⟨time'', ht'', ?_⟩
    rcases hs with ⟨rfl, hs⟩ | hle <;> rcases hs' with ⟨rfl, hs'⟩ | hle'
    · exact Or.inl ⟨rfl, hs'.trans hs⟩
    · exact Or.inr hle'
    · exact Or.inr hle
    · exact Or.inr (by omega)
  present := fun hp => h'.present (h.present hp)

/-- What a step does to the accounts. -/
inductive AccountsMove (env : Environment) (t : List Account) :
    Application.Act → List Account → Prop where
  | stays {a : Application.Act} : AccountsMove env t a t
  | created {u p sv : Option String} :
      AccountsMove env t (.createAccount u p sv) (Account.create env.md5 t u p sv)
  | edited {i : Nat} {u p sv : Option String} {a : Account} : t[i]? = some a →
      AccountsMove env t (.editAccount i u p sv)
        (Account.save env.md5 t i (Sessions.edited a u p sv))
  | loggedIn {a : Application.Act} {l : EventWorker.Logon} {t' : List Account} :
      l.now ≤ l.now'' → EventWorker.apiNew env.md5 env.same env.apiAccount l t = .ok t' →
      AccountsMove env t a t'

theorem logon_le (x : Waits) (now : Int) : (x.logon now).now ≤ (x.logon now).now'' := by
  show now + x.d ≤ now + x.d + x.d' + x.d''
  omega

theorem accounts_moved {w w' : Application} {a : Application.Act} (hm : Moved env w a w') :
    AccountsMove env w.store.accounts a w'.store.accounts := by
  cases hm with
  | created => exact .created
  | edited ha => exact .edited ha
  | @ticked i d job pc hj hp =>
      have hsame := odds_accounts (odds_step w.now (w.now + d) w.store pc)
      show AccountsMove env _ _ (OddsWorker.step _ _ _ _).store.accounts
      rw [hsame]
      exact .stays
  | @monitored j body job pc hj hp =>
      have hsame := monitor_accounts (monitor_step env.toConfig job.arg body w.store pc)
      show AccountsMove env _ _ (MonitorWEBWorker.step _ _ _ _ _).1.accounts
      rw [hsame]
      exact .stays
  | @imported i x answers ids job pc hj hp =>
      rcases import_accounts (import_step env answers (x.logon w.now) ids w.store pc) with
        hsame | ht
      · show AccountsMove env _ _ (EventWorker.step _ _ _ _ _ _ _ _ _).1.accounts
        rw [hsame]
        exact .stays
      · exact .loggedIn (logon_le x w.now) ht
  | @refreshed k x answer job pc hj hp =>
      rcases refresh_accounts (refresh_step env (x.logon w.now) answer job.arg w.store pc) with
        hsame | ht
      · show AccountsMove env _ _ (RefreshOddsWorker.step _ _ _ _ _ _ _ _).1.accounts
        rw [hsame]
        exact .stays
      · exact .loggedIn (logon_le x w.now) ht
  | advanced | booted | stampReset _ | scheduledTick | startedTick _ _ _ | raisedTick _ _
  | startedMonitor _ _ _ | raisedMonitor _ _ | scheduledImport | startedImport _ _ _
  | raisedImport _ _ | startedRefresh _ _ _ | raisedRefresh _ _ => exact .stays

/-- A save that leaves the session alone. -/
theorem renews_save {t : List Account} {i : Nat} {a a' : Account} (hi : t[i]? = some a)
    (htime : a'.time = a.time) (hssoid : a'.ssoid = a.ssoid) :
    Evolves Renews t (Account.save env.md5 t i a') := by
  rcases save_cases env.md5 t i a' with he | ⟨hpres, _, he⟩
  · rw [he]
    exact .refl Renews.refl t
  · rw [he]
    refine .set Renews.refl hi ⟨?_, fun _ => hpres⟩
    intro time ht
    exact ⟨time, htime.trans ht, Or.inl ⟨rfl, hssoid⟩⟩

/-- The account a login finds has no session, or one that has run out. -/
theorem renews_login {t t' : List Account} {l : EventWorker.Logon} (hle : l.now ≤ l.now'')
    (h : EventWorker.apiNew env.md5 env.same env.apiAccount l t = .ok t') :
    Evolves Renews t t' := by
  obtain ⟨account, _, h⟩ := bind_eq_ok.mp h
  obtain ⟨username, _, h⟩ := bind_eq_ok.mp h
  obtain ⟨password, _, h⟩ := bind_eq_ok.mp h
  obtain ⟨⟨t₁, r⟩, hl, h⟩ := bind_eq_ok.mp h
  cases h
  rcases login_cases hl with ⟨_, _, _, _, _, _, _, _, rfl⟩ | ⟨i, a, hc, hold, _, rfl⟩
  · exact .refl Renews.refl _
  · rcases save_cases env.md5 t i { a with time := some l.now'', ssoid := l.answer } with he
      | ⟨hpres, _, he⟩
    · rw [he]
      exact .refl Renews.refl t
    · rw [he]
      refine .set Renews.refl (byCreds_row hc).1 ⟨?_, fun _ => hpres⟩
      intro time ht
      refine ⟨l.now'', rfl, Or.inr ?_⟩
      rw [live_iff ht] at hold
      omega

theorem renews_move {t t' : List Account} {a : Application.Act} (h : AccountsMove env t a t') :
    Evolves Renews t t' := by
  cases h with
  | stays => exact .refl Renews.refl t
  | created =>
      rcases create_cases env.md5 t _ _ _ with he | ⟨_, he⟩
      · rw [he]
        exact .refl Renews.refl t
      · rw [he]
        exact .append Renews.refl t _
  | edited hi => exact renews_save hi rfl rfl
  | loggedIn hle hl => exact renews_login hle hl

/-- The steps that do not edit account `i`. -/
def LeavesAccount (i : Nat) (_ : Application) : Application.Act → Prop
  | .editAccount j _ _ _ => j ≠ i
  | _ => True

/-- The account at place `i` has kept its username, its password and its service. -/
def SameAccount (i : Nat) (t t' : List Account) : Prop :=
  ∀ a, t[i]? = some a → ∃ a', t'[i]? = some a' ∧ credentials a' = credentials a

theorem sameAccount_of_credentials {i : Nat} {t t' : List Account}
    (h : t'.map credentials = t.map credentials) : SameAccount i t t' := by
  intro a ha
  obtain ⟨a', ha', heq⟩ := getElem?_of_credentials h.symm ha
  exact ⟨a', ha', heq.symm⟩

theorem sameAccount_move {i : Nat} {w : Application} {t t' : List Account} {a : Application.Act}
    (h : AccountsMove env t a t') (hok : LeavesAccount i w a) : SameAccount i t t' := by
  cases h with
  | stays => exact fun a ha => ⟨a, ha, rfl⟩
  | created =>
      rcases create_cases env.md5 t _ _ _ with he | ⟨_, he⟩
      · rw [he]
        exact fun a ha => ⟨a, ha, rfl⟩
      · rw [he]
        exact fun a ha => ⟨a, getElem?_snoc_of_some ha, rfl⟩
  | @edited j u p sv b hj =>
      intro a ha
      rcases save_cases env.md5 t j (Sessions.edited b u p sv) with he | ⟨_, _, he⟩
      · rw [he]
        exact ⟨a, ha, rfl⟩
      · rw [he]
        exact ⟨a, by rw [List.getElem?_set_ne hok, ha], rfl⟩
  | loggedIn _ hl => exact sameAccount_of_credentials (apiNew_credentials hl)

/-! ## The tables -/

/-- Nothing that was stored is gone, and no event and no account is another one. -/
structure Grows (s s' : Store) : Prop where
  events : Evolves Ages s.events s'.events
  markets : s.markets <+: s'.markets
  selections : s.selections <+: s'.selections
  books : s.books <+: s'.books
  runners : s.runners <+: s'.runners
  updates : s.updates <+: s'.updates
  accounts : Evolves Renews s.accounts s'.accounts

theorem Grows.trans {s s' s'' : Store} (h : Grows s s') (h' : Grows s' s'') : Grows s s'' where
  events := h.events.trans Ages.trans h'.events
  markets := h.markets.trans h'.markets
  selections := h.selections.trans h'.selections
  books := h.books.trans h'.books
  runners := h.runners.trans h'.runners
  updates := h.updates.trans h'.updates
  accounts := h.accounts.trans Renews.trans h'.accounts

/-- A step that touches the events at most. -/
theorem Grows.of_events {s s' : Store} (he : Evolves Ages s.events s'.events)
    (hm : s'.markets = s.markets) (hs : s'.selections = s.selections) (hb : s'.books = s.books)
    (hr : s'.runners = s.runners) (hu : s'.updates = s.updates)
    (ha : s'.accounts = s.accounts) : Grows s s' where
  events := he
  markets := hm ▸ List.prefix_rfl
  selections := hs ▸ List.prefix_rfl
  books := hb ▸ List.prefix_rfl
  runners := hr ▸ List.prefix_rfl
  updates := hu ▸ List.prefix_rfl
  accounts := ha ▸ .refl Renews.refl _

theorem Grows.refl (s : Store) : Grows s s :=
  .of_events (.refl Ages.refl _) rfl rfl rfl rfl rfl rfl

theorem create_prefix {t t' : List Runner} {name : Option String} {r : Option Nat}
    (h : Runner.create t name = .ok (t', r)) : t <+: t' := by
  unfold Runner.create at h
  split at h
  · exact absurd h (by simp)
  · split at h
    · cases h
      exact List.prefix_rfl
    · cases h
      exact List.prefix_append _ _

/-! ## What each worker does to them -/

section Workers

variable {s s' : Store}

theorem update_moves {m : Event.UpdateMethod} {e : Event} {f : Event → Event}
    (hk : Kept s.events e) (hf : Edits e (f e)) :
    EventsMove s.events (Event.update m s.events e f) := by
  cases m with
  | persistence => exact .saved hk hf
  | associationReader => exact .stays

theorem odds_events {now now' : Int} {pc : OddsWorker.Pc} {r : OddsWorker.Step}
    (h : OddsStep now now' s pc r) (hk : ∀ c ∈ tickCopies pc, Kept s.events c) :
    EventsMove s.events r.store.events := by
  cases h with
  | saved => exact .saved (hk _ List.mem_cons_self) (edits_monitored _)
  | _ => exact .stays

theorem monitor_events {cfg : Config} {id : Int} {body : Body} {pc : MonitorWEBWorker.Pc}
    {o : Outcome MonitorWEBWorker.Pc} (h : MonitorStep cfg id body s pc s' o)
    (hk : ∀ c ∈ monitorCopies pc, Kept s.events c) : EventsMove s.events s'.events := by
  cases h with
  | inPlaySaved => exact update_moves (hk _ List.mem_cons_self) (edits_inPlay _)
  | endedSaved => exact update_moves (hk _ List.mem_cons_self) (edits_ended _)
  | _ => exact .stays

theorem import_events {answers : Answers} {l : EventWorker.Logon} {ids : Nat → Nat}
    {pc : EventWorker.Pc} {o : Outcome EventWorker.Pc}
    (h : ImportStep env answers l ids s pc s' o) : EventsMove s.events s'.events := by
  cases h with
  | events ht => exact .imported ht
  | _ => exact .stays

theorem refresh_events {l : EventWorker.Logon} {answer : Option (List Betfair.MarketBook)}
    {id : Int} {pc : RefreshOddsWorker.Pc} {o : Outcome RefreshOddsWorker.Pc}
    (h : RefreshStep env l answer id s pc s' o) : s'.events = s.events := by
  cases h <;> rfl

theorem odds_grows {now now' : Int} {pc : OddsWorker.Pc} {r : OddsWorker.Step}
    (h : OddsStep now now' s pc r) (he : Evolves Ages s.events r.store.events) :
    Grows s r.store := by
  cases h <;> exact .of_events he rfl rfl rfl rfl rfl rfl

theorem monitor_grows {cfg : Config} {id : Int} {body : Body} {pc : MonitorWEBWorker.Pc}
    {o : Outcome MonitorWEBWorker.Pc} (h : MonitorStep cfg id body s pc s' o)
    (he : Evolves Ages s.events s'.events) : Grows s s' := by
  cases h with
  | homeCreated hc | awayCreated hc =>
      exact { Grows.refl s with runners := create_prefix hc }
  | updatesImported => exact { Grows.refl s with updates := List.prefix_append _ _ }
  | _ => exact .of_events he rfl rfl rfl rfl rfl rfl

theorem import_grows {answers : Answers} {l : EventWorker.Logon} {ids : Nat → Nat}
    {pc : EventWorker.Pc} {o : Outcome EventWorker.Pc}
    (h : ImportStep env answers l ids s pc s' o) (he : Evolves Ages s.events s'.events)
    (ha : Evolves Renews s.accounts s'.accounts) : Grows s s' := by
  cases h with
  | loggedIn _ => exact { Grows.refl s with accounts := ha }
  | markets => exact { Grows.refl s with markets := List.prefix_append _ _ }
  | selections => exact { Grows.refl s with selections := List.prefix_append _ _ }
  | _ => exact .of_events he rfl rfl rfl rfl rfl rfl

theorem refresh_grows {l : EventWorker.Logon} {answer : Option (List Betfair.MarketBook)}
    {id : Int} {pc : RefreshOddsWorker.Pc} {o : Outcome RefreshOddsWorker.Pc}
    (h : RefreshStep env l answer id s pc s' o)
    (ha : Evolves Renews s.accounts s'.accounts) : Grows s s' := by
  cases h with
  | loggedIn _ => exact { Grows.refl s with accounts := ha }
  | imported => exact { Grows.refl s with books := List.prefix_append _ _ }
  | _ => exact Grows.refl s

end Workers

/-! ## The run -/

theorem copiesKept_init {w : Application} (h : Application.Init w) : CopiesKept w := by
  obtain ⟨now, rfl⟩ := h
  exact ⟨List.nodup_nil, allStand_nil, allStand_nil⟩

/-- The events move, and the copies of the runs that go on are still of stored events. -/
theorem CopiesKept.moves {w v : Application} (h : CopiesKept w)
    (he : EventsMove w.store.events v.store.events)
    (ht : AllStand (fun _ pc => ∀ c ∈ tickCopies pc, Kept w.store.events c) v.ticks)
    (hm : AllStand (fun _ pc => ∀ c ∈ monitorCopies pc, Kept w.store.events c) v.monitors) :
    Evolves Ages w.store.events v.store.events ∧ CopiesKept v := by
  refine ⟨allAge_eventsMove h.ids he, nodup_eventsMove h.ids he, ?_, ?_⟩
  · exact ht.mono (fun _ pc hc c hmem => kept_eventsMove h.ids he (hc c hmem))
  · exact hm.mono (fun _ pc hc c hmem => kept_eventsMove h.ids he (hc c hmem))

/-- **What one step keeps.** -/
theorem grows_moved {w w' : Application} {a : Application.Act} (h : CopiesKept w)
    (hm : Moved env w a w') : Grows w.store w'.store ∧ CopiesKept w' := by
  -- a step that leaves the store alone
  have quiet : w'.store = w.store →
      AllStand (fun _ pc => ∀ c ∈ tickCopies pc, Kept w.store.events c) w'.ticks →
      AllStand (fun _ pc => ∀ c ∈ monitorCopies pc, Kept w.store.events c) w'.monitors →
      Grows w.store w'.store ∧ CopiesKept w' := by
    intro hs ht hm
    have he : EventsMove w.store.events w'.store.events := by rw [hs]; exact .stays
    exact ⟨hs ▸ Grows.refl _, (h.moves he ht hm).2⟩
  have hacc := renews_move (accounts_moved hm)
  cases hm with
  | advanced | booted | scheduledImport | startedImport _ _ _ | raisedImport _ _
  | startedRefresh _ _ _ | raisedRefresh _ _ => exact quiet rfl h.ticks h.monitors
  | created =>
      exact ⟨{ Grows.refl w.store with accounts := hacc }, h.ids, h.ticks, h.monitors⟩
  | edited _ =>
      exact ⟨{ Grows.refl w.store with accounts := hacc }, h.ids, h.ticks, h.monitors⟩
  | stampReset _ =>
      exact ⟨.of_events (.refl Ages.refl _) rfl rfl rfl rfl rfl rfl, h.ids, h.ticks, h.monitors⟩
  | scheduledTick => exact quiet rfl (h.ticks.enqueue [()]) h.monitors
  | startedTick _ _ _ => exact quiet rfl (h.ticks.start (by simp [tickCopies])) h.monitors
  | raisedTick _ _ => exact quiet rfl h.ticks.raise h.monitors
  | startedMonitor _ _ _ => exact quiet rfl h.ticks (h.monitors.start (by simp [monitorCopies]))
  | raisedMonitor _ _ => exact quiet rfl h.ticks h.monitors.raise
  | @ticked i d job pc hj hp =>
      have hstep := odds_step w.now (w.now + d) w.store pc
      have hhere := h.ticks.here hj hp
      have hmoves := h.moves (v := w.afterTick i job (w.now + d) _) (odds_events hstep hhere)
        (h.ticks.settle (fun q hq c hc => (tick_copies hstep hq c hc).elim (hhere c)
          (kept_of_mem h.ids))) (h.monitors.enqueue _)
      exact ⟨odds_grows hstep hmoves.1, hmoves.2⟩
  | @monitored j body job pc hj hp =>
      have hstep := monitor_step env.toConfig job.arg body w.store pc
      have hmoves := h.moves (v := w.afterMonitor j job _)
        (monitor_events hstep (h.monitors.here hj hp)) h.ticks (h.monitors.settle ?_)
      · exact ⟨monitor_grows hstep hmoves.1, hmoves.2⟩
      · intro q hq c hc
        rw [hq] at hstep
        exact kept_of_mem h.ids (monitor_copies hstep c hc)
  | @imported i x answers ids job pc hj hp =>
      have hstep := import_step env answers (x.logon w.now) ids w.store pc
      have hmoves := h.moves (v := w.afterImport i job (w.now + x.total) _)
        (import_events hstep) h.ticks h.monitors
      exact ⟨import_grows hstep hmoves.1 hacc, hmoves.2⟩
  | @refreshed k x answer job pc hj hp =>
      have hstep := refresh_step env (x.logon w.now) answer job.arg w.store pc
      have he : EventsMove w.store.events (w.afterRefresh k job (w.now + x.total)
          (RefreshOddsWorker.step env.md5 env.same env.apiAccount (x.logon w.now) answer job.arg
            w.store pc)).store.events := by
        show EventsMove _ (RefreshOddsWorker.step _ _ _ _ _ _ _ _).1.events
        rw [refresh_events hstep]
        exact .stays
      exact ⟨refresh_grows hstep hacc, (h.moves he h.ticks h.monitors).2⟩

theorem copiesKept_reachable {ok : Application → Application.Act → Prop} {w : Application}
    (h : Reachable (Application.act env) ok Application.Init w) : CopiesKept w :=
  h.invariant (fun _ hw => copiesKept_init hw)
    (fun _ _ _ hw _ hs => (grows_moved hw (act_iff.mp hs)).2)

theorem grows_path {ok : Application → Application.Act → Prop} {w w' : Application}
    (h : Reachable (Application.act env) ok Application.Init w)
    (hp : Lib.Path (Application.act env) ok w w') : Grows w.store w'.store := by
  induction hp with
  | refl => exact Grows.refl _
  | tail hp _ hs ih =>
      have hkept := copiesKept_reachable (h.later hp)
      exact ih.trans (grows_moved hkept (act_iff.mp hs)).1

theorem sameAccount_path {i : Nat} {w w' : Application}
    (hp : Lib.Path (Application.act env) (LeavesAccount i) w w') :
    SameAccount i w.store.accounts w'.store.accounts := by
  induction hp with
  | refl => exact fun a ha => ⟨a, ha, rfl⟩
  | tail _ hok hs ih =>
      intro a ha
      obtain ⟨a', ha', heq⟩ := ih a ha
      obtain ⟨a'', ha'', heq'⟩ := sameAccount_move (accounts_moved (act_iff.mp hs)) hok a' ha'
      exact ⟨a'', ha'', heq'.trans heq⟩

end BetterEfisis.Proof

import BetterEfisis.Proof.OneJob
import BetterEfisis.Proof.Projection

/-!
# Imports whose answers are foreseen

In `Refreshing` the answers an attempt of `EventWorker` gets are the argument of its job, in
the application they come when it asks. So to show that the application refines `Refreshing`
the answers have to be known before they are given: for each way in which the attempts under
way may be answered there is a run of `Refreshing` in which they are (`Foreseen`), and the
answers that do come are one of them.

An attempt that has its batch was answered something that the batch is collected from, and
which of the answers it was makes no difference any more.
-/

namespace BetterEfisis.Proof

open Lib Application

variable {env : Environment}

/-! ## The tables of both workers -/

/-- The stores agree on what the two workers use; of the events these are the ids. -/
structure SameFeed (s u : Store) : Prop where
  tables : refreshStore u = refreshStore s
  ids : u.events.map Event.id = s.events.map Event.id

theorem SameFeed.refl (s : Store) : SameFeed s s := ⟨rfl, rfl⟩

theorem SameFeed.trans {s s' u : Store} (h : SameFeed s s') (h' : SameFeed s u) : SameFeed s' u :=
  ⟨h'.tables.trans h.tables.symm, h'.ids.trans h.ids.symm⟩

theorem SameFeed.accounts {s u : Store} (h : SameFeed s u) : u.accounts = s.accounts := by
  show (refreshStore u).accounts = (refreshStore s).accounts
  rw [h.tables]

theorem SameFeed.markets {s u : Store} (h : SameFeed s u) : u.markets = s.markets := by
  show (refreshStore u).markets = (refreshStore s).markets
  rw [h.tables]

theorem SameFeed.selections {s u : Store} (h : SameFeed s u) : u.selections = s.selections := by
  show (refreshStore u).selections = (refreshStore s).selections
  rw [h.tables]

theorem SameFeed.books {s u : Store} (h : SameFeed s u) : u.books = s.books := by
  show (refreshStore u).books = (refreshStore s).books
  rw [h.tables]

/-- Where the ids are the same, the same events of a batch are let through. -/
theorem importRows_sameIds {t t' u batch : List Event} (h : t'.map Event.id = t.map Event.id)
    (hu : Event.importRows t batch = .ok u) :
    ∃ u', Event.importRows t' batch = .ok u' ∧ u'.map Event.id = u.map Event.id := by
  have hvalid : Event.validation.valid t' = Event.validation.valid t :=
    Validation.valid_of_keys h
  unfold Event.importRows at hu ⊢
  rw [hvalid]
  split at hu
  · rename_i hnodup
    cases hu
    refine ⟨_, if_pos hnodup, ?_⟩
    rw [Validation.importRows, Validation.importRows, hvalid, List.map_append, List.map_append, h]
  · exact absurd hu (by simp)

/-- A statement of `RefreshOddsWorker` does the same on both. -/
theorem refresh_sameFeed (env : Environment) {s u : Store} (h : SameFeed s u)
    (l : EventWorker.Logon) (answer : Option (List Betfair.MarketBook)) (id : Int)
    (pc : RefreshOddsWorker.Pc) :
    (RefreshOddsWorker.step env.md5 env.same env.apiAccount l answer id u pc).2
        = (RefreshOddsWorker.step env.md5 env.same env.apiAccount l answer id s pc).2
      ∧ SameFeed (RefreshOddsWorker.step env.md5 env.same env.apiAccount l answer id s pc).1
        (RefreshOddsWorker.step env.md5 env.same env.apiAccount l answer id u pc).1 := by
  have hu := refresh_refreshStore env.md5 env.same env.apiAccount l answer id u pc
  rw [h.tables, refresh_refreshStore] at hu
  obtain ⟨hstore, hout⟩ := Prod.mk.inj hu
  refine ⟨hout.symm, hstore.symm, ?_⟩
  rw [refresh_events (refresh_step env l answer id u pc),
    refresh_events (refresh_step env l answer id s pc), h.ids]

/--
And so does one of `EventWorker` that does not raise, when it is answered `r`, if this is
what its batch is collected from.
-/
theorem import_sameFeed {answers r : Answers} {l : EventWorker.Logon} {ids : Nat → Nat}
    {s s' u : Store} {pc : EventWorker.Pc} {o : Outcome EventWorker.Pc} (h : SameFeed s u)
    (hw : ImportStep env answers l ids s pc s' o) (ho : o ≠ .raised)
    (hr : ∀ b, o = .next (.importEvents b) →
      EventWorker.collect env.md5 env.parseDate r = .ok b) :
    ∃ u', EventWorker.step env.md5 env.parseDate env.same env.apiAccount r l ids u pc = (u', o)
      ∧ SameFeed s' u' := by
  cases hw with
  | raised => exact absurd rfl ho
  | @loggedIn t ht =>
      refine ⟨{ u with accounts := t }, ?_, ?_, h.ids⟩
      · rw [EventWorker.step, h.accounts, ht]
      · simp only [refreshStore, h.markets, h.selections, h.books]
  | @fetched b hb =>
      refine ⟨u, ?_, h⟩
      rw [EventWorker.step, hr b rfl]
  | @events b t ht =>
      obtain ⟨t', ht', hids⟩ := importRows_sameIds h.ids ht
      refine ⟨{ u with events := t' }, ?_, h.tables, hids⟩
      rw [EventWorker.step, ht']
  | @markets b =>
      refine ⟨{ u with markets := Market.validation.importSaved ids u.markets b.markets }, rfl,
        ?_, h.ids⟩
      simp only [refreshStore, h.accounts, h.markets, h.selections, h.books]
  | @selections b =>
      refine ⟨{ u with
        selections := Selection.validation.importSaved ids u.selections b.selections }, rfl, ?_,
        h.ids⟩
      simp only [refreshStore, h.accounts, h.markets, h.selections, h.books]

/-- A job that is enqueued is not running yet. -/
theorem standsAt_enqueue {arg pc : Type} (l : List (Job arg pc)) (a : arg) (i : Nat) :
    standsAt (l ++ [Job.enqueue a]) i = standsAt l i := by
  rcases Nat.lt_trichotomy i l.length with hi | hi | hi
  · rw [standsAt, standsAt, List.getElem?_append_left hi]
  · subst hi
    simp [standsAt, Job.enqueue, Job.standing]
  · rw [standsAt, standsAt, List.getElem?_eq_none (by simp; omega),
      List.getElem?_eq_none (by omega)]

/-! ## One run of `Refreshing` for each way to be answered -/

/-- What the imports may have been answered: the batch of each is collected from it. -/
def Explains (env : Environment) (ρ : Nat → Answers) (w : Application) : Prop :=
  ∀ i pc b, standsAt w.imports i = some pc → batchOf pc = some b →
    EventWorker.collect env.md5 env.parseDate (ρ i) = .ok b

/--
`Refreshing` is where the application is, the attempt of import `i` being its job at place
`f i`, with the argument `ρ i`.
-/
structure Follows (ρ : Nat → Answers) (f : Nat → Nat) (w : Application) (v : Refreshing) :
    Prop where
  feed : SameFeed w.store v.store
  refreshes : v.refreshes = w.refreshes
  runs : ∀ i pc, standsAt w.imports i = some pc →
    v.imports[f i]? = some ⟨ρ i, .running pc, 0⟩
  /-- Two attempts are two jobs. -/
  apart : ∀ i i' pc pc', standsAt w.imports i = some pc → standsAt w.imports i' = some pc' →
    f i = f i' → i = i'

/-- However the attempts under way are answered, a run of `Refreshing` is. -/
def Foreseen (env : Environment) (w : Application) : Prop :=
  ∀ ρ, Explains env ρ w → ∃ f v,
    Reachable (Refreshing.act env.md5 env.parseDate env.same env.apiAccount) always
      Refreshing.Init v ∧ Follows ρ f w v

/-- Neither worker, nor what it uses, has moved. -/
theorem Foreseen.stays {w w' : Application} (h : Foreseen env w)
    (hfeed : SameFeed w.store w'.store) (hrefreshes : w'.refreshes = w.refreshes)
    (himports : ∀ i, standsAt w'.imports i = standsAt w.imports i) : Foreseen env w' := by
  intro ρ hρ
  have hρ' : Explains env ρ w := fun i pc b hi => hρ i pc b ((himports i).trans hi)
  obtain ⟨f, v, hv, hf⟩ := h ρ hρ'
  refine ⟨f, v, hv, hfeed.trans hf.feed, hf.refreshes.trans hrefreshes.symm, ?_, ?_⟩
  · intro i pc hi
    exact hf.runs i pc ((himports i).symm.trans hi)
  · intro i i' pc pc' hi hi'
    exact hf.apart i i' pc pc' ((himports i).symm.trans hi) ((himports i').symm.trans hi')

/-- A step that is one of `Refreshing` on the refreshes. -/
theorem Foreseen.refreshed {w w' : Application} (h : Foreseen env w)
    (himports : w'.imports = w.imports)
    (hstep : ∀ v, SameFeed w.store v.store → v.refreshes = w.refreshes →
      ∃ v', Lib.Path (Refreshing.act env.md5 env.parseDate env.same env.apiAccount) always v v'
        ∧ SameFeed w'.store v'.store ∧ v'.refreshes = w'.refreshes ∧ v'.imports = v.imports) :
    Foreseen env w' := by
  intro ρ hρ
  have hρ' : Explains env ρ w := fun i pc b hi => hρ i pc b (himports ▸ hi)
  obtain ⟨f, v, hv, hf⟩ := h ρ hρ'
  obtain ⟨v', hpath, hfeed, hrefreshes, himports'⟩ := hstep v hf.feed hf.refreshes
  refine ⟨f, v', hv.later hpath, hfeed, hrefreshes, ?_, ?_⟩
  · rw [himports, himports']
    exact hf.runs
  · rw [himports]
    exact hf.apart

/-- Refreshes are enqueued, one after the other. -/
theorem path_enqueueRefreshes (v : Refreshing) (ids : List Int) :
    Lib.Path (Refreshing.act env.md5 env.parseDate env.same env.apiAccount) always v
      { v with refreshes := v.refreshes ++ ids.map Job.enqueue } := by
  induction ids generalizing v with
  | nil =>
      rw [List.map_nil, List.append_nil]
      exact Lib.Path.refl v
  | cons id ids ih =>
      have hone : Lib.Path (Refreshing.act env.md5 env.parseDate env.same env.apiAccount) always v
          { v with refreshes := v.refreshes ++ [Job.enqueue id] } :=
        Lib.Path.one (a := .enqueueRefresh id) trivial rfl
      have hrest := ih { v with refreshes := v.refreshes ++ [Job.enqueue id] }
      rw [List.append_assoc] at hrest
      exact hone.trans hrest

/-! ## The imports -/

/-- The attempt of import `i` has moved, and the job of `Refreshing` with it. -/
theorem Follows.moves {ρ ρ' : Nat → Answers} {f : Nat → Nat} {w w' : Application}
    {v v' : Refreshing} {i : Nat} {job : Job Unit EventWorker.Pc}
    {jobv : Job Answers EventWorker.Pc} (h : Follows ρ f w v) {pc : EventWorker.Pc}
    (hi : standsAt w.imports i = some pc) (hρ : ∀ i', i' ≠ i → ρ' i' = ρ i')
    (himports : w'.imports = w.imports.set i job)
    (himports' : v'.imports = v.imports.set (f i) jobv)
    (hjob : ∀ pc', job.phase = .running pc' → jobv = ⟨ρ' i, .running pc', 0⟩)
    (hfeed : SameFeed w'.store v'.store) (hrefreshes : v'.refreshes = w'.refreshes) :
    Follows ρ' f w' v' := by
  -- what runs in `w'` ran in `w`
  have before : ∀ {i' : Nat} {pc' : EventWorker.Pc}, standsAt w'.imports i' = some pc' →
      ∃ pc'', standsAt w.imports i' = some pc'' := by
    intro i' pc' h'
    rw [himports] at h'
    by_cases hi' : i' = i
    · exact ⟨pc, hi' ▸ hi⟩
    · rw [standsAt_set_ne hi'] at h'
      exact ⟨pc', h'⟩
  refine ⟨hfeed, hrefreshes, ?_, ?_⟩
  · intro i' pc' h'
    rw [himports] at h'
    rw [himports']
    by_cases hi' : i' = i
    · subst hi'
      obtain ⟨job', hj', hp'⟩ := standsAt_iff.mp h'
      rcases getElem?_set_cases hj' with ⟨_, rfl⟩ | ⟨hne, _⟩
      · rw [← hjob pc' hp']
        exact getElem?_set_here (h.runs i' pc hi)
      · exact absurd rfl hne
    · rw [standsAt_set_ne hi'] at h'
      have hne : f i ≠ f i' := fun heq => hi' (h.apart i i' pc pc' hi h' heq).symm
      rw [List.getElem?_set_ne hne, hρ i' hi']
      exact h.runs i' pc' h'
  · intro i₁ i₂ pc₁ pc₂ h₁ h₂ heq
    obtain ⟨_, hb₁⟩ := before h₁
    obtain ⟨_, hb₂⟩ := before h₂
    exact h.apart i₁ i₂ _ _ hb₁ hb₂ heq

/-- A run of `Refreshing` in which the attempt of import `i` is answered `r`. -/
theorem Foreseen.answered {w w' : Application} (h : Foreseen env w) {i : Nat}
    {job : Job Unit EventWorker.Pc} {pc : EventWorker.Pc} {ρ' : Nat → Answers} {r : Answers}
    (hi : standsAt w.imports i = some pc) (himports : w'.imports = w.imports.set i job)
    (hρ' : Explains env ρ' w')
    (hr : ∀ b, batchOf pc = some b → EventWorker.collect env.md5 env.parseDate r = .ok b) :
    ∃ f v, Reachable (Refreshing.act env.md5 env.parseDate env.same env.apiAccount) always
      Refreshing.Init v ∧ Follows (Function.update ρ' i r) f w v := by
  refine h _ fun i' pc' b h' hb => ?_
  by_cases hi' : i' = i
  · subst hi'
    rw [hi] at h'
    cases h'
    rw [Function.update_self]
    exact hr b hb
  · rw [Function.update_of_ne hi']
    refine hρ' i' pc' b ?_ hb
    rw [himports, standsAt_set_ne hi', h']

/-- The batch of an attempt was collected from some answers. -/
theorem answers_of_batch {w : Application} (h : BatchesMade env w) {i : Nat}
    {job : Job Unit EventWorker.Pc} {pc : EventWorker.Pc} (hj : w.imports[i]? = some job)
    (hp : job.phase = .running pc) :
    ∃ r, ∀ b, batchOf pc = some b → EventWorker.collect env.md5 env.parseDate r = .ok b := by
  cases hb : batchOf pc with
  | none => exact ⟨none, fun b h => absurd h (by simp)⟩
  | some b =>
      obtain ⟨ls, hls⟩ := h.here hj hp b hb
      refine ⟨some ls, fun b' h => ?_⟩
      cases h
      exact hls

/-- An attempt keeps its batch. -/
theorem import_keeps_batch {answers : Answers} {l : EventWorker.Logon} {ids : Nat → Nat}
    {s s' : Store} {pc pc' : EventWorker.Pc} {b : Batch}
    (h : ImportStep env answers l ids s pc s' (.next pc')) (hb : batchOf pc = some b) :
    batchOf pc' = some b := by
  cases h with
  | loggedIn _ | fetched _ => exact absurd hb (by simp [batchOf])
  | events _ | markets => exact hb

/-- Whatever it was answered, an attempt that is over is over. -/
theorem foreseen_raise {w w' : Application} (h : Foreseen env w) (hmade : BatchesMade env w)
    {i : Nat} {job : Job Unit EventWorker.Pc} {pc : EventWorker.Pc}
    (hj : w.imports[i]? = some job) (hp : job.phase = .running pc)
    (himports : w'.imports = w.imports.set i job.raise) (hfeed : SameFeed w.store w'.store)
    (hrefreshes : w'.refreshes = w.refreshes) : Foreseen env w' := by
  intro ρ' hρ'
  obtain ⟨r, hr⟩ := answers_of_batch hmade hj hp
  have hi : standsAt w.imports i = some pc := standsAt_iff.mpr ⟨job, hj, hp⟩
  obtain ⟨f, v, hv, hf⟩ := h.answered hi himports hρ' hr
  have hjobv := hf.runs i pc hi
  rw [Function.update_self] at hjobv
  let v' : Refreshing :=
    { v with imports := v.imports.set (f i) (Job.raise ⟨r, .running pc, 0⟩) }
  have hact : Refreshing.act env.md5 env.parseDate env.same env.apiAccount v (.raiseImport (f i))
      = some v' := by
    simp only [Refreshing.act, hjobv, v']
  refine ⟨f, v', hv.later (Lib.Path.one trivial hact), ?_⟩
  refine hf.moves hi (fun i' hi' => (Function.update_of_ne hi' _ _).symm) himports rfl ?_
    (hfeed.trans hf.feed) (hf.refreshes.trans hrefreshes.symm)
  intro pc' hp'
  exact absurd hp' (job.raise_not_running pc')

/-- A statement of an attempt. -/
theorem foreseen_imported {w : Application} (h : Foreseen env w) (hmade : BatchesMade env w)
    {i : Nat} {x : Waits} {answers : Answers} {ids : Nat → Nat} {job : Job Unit EventWorker.Pc}
    {pc : EventWorker.Pc} (hj : w.imports[i]? = some job) (hp : job.phase = .running pc)
    {s' : Store} {o : Outcome EventWorker.Pc}
    (hw : ImportStep env answers (x.logon w.now) ids w.store pc s' o) :
    Foreseen env (w.afterImport i job (w.now + x.total) (s', o)) := by
  by_cases ho : o = .raised
  · subst ho
    have hs : s' = w.store := by cases hw; rfl
    subst hs
    exact foreseen_raise h hmade hj hp rfl (SameFeed.refl _) rfl
  · intro ρ' hρ'
    have hi : standsAt w.imports i = some pc := standsAt_iff.mpr ⟨job, hj, hp⟩
    -- an attempt that goes on has been answered what it will have been answered
    have hnext : ∀ pc' b, o = .next pc' → batchOf pc' = some b →
        EventWorker.collect env.md5 env.parseDate (ρ' i) = .ok b := by
      rintro pc' b rfl hb
      refine hρ' i pc' b (standsAt_iff.mpr ⟨_, getElem?_set_here hj, rfl⟩) hb
    obtain ⟨r, hr, hsame⟩ : ∃ r,
        (∀ b, batchOf pc = some b → EventWorker.collect env.md5 env.parseDate r = .ok b)
          ∧ ∀ pc', o = .next pc' → r = ρ' i := by
      cases o with
      | raised => exact absurd rfl ho
      | finished =>
          obtain ⟨r, hr⟩ := answers_of_batch hmade hj hp
          exact ⟨r, hr, fun _ h => absurd h (by simp)⟩
      | next pc' =>
          exact ⟨ρ' i, fun b hb => hnext pc' b rfl (import_keeps_batch hw hb), fun _ _ => rfl⟩
    have himports : (w.afterImport i job (w.now + x.total) (s', o)).imports
        = w.imports.set i (job.settle o) := rfl
    obtain ⟨f, v, hv, hf⟩ := h.answered hi himports hρ' hr
    have hjobv := hf.runs i pc hi
    rw [Function.update_self] at hjobv
    obtain ⟨u', hu, hfeed⟩ := import_sameFeed (r := r) hf.feed hw ho fun b hb => by
      rw [hsame _ hb]
      exact hnext _ b hb rfl
    let v' : Refreshing := v.afterImport (f i) ⟨r, .running pc, 0⟩ (u', o)
    have hact : Refreshing.act env.md5 env.parseDate env.same env.apiAccount v
        (.import_ (f i) (x.logon w.now) ids) = some v' := by
      simp only [Refreshing.act, hjobv, hu, v']
    refine ⟨f, v', hv.later (Lib.Path.one trivial hact), ?_⟩
    refine hf.moves hi (fun i' hi' => (Function.update_of_ne hi' _ _).symm) himports rfl ?_
      hfeed hf.refreshes
    intro pc' hp'
    have hnext' := Job.settle_running hp'
    subst hnext'
    rw [Job.settle, hsame pc' rfl]

/-- An import is enqueued, and its attempt begins at once. -/
theorem path_begin (v : Refreshing) (r : Answers) :
    Lib.Path (Refreshing.act env.md5 env.parseDate env.same env.apiAccount) always v
      { v with imports := v.imports ++ [⟨r, .running .login, 0⟩] } := by
  let enqueued : Job Answers EventWorker.Pc := Job.enqueue r
  have hlast : (v.imports ++ [enqueued])[v.imports.length]? = some enqueued :=
    List.getElem?_concat_length
  have hset : (v.imports ++ [enqueued]).set v.imports.length ⟨r, .running .login, 0⟩
      = v.imports ++ [⟨r, .running .login, 0⟩] := by
    simp
  have hstart : enqueued.start .login = some ⟨r, .running .login, 0⟩ := rfl
  refine (Lib.Path.one (a := Refreshing.Act.enqueueImport r) trivial rfl).tail
    (a := .startImport v.imports.length) trivial ?_
  have hact : Refreshing.act env.md5 env.parseDate env.same env.apiAccount
      { v with imports := v.imports ++ [enqueued] } (.startImport v.imports.length)
      = some { v with
        imports := (v.imports ++ [enqueued]).set v.imports.length ⟨r, .running .login, 0⟩ } := by
    simp only [Refreshing.act, hlast, hstart, Option.map_some]
  rw [← hset]
  exact hact

/-- An attempt begins, and the job enqueued last is its job. -/
theorem Follows.begins {ρ : Nat → Answers} {f : Nat → Nat} {w : Application} {v : Refreshing}
    (h : Follows ρ f w v) (i : Nat) (job : Job Unit EventWorker.Pc) :
    Follows ρ (Function.update f i v.imports.length)
      { w with imports := w.imports.set i { job with phase := .running .login } }
      { v with imports := v.imports ++ [⟨ρ i, .running .login, 0⟩] } := by
  -- the jobs there were are in front of it
  have hbefore : ∀ i' pc, standsAt w.imports i' = some pc → f i' < v.imports.length :=
    fun i' pc hi' => (List.getElem?_eq_some_iff.mp (h.runs i' pc hi')).1
  refine ⟨h.feed, h.refreshes, ?_, ?_⟩
  · intro i' pc h'
    by_cases hi' : i' = i
    · subst hi'
      obtain ⟨job', hj', hp'⟩ := standsAt_iff.mp h'
      rcases getElem?_set_cases hj' with ⟨_, rfl⟩ | ⟨hne, _⟩
      · cases hp'
        rw [Function.update_self]
        exact List.getElem?_concat_length
      · exact absurd rfl hne
    · have hold : standsAt w.imports i' = some pc := (standsAt_set_ne hi').symm.trans h'
      rw [Function.update_of_ne hi']
      exact getElem?_snoc_of_some (h.runs i' pc hold)
  · intro i₁ i₂ pc₁ pc₂ h₁ h₂ heq
    by_cases hi₁ : i₁ = i <;> by_cases hi₂ : i₂ = i
    · rw [hi₁, hi₂]
    · subst hi₁
      have hlt := hbefore i₂ pc₂ ((standsAt_set_ne hi₂).symm.trans h₂)
      rw [Function.update_self, Function.update_of_ne hi₂] at heq
      omega
    · subst hi₂
      have hlt := hbefore i₁ pc₁ ((standsAt_set_ne hi₁).symm.trans h₁)
      rw [Function.update_self, Function.update_of_ne hi₁] at heq
      omega
    · rw [Function.update_of_ne hi₁, Function.update_of_ne hi₂] at heq
      exact h.apart i₁ i₂ pc₁ pc₂ ((standsAt_set_ne hi₁).symm.trans h₁)
        ((standsAt_set_ne hi₂).symm.trans h₂) heq

/-- An attempt begins. -/
theorem foreseen_started {w : Application} (h : Foreseen env w) {i : Nat}
    {job : Job Unit EventWorker.Pc} (hj : w.imports[i]? = some job)
    (hno : ∀ pc, job.phase ≠ .running pc) :
    Foreseen env { w with imports := w.imports.set i { job with phase := .running .login } } := by
  intro ρ hρ
  have hρ' : Explains env ρ w := by
    intro i' pc b hi' hb
    have hne : i' ≠ i := by
      rintro rfl
      obtain ⟨job', hj', hp⟩ := standsAt_iff.mp hi'
      rw [hj] at hj'
      cases hj'
      exact hno pc hp
    exact hρ i' pc b ((standsAt_set_ne hne).trans hi') hb
  obtain ⟨f, v, hv, hf⟩ := h ρ hρ'
  -- the job of the attempt is enqueued only now, and begins at once
  exact ⟨_, _, hv.later (path_begin v (ρ i)), hf.begins i job⟩

/-! ## All of it -/

/-- No account is created or edited. -/
def LeavesAccounts (_ : Application) : Application.Act → Prop
  | .createAccount _ _ _ | .editAccount _ _ _ _ => False
  | _ => True

theorem odds_sameFeed {now now' : Int} {s : Store} {pc : OddsWorker.Pc} {r : OddsWorker.Step}
    (h : OddsStep now now' s pc r) : SameFeed s r.store := by
  cases h with
  | saved => exact ⟨rfl, Event.save_ids _ _ _⟩
  | _ => exact ⟨rfl, rfl⟩

theorem monitor_sameFeed {cfg : Config} {id : Int} {body : Body} {s s' : Store}
    {pc : MonitorWEBWorker.Pc} {o : Outcome MonitorWEBWorker.Pc}
    (h : MonitorStep cfg id body s pc s' o) : SameFeed s s' := by
  cases h with
  | inPlaySaved | endedSaved => exact ⟨rfl, Event.update_ids _ _ _ _⟩
  | _ => exact ⟨rfl, rfl⟩

theorem foreseen_moved {w w' : Application} {a : Application.Act} (h : Foreseen env w)
    (hmade : BatchesMade env w) (hok : LeavesAccounts w a) (hm : Moved env w a w') :
    Foreseen env w' := by
  cases hm with
  | created | edited _ => exact absurd hok (by simp [LeavesAccounts])
  | scheduledImport => exact h.stays (SameFeed.refl _) rfl (standsAt_enqueue _ _)
  | startedImport hj _ hno => exact foreseen_started h hj hno
  | raisedImport hj hp => exact foreseen_raise h hmade hj hp rfl (SameFeed.refl _) rfl
  | @imported i x answers ids job pc hj hp =>
      exact foreseen_imported h hmade hj hp
        (import_step env answers (x.logon w.now) ids w.store pc)
  | @monitored j body job pc hj hp =>
      exact h.stays (monitor_sameFeed (monitor_step env.toConfig job.arg body w.store pc)) rfl
        fun _ => rfl
  | @ticked i d job pc hj hp =>
      refine h.refreshed rfl fun v hfeed hrefreshes => ?_
      have hstep := odds_sameFeed (odds_step w.now (w.now + d) w.store pc)
      refine ⟨_, path_enqueueRefreshes v (OddsWorker.step w.now (w.now + d) w.store pc).refreshes,
        hstep.trans hfeed, ?_, rfl⟩
      rw [hrefreshes]
      rfl
  | @startedRefresh k job hj hlive hno =>
      refine h.refreshed rfl fun v hfeed hrefreshes => ?_
      rw [← hrefreshes] at hj
      refine ⟨{ v with refreshes := v.refreshes.set k { job with phase := .running .login } },
        Lib.Path.one (a := .startRefresh k) trivial ?_, hfeed, by rw [hrefreshes], rfl⟩
      simp only [Refreshing.act, hj, Job.start_of_live hlive hno, Option.map_some]
  | @raisedRefresh k job pc hj hp =>
      refine h.refreshed rfl fun v hfeed hrefreshes => ?_
      rw [← hrefreshes] at hj
      refine ⟨{ v with refreshes := v.refreshes.set k job.raise },
        Lib.Path.one (a := .raiseRefresh k) trivial ?_, hfeed, by rw [hrefreshes], rfl⟩
      simp only [Refreshing.act, hj, hp]
  | @refreshed k x answer job pc hj hp =>
      refine h.refreshed rfl fun v hfeed hrefreshes => ?_
      obtain ⟨hout, hsame⟩ := refresh_sameFeed env hfeed (x.logon w.now) answer job.arg pc
      rw [← hrefreshes] at hj
      refine ⟨v.afterRefresh k job (RefreshOddsWorker.step env.md5 env.same env.apiAccount
          (x.logon w.now) answer job.arg v.store pc),
        Lib.Path.one (a := .refresh k (x.logon w.now) answer) trivial ?_, hsame, ?_, rfl⟩
      · simp only [Refreshing.act, hj, hp]
      · simp only [Refreshing.afterRefresh, afterRefresh, hrefreshes, hout]
  | _ => exact h.stays ⟨rfl, rfl⟩ rfl fun _ => rfl

/--
**The application refines `Refreshing`.** From a state in which nothing has been imported and
no import or refresh is enqueued, and as long as no account is created or edited, its markets,
selections and books, its accounts and the ids of its events are in every state those of a run
of `Refreshing`, and so are its refreshes.
-/
theorem application_refines_refreshing {w₀ w : Application} (hstore : Imports.Init w₀.store)
    (himports : w₀.imports = []) (hrefreshes : w₀.refreshes = [])
    (h : Lib.Path (Application.act env) LeavesAccounts w₀ w) :
    ∃ v, Reachable (Refreshing.act env.md5 env.parseDate env.same env.apiAccount) always
        Refreshing.Init v
      ∧ SameFeed w.store v.store ∧ v.refreshes = w.refreshes := by
  have hinv : BatchesMade env w ∧ Foreseen env w := by
    refine h.preserves (I := fun w => BatchesMade env w ∧ Foreseen env w) ?_ ⟨?_, ?_⟩
    · intro w a w' hw hok hs
      have hm := act_iff.mp hs
      exact ⟨batchesMade_moved hw.1 hm, foreseen_moved hw.2 hw.1 hok hm⟩
    · rw [BatchesMade, himports]
      exact allStand_nil
    · intro ρ _
      refine ⟨id, ⟨w₀.store, [], []⟩, Reachable.start ⟨hstore, rfl, rfl⟩,
        ⟨SameFeed.refl _, hrefreshes.symm, ?_, ?_⟩⟩
      · intro i pc hi
        rw [himports] at hi
        exact absurd hi (by simp)
      · intro i i' pc pc' hi
        rw [himports] at hi
        exact absurd hi (by simp)
  -- the batches in hand were collected from something
  have hanswers : ∀ i, ∃ r, ∀ pc b, standsAt w.imports i = some pc → batchOf pc = some b →
      EventWorker.collect env.md5 env.parseDate r = .ok b := by
    intro i
    cases hs : standsAt w.imports i with
    | none => exact ⟨none, fun pc b h => absurd h (by simp)⟩
    | some pc =>
        obtain ⟨job, hj, hp⟩ := standsAt_iff.mp hs
        obtain ⟨r, hr⟩ := answers_of_batch hinv.1 hj hp
        refine ⟨r, fun pc' b h hb => hr b ?_⟩
        cases h
        exact hb
  choose ρ hρ using hanswers
  obtain ⟨_, v, hv, hf⟩ := hinv.2 ρ hρ
  exact ⟨v, hv, hf.feed, hf.refreshes⟩

end BetterEfisis.Proof

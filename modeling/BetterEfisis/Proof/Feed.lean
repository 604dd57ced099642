import BetterEfisis.Proof.Collected
import BetterEfisis.Refreshing

/-!
# What imports and refreshes do to each other

What a step of either worker can do to the selections, and to the markets that the
refreshes have selected (`feed_cases`). An import hands over the batch it has
made of what it was answered, which is the invariant this needs.
-/

namespace BetterEfisis.Proof

open Lib Betfair Refreshing

variable {md5 : String → String} {parseDate : String → Option Int}
  {same : String → String → Bool} {apiAccount : List Account → Option Account}

/-! ## What is selected -/

theorem mem_selected {w : Refreshing} {k : Nat} {id : String} :
    id ∈ w.selected k ↔ ∃ job pc, w.refreshes[k]? = some job ∧ job.phase = .running pc
      ∧ id ∈ pc.selected := by
  unfold selected
  constructor
  · intro h
    split at h
    · rename_i pc hpc
      obtain ⟨job, hj, hp⟩ := standsAt_iff.mp hpc
      exact ⟨job, pc, hj, hp, h⟩
    · exact absurd h List.not_mem_nil
  · intro h
    obtain ⟨job, pc, hj, hp, hid⟩ := h
    rw [standsAt_iff.mpr ⟨job, hj, hp⟩]
    exact hid

/-- No run has selected anything that it had not before. -/
def SelectsNothing (w w' : Refreshing) : Prop :=
  ∀ k, ∀ id ∈ w'.selected k, id ∈ w.selected k

theorem selectsNothing_of_same {w w' : Refreshing} (h : w'.refreshes = w.refreshes) :
    SelectsNothing w w' := by
  intro k id hid
  unfold selected at hid ⊢
  rwa [h] at hid

/-- One job has been replaced, by one that has selected no more. -/
theorem selectsNothing_of_set {w w' : Refreshing} {k : Nat} {job : Job Int RefreshOddsWorker.Pc}
    (h : w'.refreshes = w.refreshes.set k job)
    (hjob : ∀ pc, job.phase = .running pc → ∀ id ∈ pc.selected, id ∈ w.selected k) :
    SelectsNothing w w' := by
  intro j id hid
  obtain ⟨job', pc, hj, hp, hmem⟩ := mem_selected.mp hid
  rw [h] at hj
  rcases getElem?_set_cases hj with ⟨rfl, rfl⟩ | ⟨_, hj'⟩
  · exact hjob pc hp id hmem
  · exact mem_selected.mpr ⟨job', pc, hj', hp, hmem⟩

/-! ## What is imported -/

/-- The batch that a run is about to import. -/
def batchOf : EventWorker.Pc → Option Batch
  | .importEvents b | .importMarkets b | .importSelections b => some b
  | _ => none

/-- What the runs import are the batches made of what they are answered. -/
def Batched (md5 : String → String) (parseDate : String → Option Int)
    (w : Refreshing) : Prop :=
  ∀ (i : Nat) (job : Job Answers EventWorker.Pc) (pc : EventWorker.Pc) (b : Batch),
    w.imports[i]? = some job → job.phase = .running pc → batchOf pc = some b →
      EventWorker.collect md5 parseDate job.arg = .ok b

theorem batched_of_set {w w' : Refreshing} {i : Nat} {job : Job Answers EventWorker.Pc}
    (h : Batched md5 parseDate w) (hw : w'.imports = w.imports.set i job)
    (hjob : ∀ pc b, job.phase = .running pc → batchOf pc = some b →
      EventWorker.collect md5 parseDate job.arg = .ok b) : Batched md5 parseDate w' := by
  intro j job' pc b hj hp hb
  rw [hw] at hj
  rcases getElem?_set_cases hj with ⟨_, rfl⟩ | ⟨_, hj'⟩
  · exact hjob pc b hp hb
  · exact h j job' pc b hj' hp hb

/-- A statement goes on with the batch it has, or has just collected. -/
theorem step_batch {r : Answers} {lg : EventWorker.Logon} {ids : Nat → Nat} {s : Store}
    {pc pc' : EventWorker.Pc} {b : Batch}
    (ho : (EventWorker.step md5 parseDate same apiAccount r lg ids s pc).2 = .next pc')
    (hb : batchOf pc' = some b) :
    batchOf pc = some b ∨ EventWorker.collect md5 parseDate r = .ok b := by
  cases pc with
  | login =>
      rw [EventWorker.step] at ho
      split at ho
      · cases ho
        exact absurd hb (by simp [batchOf])
      · exact absurd ho (by simp)
  | fetch =>
      rw [EventWorker.step] at ho
      split at ho
      · rename_i b' hc
        cases ho
        cases hb
        exact Or.inr hc
      · exact absurd ho (by simp)
  | importEvents b' =>
      rw [EventWorker.step] at ho
      split at ho
      · cases ho
        exact Or.inl hb
      · exact absurd ho (by simp)
  | importMarkets b' =>
      cases ho
      exact Or.inl hb
  | importSelections b' => exact absurd ho (by simp [EventWorker.step])

theorem batched_step {w w' : Refreshing} {a : Act} (h : Batched md5 parseDate w)
    (hs : Refreshing.act md5 parseDate same apiAccount w a = some w') :
    Batched md5 parseDate w' := by
  cases Refreshing.act_cases md5 parseDate same apiAccount hs with
  | enqueuedImport =>
      intro i job pc b hj hp hb
      rcases getElem?_snoc_cases hj with hold | ⟨_, rfl⟩
      · exact h i job pc b hold hp hb
      · exact absurd hp (by simp [Job.enqueue])
  | startedImport hj =>
      refine batched_of_set h rfl ?_
      intro pc b hp hb
      cases hp
      exact absurd hb (by simp [batchOf])
  | imported hj hp =>
      refine batched_of_set h rfl ?_
      intro pc' b hp' hb
      rw [Job.settle_arg]
      rcases step_batch (Job.settle_running hp') hb with hold | hnew
      · exact h _ _ _ b hj hp hold
      · exact hnew
  | @raisedImport i job hj =>
      refine batched_of_set h rfl ?_
      intro pc b hp _
      exact absurd hp (job.raise_not_running pc)
  | enqueuedRefresh => exact h
  | startedRefresh hj => exact h
  | refreshed hj hp =>
      exact h
  | raisedRefresh hj => exact h

/-! ## What a step can do -/

/-- What a step can do to the selections, the selected markets and the notes. -/
inductive FeedStep (md5 : String → String) (l l' : Logged Refreshing Note) : Act → Prop where
  | quiet {a : Act} : loads l.state a = [] →
      l'.state.store.selections = l.state.store.selections →
      SelectsNothing l.state l'.state → l'.log = l.log → FeedStep md5 l l' a
  /-- A refresh reads its markets. -/
  | loaded {k : Nat} {lg : EventWorker.Logon} {answer : Option (List MarketBook)} :
      l'.state.store = l.state.store →
      l'.state.selected k = loads l.state (.refresh k lg answer) →
      (∀ j, j ≠ k → l'.state.selected j = l.state.selected j) → l'.log = l.log →
      FeedStep md5 l l' (.refresh k lg answer)
  | markets {i : Nat} {lg : EventWorker.Logon} {ids : Nat → Nat} {r : Answers}
      {b : Batch} {retries : Nat} :
      l.state.imports[i]? = some ⟨r, .running (.importMarkets b), retries⟩ →
      l'.state.store.selections = l.state.store.selections →
      l'.state.refreshes = l.state.refreshes →
      l'.log = l.log ++ done r (.importMarkets b) →
      FeedStep md5 l l' (.import_ i lg ids)
  | selections {i : Nat} {lg : EventWorker.Logon} {ids : Nat → Nat} {r : Answers}
      {b : Batch} {retries : Nat} :
      l.state.imports[i]? = some ⟨r, .running (.importSelections b), retries⟩ →
      l'.state.store.selections = Selection.validation.importSaved ids
        l.state.store.selections ((processed (r.getD [])).flatMap (Entry.selections md5)) →
      l'.state.refreshes = l.state.refreshes →
      l'.log = l.log ++ done r (.importSelections b) →
      FeedStep md5 l l' (.import_ i lg ids)

/-- What a refresh goes on with has not selected any more, unless it has just read its markets. -/
theorem step_selected {eventId : Int} {lg : EventWorker.Logon} {answer : Option (List MarketBook)}
    {s : Store} {pc pc' : RefreshOddsWorker.Pc}
    (ho : (RefreshOddsWorker.step md5 same apiAccount lg answer eventId s pc).2 = .next pc')
    (hpc : pc ≠ .load) : ∀ id ∈ pc'.selected, id ∈ pc.selected := by
  intro id hid
  cases pc with
  | load => exact absurd rfl hpc
  | login =>
      simp only [RefreshOddsWorker.step] at ho
      split at ho
      · cases ho
        exact hid
      · exact absurd ho (by simp)
  | ask ids groups books =>
      cases groups with
      | nil => exact absurd ho (by simp [RefreshOddsWorker.step])
      | cons g groups =>
          simp only [RefreshOddsWorker.step] at ho
          split at ho
          · split at ho <;> cases ho <;> exact hid
          · exact absurd ho (by simp)
  | parse ids results groups books =>
      cases results with
      | nil =>
          cases ho
          exact hid
      | cons m results =>
          simp only [RefreshOddsWorker.step] at ho
          split at ho
          · cases ho
            exact hid
          · exact absurd ho (by simp)

/-- A refresh writes no selections. -/
theorem step_selections (md5 : String → String) (same : String → String → Bool)
    (apiAccount : List Account → Option Account)
    (eventId : Int) (lg : EventWorker.Logon) (answer : Option (List MarketBook)) (s : Store)
    (pc : RefreshOddsWorker.Pc) :
    (RefreshOddsWorker.step md5 same apiAccount lg answer eventId s pc).1.selections
      = s.selections := by
  unfold RefreshOddsWorker.step
  split
  · split <;> rfl
  · split <;> rfl
  · rfl
  · split
    · split <;> rfl
    · rfl
  · rfl
  · split <;> rfl

/-- A step of a refresh. -/
theorem feed_refreshed {l l' : Logged Refreshing Note} {k : Nat} {lg : EventWorker.Logon}
    {answer : Option (List MarketBook)} {job : Job Int RefreshOddsWorker.Pc}
    {pc : RefreshOddsWorker.Pc} (hj : l.state.refreshes[k]? = some job)
    (hp : job.phase = .running pc)
    (hw : l'.state = l.state.afterRefresh k job
      (RefreshOddsWorker.step md5 same apiAccount lg answer job.arg l.state.store pc))
    (hlog : l'.log = l.log) : FeedStep md5 l l' (.refresh k lg answer) := by
  have hselections := step_selections md5 same apiAccount job.arg lg answer l.state.store pc
  -- nothing is selected unless the markets are read
  have stays : loads l.state (.refresh k lg answer) = [] →
      (∀ pc', (RefreshOddsWorker.step md5 same apiAccount lg answer job.arg l.state.store pc).2
        = .next pc' → ∀ id ∈ pc'.selected, id ∈ pc.selected) →
      FeedStep md5 l l' (.refresh k lg answer) := by
    intro hno hstays
    refine .quiet hno (by rw [hw]; exact hselections) ?_ hlog
    refine selectsNothing_of_set (k := k) (by rw [hw]; rfl) ?_
    intro pc' hp' id hid
    exact mem_selected.mpr ⟨job, pc, hj, hp, hstays pc' (Job.settle_running hp') id hid⟩
  obtain ⟨eventId, phase, retries⟩ := job
  dsimp only at hp
  subst hp
  by_cases hload : pc = .load
  · subst hload
    cases hm : RefreshOddsWorker.marketArray l.state.store.markets eventId with
    | error x =>
        refine stays ?_ ?_
        · simp only [loads, hj, hm]
        · intro pc' ho
          simp only [RefreshOddsWorker.step, hm] at ho
          exact absurd ho (by simp)
    | ok ids =>
        have hrefreshes : l'.state.refreshes = l.state.refreshes.set k
            ⟨eventId, .running (.ask ids (RefreshOddsWorker.inGroupsOf 10 ids) []), retries⟩ := by
          rw [hw]
          simp only [afterRefresh, RefreshOddsWorker.step, hm, Job.settle]
        refine .loaded ?_ ?_ ?_ hlog
        · rw [hw]
          simp only [afterRefresh, RefreshOddsWorker.step, hm]
        · simp only [loads, hj, hm, selected, hrefreshes]
          rw [standsAt_iff.mpr ⟨_, getElem?_set_here hj, rfl⟩]
          rfl
        · intro j hjk
          unfold selected
          rw [hrefreshes, standsAt_set_ne hjk]
  · refine stays ?_ (fun pc' ho => step_selected ho hload)
    simp only [loads, hj]
    cases pc with
    | load => exact absurd rfl hload
    | _ => rfl

/-- A step of an import. -/
theorem feed_imported {l l' : Logged Refreshing Note} {i : Nat} {lg : EventWorker.Logon}
    {ids : Nat → Nat} {job : Job Answers EventWorker.Pc} {pc : EventWorker.Pc}
    (hb : Batched md5 parseDate l.state) (hj : l.state.imports[i]? = some job)
    (hp : job.phase = .running pc)
    (hw : l'.state = l.state.afterImport i job
      (EventWorker.step md5 parseDate same apiAccount job.arg lg ids l.state.store pc))
    (hlog : l'.log = l.log ++ done job.arg pc) :
    FeedStep md5 l l' (.import_ i lg ids) := by
  -- nothing is noted of a statement that hands nothing over
  have stays : done job.arg pc = [] →
      (EventWorker.step md5 parseDate same apiAccount job.arg lg ids l.state.store pc).1.selections
        = l.state.store.selections → FeedStep md5 l l' (.import_ i lg ids) := by
    intro hnone hselections
    refine .quiet rfl (by rw [hw]; exact hselections) ?_ ?_
    · exact selectsNothing_of_same (by rw [hw]; rfl)
    · rw [hlog, hnone, List.append_nil]
  obtain ⟨r, phase, retries⟩ := job
  simp only at hp
  subst hp
  have lists : ∀ b, batchOf pc = some b →
      b.selections = (processed (r.getD [])).flatMap (Entry.selections md5) := by
    intro b hpc
    have hcollect := hb i _ pc b hj rfl hpc
    cases r with
    | none => exact absurd hcollect (by simp [EventWorker.collect, bind, Except.bind])
    | some ls => exact (collect_lists hcollect).2
  cases pc with
  | login =>
      refine stays rfl ?_
      rw [EventWorker.step]
      split <;> rfl
  | fetch =>
      refine stays rfl ?_
      rw [EventWorker.step]
      split <;> rfl
  | importEvents b =>
      refine stays rfl ?_
      rw [EventWorker.step]
      split <;> rfl
  | importMarkets b => exact .markets hj (by rw [hw]; rfl) (by rw [hw]; rfl) hlog
  | importSelections b =>
      refine .selections hj ?_ (by rw [hw]; rfl) hlog
      rw [hw, ← lists b rfl]
      rfl

/-- **What a step can do.** -/
theorem feed_cases {l l' : Logged Refreshing Note} {a : Act} (hb : Batched md5 parseDate l.state)
    (hs : logged (Refreshing.act md5 parseDate same apiAccount) notes l a = some l') :
    FeedStep md5 l l' a := by
  obtain ⟨hact, hlog⟩ := logged_eq_some.mp hs
  obtain ⟨w', log'⟩ := l'
  dsimp only at hact hlog
  cases Refreshing.act_cases md5 parseDate same apiAccount hact with
  | enqueuedImport =>
      exact .quiet rfl rfl (selectsNothing_of_same rfl) (by rw [hlog]; exact List.append_nil _)
  | startedImport hj =>
      exact .quiet rfl rfl (selectsNothing_of_same rfl) (by rw [hlog]; exact List.append_nil _)
  | imported hj hp =>
      refine feed_imported hb hj hp rfl ?_
      simp only [hlog, notes, hj, hp]
  | raisedImport hj =>
      exact .quiet rfl rfl (selectsNothing_of_same rfl) (by rw [hlog]; exact List.append_nil _)
  | enqueuedRefresh =>
      refine .quiet rfl rfl ?_ (by rw [hlog]; exact List.append_nil _)
      intro k id hid
      obtain ⟨job, pc, hj, hp, hmem⟩ := mem_selected.mp hid
      rcases getElem?_snoc_cases hj with hold | ⟨_, rfl⟩
      · exact mem_selected.mpr ⟨job, pc, hold, hp, hmem⟩
      · exact absurd hp (by simp [Job.enqueue])
  | startedRefresh hj =>
      refine .quiet rfl rfl (selectsNothing_of_set rfl ?_) (by rw [hlog]; exact List.append_nil _)
      intro pc hp id hid
      cases hp
      exact absurd hid List.not_mem_nil
  | refreshed hj hp =>
      exact feed_refreshed hj hp rfl (by rw [hlog]; exact List.append_nil _)
  | @raisedRefresh k job hj =>
      refine .quiet rfl rfl (selectsNothing_of_set rfl ?_) (by rw [hlog]; exact List.append_nil _)
      intro pc hp
      exact absurd hp (job.raise_not_running pc)

/-! ## A refresh on its own -/

/-- The system with the run of job `k` at the place `pc`. -/
def runsAt (w : Refreshing) (k : Nat) (eventId : Int) (retries : Nat)
    (pc : RefreshOddsWorker.Pc) : Refreshing :=
  { w with refreshes := w.refreshes.set k ⟨eventId, .running pc, retries⟩ }

/-- The run executes its next statement. -/
theorem path_refresh {v w : Refreshing} {k : Nat} {eventId : Int} {retries : Nat}
    {pc : RefreshOddsWorker.Pc} (hk : k < w.refreshes.length) (lg : EventWorker.Logon)
    (answer : Option (List MarketBook))
    (h : Lib.Path (Refreshing.act md5 parseDate same apiAccount) always v
      (runsAt w k eventId retries pc)) :
    Lib.Path (Refreshing.act md5 parseDate same apiAccount) always v
      { w with
        store := (RefreshOddsWorker.step md5 same apiAccount lg answer eventId w.store pc).1
        refreshes := w.refreshes.set k (Job.settle ⟨eventId, .running pc, retries⟩
          (RefreshOddsWorker.step md5 same apiAccount lg answer eventId w.store pc).2) } := by
  refine Lib.Path.tail h trivial (a := .refresh k lg answer) ?_
  have hjob : (runsAt w k eventId retries pc).refreshes[k]?
      = some ⟨eventId, .running pc, retries⟩ := List.getElem?_set_self hk
  simp only [Refreshing.act, hjob]
  simp only [afterRefresh, runsAt, List.set_set]

/-- It parses the market books of an answer, one after the other. -/
theorem path_parse {v w : Refreshing} {k : Nat} {eventId : Int} {retries : Nat}
    (hk : k < w.refreshes.length) (lg : EventWorker.Logon) {ids : List String}
    {groups : List (List (Option String))} {results : List MarketBook} {books books' : List Book}
    (hb : results.foldlM (fun _ runners => parseRunners w.store.selections runners) books
      = .ok books')
    (h : Lib.Path (Refreshing.act md5 parseDate same apiAccount) always v
      (runsAt w k eventId retries (.parse ids results groups books))) :
    Lib.Path (Refreshing.act md5 parseDate same apiAccount) always v
      (runsAt w k eventId retries (.ask ids groups books')) := by
  induction results generalizing books with
  | nil =>
      cases hb
      exact path_refresh hk lg none h
  | cons m results ih =>
      rw [List.foldlM_cons] at hb
      obtain ⟨books₁, hparse, hb⟩ := bind_eq_ok.mp hb
      have hnext := path_refresh hk lg none h
      simp only [RefreshOddsWorker.step, hparse] at hnext
      exact ih hb hnext

/-- It asks for the books group by group, and imports what the last one has left. -/
theorem path_collect {v w : Refreshing} {k : Nat} {eventId : Int} {retries : Nat}
    (hk : k < w.refreshes.length) (lg : EventWorker.Logon) {ids : List String}
    (getMarketBook : Nat → List (Option String) → Option (List MarketBook))
    {groups : List (List (Option String))} {n : Nat} {books bs : List Book}
    (hb : RefreshOddsWorker.collect getMarketBook w.store.selections n books groups = .ok bs)
    (h : Lib.Path (Refreshing.act md5 parseDate same apiAccount) always v
      (runsAt w k eventId retries (.ask ids groups books))) :
    Lib.Path (Refreshing.act md5 parseDate same apiAccount) always v
      { w with
        store := { w.store with books := w.store.books ++ bs }
        refreshes := w.refreshes.set k ⟨eventId, .finished, retries⟩ } := by
  induction groups generalizing n books with
  | nil =>
      cases hb
      exact path_refresh hk lg none h
  | cons m groups ih =>
      rw [RefreshOddsWorker.collect] at hb
      obtain ⟨result, hresult, hb⟩ := bind_eq_ok.mp hb
      have hnext := path_refresh hk lg (some result) h
      simp only [RefreshOddsWorker.step] at hnext
      by_cases hpos : result.length > 0
      · simp only [if_pos hpos] at hb hnext
        obtain ⟨books₁, hbooks, hb⟩ := bind_eq_ok.mp hb
        exact ih hb (path_parse hk lg hbooks hnext)
      · simp only [if_neg hpos] at hb hnext
        obtain ⟨books₁, hbooks, hb⟩ := bind_eq_ok.mp hb
        cases hbooks
        exact ih hb hnext

/-- **The run that nothing gets in between of is `perform`.** -/
theorem path_perform_refresh {w : Refreshing} {k : Nat} {eventId : Int} {retries : Nat}
    (hk : k < w.refreshes.length) (lg : EventWorker.Logon)
    (getMarketBook : Nat → List (Option String) → Option (List MarketBook)) {s' : Store}
    (hp : RefreshOddsWorker.perform getMarketBook w.store eventId = .ok s') :
    Lib.Path (Refreshing.act md5 parseDate same apiAccount) always
      (runsAt w k eventId retries .load)
      { w with store := s', refreshes := w.refreshes.set k ⟨eventId, .finished, retries⟩ } := by
  obtain ⟨bs, hbs, hp⟩ := bind_eq_ok.mp hp
  cases hp
  obtain ⟨ids, hids, hcollect⟩ := bind_eq_ok.mp hbs
  have hstart : Lib.Path (Refreshing.act md5 parseDate same apiAccount) always
      (runsAt w k eventId retries .load) (runsAt w k eventId retries .load) := Lib.Path.refl _
  have hload := path_refresh hk lg none hstart
  simp only [RefreshOddsWorker.step, hids] at hload
  exact path_collect hk lg getMarketBook hcollect hload

end BetterEfisis.Proof

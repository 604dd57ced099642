import BetterEfisis.Proof.Key

/-!
# The stored timeline

`Update.import` stands between the deletion of the key and the ENDED write, with
no transaction around them and no uniqueness on the rows. An attempt that raises
after the import is started again from the waiting loop, where it either imports
the timeline a second time or gives up; one that raises before it may give up
without having imported anything (`timeline_twice_or_lost`).

Where an attempt imports only as long as nothing is stored, and gives up only if
the match never began or the last timeline seen is the stored one, the rows of an
ended match are the entries of that timeline.
-/

namespace BetterEfisis.Proof

open Lib MonitorWEBWorker

/-- Row `r` has the time and the type of entry `u`. -/
def isRowOf (u : UpdateDetail) (r : Update) : Bool :=
  decide (r.matchTime = u.matchTime ∧ r.updateType = u.type)

/-- Entry `v` has the time and the type of entry `u`. -/
def isLike (u v : UpdateDetail) : Bool :=
  decide (v.matchTime = u.matchTime ∧ v.type = u.type)

/-- No entry is stored more often than it stands in one of the timelines seen. -/
def NoneTwice (id : Int) (w : Solo) : Prop :=
  ∀ u : UpdateDetail, (Update.ofEvent w.store.updates id).countP (isRowOf u) ≠ 0 →
    ∃ t ∈ w.seen, ∃ us, t.updateDetails = some us
      ∧ (Update.ofEvent w.store.updates id).countP (isRowOf u) ≤ us.countP (isLike u)

/-- The rows are those of one import: the entries of one timeline seen, each once, in order. -/
def OfOneTimeline (id : Int) (w : Solo) : Prop :=
  ∃ us h a, (us = [] ∨ ∃ t ∈ w.seen, t.updateDetails = some us)
    ∧ Update.ofEvent w.store.updates id = updatesToDb id h a us

/-- After IN_PLAY and then ENDED the rows are the entries of the last timeline seen, in order. -/
def AllStored (id : Int) (w : Solo) : Prop :=
  [(id, Status.inPlay), (id, Status.ended)].Sublist w.store.statusLog →
    ∃ us h a, w.lastEntries = some us
      ∧ Update.ofEvent w.store.updates id = updatesToDb id h a us

/--
The steps that keep the timeline: an attempt imports only while no row of the
event is stored, and it gives up waiting only if IN_PLAY has not been written or
what was imported so far are the entries of the last timeline seen.
-/
def KeepsTimeline (w : Solo) : Solo.Act → Prop
  | .perform _ =>
      match w.job.phase with
      | .running (.importUpdates _ _) => Update.ofEvent w.store.updates w.job.arg = []
      | .running (.waiting 200) =>
          (w.job.arg, .inPlay) ∈ w.store.statusLog → w.lastEntries = some w.imported
      | _ => True
  | _ => True

instance (w : Solo) : (a : Solo.Act) → Decidable (KeepsTimeline w a)
  | .perform _ => by dsimp only [KeepsTimeline]; split <;> infer_instance
  | .start | .raise | .others _ => inferInstanceAs (Decidable True)

/-- What a run at `pc` knows of the timeline it has seen last. -/
def Knows (w : Solo) : Pc → Prop
  | .snapshot _ _ t => w.seen.getLast? = some t
  | .delKey _ us | .importUpdates _ us => w.lastEntries = us
  | .loadEnded | .saveEnded _ =>
      (w.job.arg, .inPlay) ∈ w.store.statusLog → w.lastEntries = some w.imported
  | _ => True

structure RowInv (id : Int) (w : Solo) : Prop where
  arg : w.job.arg = id
  /-- The rows are those of the entries imported last, -/
  rows : ∃ h a, Update.ofEvent w.store.updates id = updatesToDb id h a w.imported
  /-- which are those of a timeline seen. -/
  source : w.imported = [] ∨ ∃ t ∈ w.seen, t.updateDetails = some w.imported
  running : ∀ pc, w.job.phase = .running pc → Knows w pc
  /-- ENDED is the last thing the job writes. -/
  ended : (id, .ended) ∈ w.store.statusLog → w.job.phase = .finished
    ∧ ((id, .inPlay) ∈ w.store.statusLog → w.lastEntries = some w.imported)

theorem rowInv_init {id : Int} {w : Solo} (h : Solo.Init id w) : RowInv id w where
  arg := by rw [h.job]; rfl
  rows := ⟨none, none, by rw [h.rows, h.imported]; rfl⟩
  source := Or.inl h.imported
  running := by
    intro pc hp
    rw [h.job] at hp
    exact absurd hp (by simp [Job.enqueue])
  ended := fun hmem => absurd hmem (h.log .ended)

/-- An early statement needs to know nothing. -/
theorem knows_of_early {w : Solo} {pc : Pc} (h : early pc = true) : Knows w pc := by
  cases pc <;> trivial

/-- The last timeline seen is still the last one after a statement that polls nothing. -/
theorem lastEntries_unpolled {w : Solo} {body : Body} {pc : Pc} (h : Solo.polled body pc = [])
    (s : Store) (job : Job Int MonitorWEBWorker.Pc) (us : List UpdateDetail) :
    Solo.lastEntries ⟨s, job, w.seen ++ Solo.polled body pc, us⟩ = w.lastEntries := by
  unfold Solo.lastEntries
  rw [h, List.append_nil]

theorem source_mono {seen more : List Timeline} {us : List UpdateDetail}
    (h : us = [] ∨ ∃ t ∈ seen, t.updateDetails = some us) :
    us = [] ∨ ∃ t ∈ seen ++ more, t.updateDetails = some us := by
  rcases h with h | ⟨t, ht, hus⟩
  · exact Or.inl h
  · exact Or.inr ⟨t, List.mem_append_left _ ht, hus⟩

/-- What a statement preserves. -/
theorem rowInv_perform {id : Int} {w : Solo} {body : Body} {pc : Pc} {s : Store} {o : Outcome Pc}
    (h : RowInv id w) (hok : KeepsTimeline w (.perform body)) (hp : w.job.phase = .running pc)
    (hmove : Move id body w.store s pc o) :
    RowInv id ⟨s, w.job.settle o, w.seen ++ Solo.polled body pc, Solo.kept w.imported pc⟩ := by
  have hset : (w.job.settle o).arg = id := (w.job.settle_arg o).trans h.arg
  have hno := not_ended_of_running (fun hmem => (h.ended hmem).1) hp
  have hknow := h.running pc hp
  -- the rows and what is kept are unchanged unless the statement is the import
  have goes : ∀ pc', o = .next pc' → Solo.kept w.imported pc = w.imported →
      Update.ofEvent s.updates id = Update.ofEvent w.store.updates id →
      ((id, .ended) ∈ s.statusLog → (id, .ended) ∈ w.store.statusLog) →
      Knows ⟨s, w.job.settle o, w.seen ++ Solo.polled body pc, Solo.kept w.imported pc⟩ pc' →
      RowInv id ⟨s, w.job.settle o, w.seen ++ Solo.polled body pc,
        Solo.kept w.imported pc⟩ := by
    intro pc' ho hkept hrows hlog hkn
    subst ho
    refine ⟨hset, ?_, ?_, ?_, fun hmem => absurd (hlog hmem) hno⟩
    · obtain ⟨x, y, hxy⟩ := h.rows
      exact ⟨x, y, by rw [hkept, ← hxy]; exact hrows⟩
    · rw [hkept]
      exact source_mono h.source
    · intro pc'' hp'
      cases hp'
      exact hkn
  cases hmove with
  | early hrows hlog hkept he =>
      refine goes _ rfl (hkept _) hrows ?_ (knows_of_early he)
      intro hmem
      exact (mem_of_logGrows hlog hmem).resolve_right (by simp)
  | gaveUp he =>
      -- the one way to the ENDED write that does not pass the import
      subst he
      refine goes _ rfl rfl rfl (fun hmem => hmem) ?_
      intro hmem
      rw [KeepsTimeline, hp] at hok
      have hpolled : Solo.polled body (.waiting 200) = [] := by cases body <;> rfl
      rw [lastEntries_unpolled hpolled]
      rw [Job.settle_arg] at hmem
      exact hok hmem
  | @polled m sc sc' t he hb =>
      subst he
      subst hb
      refine goes _ rfl rfl rfl (fun hmem => hmem) ?_
      show (w.seen ++ [t]).getLast? = some t
      simp
  | seenEnd hrows hlog =>
      refine goes _ rfl rfl hrows (fun hmem => by rw [hlog] at hmem; exact hmem) ?_
      show Solo.lastEntries _ = _
      rw [lastEntries_unpolled rfl, Solo.lastEntries, hknow]
      rfl
  | deleted _ hrows hlog =>
      refine goes _ rfl rfl hrows (fun hmem => by rw [hlog] at hmem; exact hmem) ?_
      show Solo.lastEntries _ = _
      rw [lastEntries_unpolled rfl]
      exact hknow
  | @imported m us _ hrows hlog =>
      -- the one statement that stores rows, and none is stored yet
      have hempty : Update.ofEvent w.store.updates id = [] := by
        rw [KeepsTimeline, hp, h.arg] at hok
        exact hok
      rw [hempty, List.nil_append] at hrows
      have hlast : w.lastEntries = some us := hknow
      refine ⟨hset, ⟨m.runnerHome, m.runnerAway, hrows⟩, ?_, ?_, fun hmem => ?_⟩
      · obtain ⟨t, ht, hus⟩ := Option.bind_eq_some_iff.mp hlast
        exact source_mono (Or.inr ⟨t, List.mem_of_getLast? ht, hus⟩)
      · intro pc' hp'
        cases hp'
        intro _
        rw [lastEntries_unpolled rfl]
        exact hlast
      · rw [hlog] at hmem
        exact absurd hmem hno
  | loaded he =>
      subst he
      refine goes _ rfl rfl rfl (fun hmem => hmem) ?_
      intro hmem
      rw [Job.settle_arg] at hmem
      rw [lastEntries_unpolled rfl]
      exact hknow hmem
  | finished _ hrows hlog =>
      refine ⟨hset, ?_, source_mono h.source, ?_, fun _ => ⟨rfl, fun hmem => ?_⟩⟩
      · obtain ⟨x, y, hxy⟩ := h.rows
        exact ⟨x, y, hrows.trans hxy⟩
      · intro pc' hp'
        exact absurd hp' (by simp [Job.settle])
      · have hold := (mem_of_logGrows hlog hmem).resolve_right (by simp)
        rw [← h.arg] at hold
        rw [lastEntries_unpolled rfl]
        exact hknow hold
  | raised he hkept =>
      subst he
      rw [hkept]
      refine ⟨hset, h.rows, source_mono h.source, ?_, fun hmem => absurd hmem hno⟩
      · intro pc' hp'
        exact absurd hp' (w.job.raise_not_running pc')

theorem rowInv_step {cfg : Config} {id : Int} {w w' : Solo} {a : Solo.Act} (h : RowInv id w)
    (hok : KeepsTimeline w a) (hs : Solo.act cfg w a = some w') : RowInv id w' := by
  have harg : w'.job.arg = id := (solo_arg hs).trans h.arg
  rcases solo_cases hs with ⟨_, hl, _, rfl⟩ | ⟨body, pc, s, o, rfl, hp, hmove, rfl⟩
    | ⟨pc, _, hp, rfl⟩ | ⟨s, _, hsame, rfl⟩
  · -- the job is started, so it had not finished
    refine ⟨harg, h.rows, h.source, ?_, fun hmem => ?_⟩
    · intro pc hp
      cases hp
      trivial
    · have hfin := (h.ended hmem).1
      rw [Job.isLive, hfin] at hl
      exact absurd hl (by simp [Phase.isLive])
  · rw [h.arg] at hmove
    exact rowInv_perform h hok hp hmove
  · -- the job raises, in the middle of a run
    have hno := not_ended_of_running (fun hmem => (h.ended hmem).1) hp
    refine ⟨harg, h.rows, h.source, ?_, fun hmem => absurd hmem hno⟩
    intro pc' hp'
    exact absurd hp' (w.job.raise_not_running pc')
  · -- other jobs leave the rows and the statuses of the event alone
    rw [h.arg] at hsame
    refine ⟨harg, ?_, h.source, ?_, fun hmem => ?_⟩
    · obtain ⟨x, y, hxy⟩ := h.rows
      exact ⟨x, y, hsame.2.1.trans hxy⟩
    · intro pc hp
      have hknow := h.running pc hp
      cases pc <;> first
        | trivial
        | exact hknow
        | exact fun hmem => hknow (h.arg ▸ hsame.mem_log.mp (h.arg ▸ hmem))
    · obtain ⟨hfin, hlast⟩ := h.ended (hsame.mem_log.mp hmem)
      exact ⟨hfin, fun hmem' => hlast (hsame.mem_log.mp hmem')⟩

theorem rowInv_reachable {cfg : Config} {id : Int} {w : Solo}
    (h : Reachable (Solo.act cfg) KeepsTimeline (Solo.Init id) w) : RowInv id w :=
  h.invariant (fun _ => rowInv_init) (fun _ _ _ hi hok hs => rowInv_step hi hok hs)

/-- The rows of a list of entries show each entry as often as the list. -/
theorem countP_updatesToDb (id : Int) (x y : Option Nat) (us : List UpdateDetail)
    (u : UpdateDetail) : (updatesToDb id x y us).countP (isRowOf u) = us.countP (isLike u) := by
  unfold updatesToDb
  rw [List.countP_map]
  rfl

theorem noneTwice_of_ofOneTimeline {id : Int} {w : Solo} (h : OfOneTimeline id w) :
    NoneTwice id w := by
  obtain ⟨us, x, y, hsource, hrows⟩ := h
  intro u hu
  rw [hrows, countP_updatesToDb] at hu ⊢
  rcases hsource with hnil | ⟨t, ht, hus⟩
  · rw [hnil] at hu
    exact absurd rfl hu
  · exact ⟨t, ht, us, hus, Nat.le_refl _⟩

/-- An attempt that raises at its last statement, and a retry that sees the match again. -/
def importedTwice : List Solo.Act :=
  [.start] ++ List.replicate 13 (.perform (.json finalScore)) ++ [.raise, .start]
    ++ List.replicate 12 (.perform (.json finalScore))

end BetterEfisis.Proof

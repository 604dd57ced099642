import BetterEfisis.Solo

/-!
# What one statement of a monitor does to its event

`Move` says once what a statement of `perform` can do to the key, the stored
updates and the statuses of the event, and where the run goes from there. The
statements up to the second poll are all alike in that they go on to one of
their own kind (`early`), whatever they do to the key.
-/

namespace BetterEfisis.Proof

open Lib MonitorWEBWorker

/-- The statements from which `Event.update(id, status: "ENDED", …)` is still far. -/
def early : Pc → Bool
  | .waiting _ | .setKey _ | .findHome _ | .createHome _ _ | .findAway _ _ _
  | .createAway _ _ _ | .loadInPlay _ | .saveInPlay _ _ | .polling _ _ => true
  | _ => false

/-- The statements behind the deletion of the key. -/
def afterDel : Pc → Bool
  | .importUpdates _ _ | .loadEnded | .saveEnded _ => true
  | _ => false

theorem not_afterDel_of_early {pc : Pc} (h : early pc = true) : afterDel pc = false := by
  cases pc <;> first | rfl | exact absurd h (by simp [early])

/-- What a statement with status `st` may leave in the log. -/
def LogGrows (st : Status) (s s' : Store) : Prop :=
  s'.statusLog = s.statusLog ∨ ∃ i, s'.statusLog = s.statusLog ++ [(i, st)]

inductive Move (id : Int) (body : Body) (s s' : Store) : Pc → Outcome Pc → Prop where
  | early {pc pc' : Pc} :
      Update.ofEvent s'.updates id = Update.ofEvent s.updates id → LogGrows .inPlay s s' →
      (∀ before, Solo.kept before pc = before) → early pc' = true →
      Move id body s s' pc (.next pc')
  | gaveUp : s' = s → Move id body s s' (.waiting 200) (.next .loadEnded)
  | polled {m : Match} {sc sc' : Scores} {t : Timeline} :
      s' = s → body = .json t →
      Move id body s s' (.polling m sc) (.next (.snapshot m sc' t))
  | seenEnd {m : Match} {sc : Scores} {t : Timeline} :
      Update.ofEvent s'.updates id = Update.ofEvent s.updates id → s'.statusLog = s.statusLog →
      Move id body s s' (.snapshot m sc t) (.next (.delKey m t.updateDetails))
  | deleted {m : Match} {us : Option (List UpdateDetail)} :
      s'.redis (redisKey id) = none →
      Update.ofEvent s'.updates id = Update.ofEvent s.updates id → s'.statusLog = s.statusLog →
      Move id body s s' (.delKey m us) (.next (.importUpdates m us))
  | imported {m : Match} {us : List UpdateDetail} :
      s'.redis (redisKey id) = s.redis (redisKey id) →
      Update.ofEvent s'.updates id
        = Update.ofEvent s.updates id ++ updatesToDb id m.runnerHome m.runnerAway us →
      s'.statusLog = s.statusLog →
      Move id body s s' (.importUpdates m (some us)) (.next .loadEnded)
  | loaded {e : Event} : s' = s → Move id body s s' .loadEnded (.next (.saveEnded e))
  | finished {e : Event} :
      s'.redis (redisKey id) = s.redis (redisKey id) →
      Update.ofEvent s'.updates id = Update.ofEvent s.updates id → LogGrows .ended s s' →
      Move id body s s' (.saveEnded e) .finished
  | raised {pc : Pc} :
      s' = s → (∀ before, Solo.kept before pc = before) → Move id body s s' pc .raised

/-- A write of `Event.update` notes its own status, or none. -/
theorem logGrows_eventUpdate (m : Event.UpdateMethod) (s : Store) (e : Event) (st : Status)
    (f : Event → Event) : LogGrows st s (s.eventUpdate m e st f) := by
  unfold LogGrows Store.eventUpdate
  dsimp only
  split
  · exact Or.inr ⟨e.id, rfl⟩
  · exact Or.inl rfl

theorem step_move (cfg : Config) (id : Int) (body : Body) (s : Store) (pc : Pc) :
    Move id body s (step cfg id body s pc).1 pc (step cfg id body s pc).2 := by
  have same : LogGrows .inPlay s s := Or.inl rfl
  cases pc with
  | waiting n =>
      by_cases hn : n = 200
      · subst hn
        simp only [step]
        exact .gaveUp rfl
      · cases body with
        | empty => simp only [step, if_neg hn]; exact .early rfl same (fun _ => rfl) rfl
        | json t => simp only [step, if_neg hn]; exact .early rfl same (fun _ => rfl) rfl
  | setKey t => exact .early rfl same (fun _ => rfl) rfl
  | findHome t =>
      cases hsc : t.score with
      | none => simp only [step, hsc]; exact .raised rfl (fun _ => rfl)
      | some sc =>
          obtain ⟨_ | home, away⟩ := sc
          · simp only [step, hsc]; exact .raised rfl (fun _ => rfl)
          · cases away with
            | none => simp only [step, hsc]; exact .raised rfl (fun _ => rfl)
            | some away =>
                cases hf : Runner.findBy cfg.collation s.runners home.name with
                | none => simp only [step, hsc, hf]; exact .early rfl same (fun _ => rfl) rfl
                | some r => simp only [step, hsc, hf]; exact .early rfl same (fun _ => rfl) rfl
  | createHome n a =>
      cases hc : Runner.create s.runners n with
      | error x => simp only [step, hc]; exact .raised rfl (fun _ => rfl)
      | ok r => simp only [step, hc]; exact .early rfl (Or.inl rfl) (fun _ => rfl) rfl
  | findAway n a r =>
      cases hf : Runner.findBy cfg.collation s.runners a with
      | none => simp only [step, hf]; exact .early rfl same (fun _ => rfl) rfl
      | some r => simp only [step, hf]; exact .early rfl same (fun _ => rfl) rfl
  | createAway n a r =>
      cases hc : Runner.create s.runners a with
      | error x => simp only [step, hc]; exact .raised rfl (fun _ => rfl)
      | ok r => simp only [step, hc]; exact .early rfl (Or.inl rfl) (fun _ => rfl) rfl
  | loadInPlay m =>
      cases hf : Event.find s.events id with
      | error x => simp only [step, hf]; exact .raised rfl (fun _ => rfl)
      | ok e => simp only [step, hf]; exact .early rfl same (fun _ => rfl) rfl
  | saveInPlay m e => exact .early rfl (logGrows_eventUpdate _ _ _ _ _) (fun _ => rfl) rfl
  | polling m sc =>
      cases body with
      | empty => exact .raised rfl (fun _ => rfl)
      | json t =>
          cases hs : t.score with
          | none => simp only [step, hs]; exact .raised rfl (fun _ => rfl)
          | some score => simp only [step, hs]; exact .polled rfl rfl
  | snapshot m sc t =>
      by_cases ho : isOver t = true
      · simp only [step, if_pos ho]; exact .seenEnd rfl rfl
      · simp only [step, if_neg ho]; exact .early rfl (Or.inl rfl) (fun _ => rfl) rfl
  | delKey m us => exact .deleted (Store.redisDel_self s (redisKey id)) rfl rfl
  | importUpdates m us =>
      cases us with
      | none => exact .raised rfl (fun _ => rfl)
      | some us =>
          refine .imported rfl ?_ rfl
          simp only [step, Update.ofEvent_append, ofEvent_updatesToDb]
  | loadEnded =>
      cases hf : Event.find s.events id with
      | error x => simp only [step, hf]; exact .raised rfl (fun _ => rfl)
      | ok e => simp only [step, hf]; exact .loaded rfl
  | saveEnded e => exact .finished rfl rfl (logGrows_eventUpdate _ _ _ _ _)

/-- **What a step of the system around one monitor can be.** -/
theorem solo_cases {cfg : Config} {w w' : Solo} {a : Solo.Act} (h : Solo.act cfg w a = some w') :
    (a = .start ∧ w.job.isLive = true ∧ (∀ pc, w.job.phase ≠ .running pc)
        ∧ w' = { w with job := { w.job with phase := .running (.waiting 0) } })
      ∨ (∃ body pc s o, a = .perform body ∧ w.job.phase = .running pc
          ∧ Move w.job.arg body w.store s pc o
          ∧ w' = ⟨s, w.job.settle o, w.seen ++ Solo.polled body pc, Solo.kept w.imported pc⟩)
      ∨ (∃ pc, a = .raise ∧ w.job.phase = .running pc ∧ w' = { w with job := w.job.raise })
      ∨ (∃ s, a = .others s ∧ Solo.SameFor w.job.arg w.store s ∧ w' = { w with store := s }) := by
  cases a with
  | start =>
      obtain ⟨job, hs, rfl⟩ := Option.map_eq_some_iff.mp h
      obtain ⟨hl, hne, rfl⟩ := Job.start_eq hs
      exact Or.inl ⟨rfl, hl, hne, rfl⟩
  | perform body =>
      rw [Solo.act] at h
      split at h
      · rename_i pc hp
        injection h with h
        subst h
        exact Or.inr (Or.inl
          ⟨body, pc, _, _, rfl, hp, step_move cfg w.job.arg body w.store pc, rfl⟩)
      · exact absurd h (by simp)
  | raise =>
      rw [Solo.act] at h
      split at h
      · rename_i pc hp
        injection h with h
        exact Or.inr (Or.inr (Or.inl ⟨pc, rfl, hp, h.symm⟩))
      · exact absurd h (by simp)
  | others s =>
      rw [Solo.act] at h
      split at h
      · rename_i hsame
        injection h with h
        exact Or.inr (Or.inr (Or.inr ⟨s, rfl, hsame, h.symm⟩))
      · exact absurd h (by simp)

/-- The job's event never changes. -/
theorem solo_arg {cfg : Config} {w w' : Solo} {a : Solo.Act} (h : Solo.act cfg w a = some w') :
    w'.job.arg = w.job.arg := by
  rcases solo_cases h with ⟨_, _, _, rfl⟩ | ⟨_, _, _, o, _, _, _, rfl⟩ | ⟨_, _, _, rfl⟩
    | ⟨_, _, _, rfl⟩
  · rfl
  · exact w.job.settle_arg o
  · exact w.job.raise_arg
  · rfl

/-- A status that was not written before a statement is the one the statement writes. -/
theorem mem_of_logGrows {st : Status} {s s' : Store} (h : LogGrows st s s') {p : Int × Status}
    (hp : p ∈ s'.statusLog) : p ∈ s.statusLog ∨ p.2 = st := by
  rcases h with he | ⟨i, he⟩
  · rw [he] at hp
    exact Or.inl hp
  · rw [he] at hp
    rcases List.mem_append.mp hp with h' | h'
    · exact Or.inl h'
    · rw [List.mem_singleton.mp h']
      exact Or.inr rfl

/-- A job that writes ENDED last has not written it in the middle of a run. -/
theorem not_ended_of_running {id : Int} {w : Solo}
    (hfin : (id, .ended) ∈ w.store.statusLog → w.job.phase = .finished) {pc : Pc}
    (hp : w.job.phase = .running pc) : (id, .ended) ∉ w.store.statusLog := by
  intro hmem
  have hph := hfin hmem
  rw [hp] at hph
  exact absurd hph (by simp)

end BetterEfisis.Proof

import BetterEfisis.Proof.Attempt

/-!
# The key of a finished match

A monitor creates its Redis key before the match and deletes it after, but it
writes ENDED also when it has waited 200 polls for a match that does not answer.
An attempt that raised in between has left the key behind, and a retry that gives
up does not delete it (`key_outlives_match`). `B91Worker` reads these keys to
choose the events to bet on.

Where no attempt gives up over an existing key, the key is gone from its deletion
to the end of the job.
-/

namespace BetterEfisis.Proof

open Lib MonitorWEBWorker

/-- Once the job of event `id` has written ENDED, the key does not exist. -/
def KeyDeleted (id : Int) (w : Solo) : Prop :=
  (id, .ended) ∈ w.store.statusLog → w.store.redis (redisKey id) = none

/-- An attempt gives up waiting only where no earlier one has left the key. -/
def GivesUpClean (w : Solo) : Solo.Act → Prop
  | .perform _ => w.GivesUp → w.store.redis (redisKey w.job.arg) = none
  | _ => True

instance (w : Solo) (a : Solo.Act) : Decidable (GivesUpClean w a) := by
  unfold GivesUpClean
  split <;> infer_instance

structure KeyInv (id : Int) (w : Solo) : Prop where
  arg : w.job.arg = id
  /-- Between the deletion and the end of a run the key does not exist. -/
  gone : ∀ pc, w.job.phase = .running pc → afterDel pc = true →
    w.store.redis (redisKey id) = none
  /-- ENDED is the last thing the job writes. -/
  ended : (id, .ended) ∈ w.store.statusLog →
    w.job.phase = .finished ∧ w.store.redis (redisKey id) = none

theorem keyInv_init {id : Int} {w : Solo} (h : Solo.Init id w) : KeyInv id w where
  arg := by rw [h.job]; rfl
  gone := by
    intro pc hp
    rw [h.job] at hp
    exact absurd hp (by simp [Job.enqueue])
  ended := fun hmem => absurd hmem (h.log .ended)

/-- What a statement preserves. -/
theorem keyInv_perform {id : Int} {w : Solo} {body : Body} {pc : Pc} {s : Store} {o : Outcome Pc}
    (h : KeyInv id w) (hok : GivesUpClean w (.perform body)) (hp : w.job.phase = .running pc)
    (hmove : Move id body w.store s pc o) :
    KeyInv id ⟨s, w.job.settle o, w.seen ++ Solo.polled body pc, Solo.kept w.imported pc⟩ := by
  have hset : (w.job.settle o).arg = id := (w.job.settle_arg o).trans h.arg
  have hno := not_ended_of_running (fun hmem => (h.ended hmem).1) hp
  -- a run that goes on has not written ENDED, and has nothing to show unless the key is deleted
  have goes : ∀ pc', o = .next pc' → (afterDel pc' = true → s.redis (redisKey id) = none) →
      ((id, .ended) ∈ s.statusLog → (id, .ended) ∈ w.store.statusLog) →
      KeyInv id ⟨s, w.job.settle o, w.seen ++ Solo.polled body pc, Solo.kept w.imported pc⟩ := by
    intro pc' ho hkey hlog
    subst ho
    refine ⟨hset, ?_, fun hmem => absurd (hlog hmem) hno⟩
    intro pc'' hp' hlate
    cases hp'
    exact hkey hlate
  cases hmove with
  | early _ hlog _ he =>
      refine goes _ rfl ?_ ?_
      · intro hlate
        rw [not_afterDel_of_early he] at hlate
        exact absurd hlate (by simp)
      · intro hmem
        exact (mem_of_logGrows hlog hmem).resolve_right (by simp)
  | gaveUp he =>
      -- the one way to the ENDED write that does not pass the deletion
      subst he
      refine goes _ rfl (fun _ => ?_) (fun hmem => hmem)
      have hkey := hok hp
      rw [h.arg] at hkey
      exact hkey
  | polled he _ => subst he; exact goes _ rfl (by simp [afterDel]) (fun hmem => hmem)
  | seenEnd _ hlog =>
      exact goes _ rfl (by simp [afterDel]) (fun hmem => by rw [hlog] at hmem; exact hmem)
  | deleted hkey _ hlog =>
      exact goes _ rfl (fun _ => hkey) (fun hmem => by rw [hlog] at hmem; exact hmem)
  | imported hkey _ hlog =>
      refine goes _ rfl (fun _ => ?_) (fun hmem => by rw [hlog] at hmem; exact hmem)
      rw [hkey]
      exact h.gone _ hp rfl
  | loaded he =>
      subst he
      exact goes _ rfl (fun _ => h.gone _ hp rfl) (fun hmem => hmem)
  | finished hkey _ _ =>
      have hgone : s.redis (redisKey id) = none := by
        rw [hkey]
        exact h.gone _ hp rfl
      refine ⟨hset, ?_, fun _ => ⟨rfl, hgone⟩⟩
      intro pc' hp'
      exact absurd hp' (by simp [Job.settle])
  | raised he _ =>
      subst he
      refine ⟨hset, ?_, fun hmem => absurd hmem hno⟩
      intro pc' hp'
      exact absurd hp' (w.job.raise_not_running pc')

theorem keyInv_step {cfg : Config} {id : Int} {w w' : Solo} {a : Solo.Act} (h : KeyInv id w)
    (hok : GivesUpClean w a) (hs : Solo.act cfg w a = some w') : KeyInv id w' := by
  have harg : w'.job.arg = id := (solo_arg hs).trans h.arg
  rcases solo_cases hs with ⟨_, hl, _, rfl⟩ | ⟨body, pc, s, o, rfl, hp, hmove, rfl⟩
    | ⟨pc, _, hp, rfl⟩ | ⟨s, _, hsame, rfl⟩
  · -- the job is started, so it had not finished
    refine ⟨harg, ?_, fun hmem => ?_⟩
    · intro pc hp hlate
      cases hp
      exact absurd hlate (by simp [afterDel])
    · have hfin := (h.ended hmem).1
      rw [Job.isLive, hfin] at hl
      exact absurd hl (by simp [Phase.isLive])
  · rw [h.arg] at hmove
    exact keyInv_perform h hok hp hmove
  · -- the job raises, in the middle of a run
    have hno := not_ended_of_running (fun hmem => (h.ended hmem).1) hp
    refine ⟨harg, ?_, fun hmem => absurd hmem hno⟩
    intro pc' hp'
    exact absurd hp' (w.job.raise_not_running pc')
  · -- other jobs leave the key and the statuses of the event alone
    rw [h.arg] at hsame
    have hkey := hsame.1
    refine ⟨harg, ?_, fun hmem => ?_⟩
    · intro pc hp hlate
      show s.redis (redisKey id) = none
      rw [hkey]
      exact h.gone pc hp hlate
    · obtain ⟨hfin, hgone⟩ := h.ended (hsame.mem_log.mp hmem)
      exact ⟨hfin, hkey.trans hgone⟩

theorem keyInv_reachable {cfg : Config} {id : Int} {w : Solo}
    (h : Reachable (Solo.act cfg) GivesUpClean (Solo.Init id) w) : KeyInv id w :=
  h.invariant (fun _ => keyInv_init) (fun _ _ _ hi hok hs => keyInv_step hi hok hs)

/-- **Where no attempt gives up over an existing key, a match that has ended has none.** -/
theorem keyDeleted_of_givesUpClean (cfg : Config) (id : Int) (w : Solo)
    (h : Reachable (Solo.act cfg) GivesUpClean (Solo.Init id) w) : KeyDeleted id w :=
  fun hmem => ((keyInv_reachable h).ended hmem).2

/-- The job of event 7, before its first attempt. -/
def alone : Solo where
  store := { Store.boot with
    events := [⟨7, some "A v B", some 0, some "GB", some .notStarted, some false⟩] }
  job := Job.enqueue 7
  seen := []
  imported := []

theorem alone_init : Solo.Init 7 alone := by
  constructor <;> first | rfl | decide | simp [alone, Store.boot]

/-- The match in its first half. -/
def firstHalf : Timeline where
  score := some ⟨some ⟨some "A", some 1⟩, some ⟨some "B", some 0⟩⟩
  updateDetails := some [⟨some 1, some "KickOff", none⟩, ⟨some 30, some "Goal", some "home"⟩]
  timeElapsed := some 40
  status := some "IN_PLAY"
  inPlayMatchStatus := some "InPlay"

/-- The same match when it is over. -/
def finalScore : Timeline := { firstHalf with
  timeElapsed := some 90
  status := some "COMPLETE"
  inPlayMatchStatus := some "Finished" }

/-- An attempt up to the second poll of the match. -/
def upToPoll : List Solo.Act := .start :: List.replicate 8 (.perform (.json firstHalf))

/-- An attempt that the empty body in mid-match stops, and one that sees the match to its end. -/
def retried : List Solo.Act :=
  upToPoll ++ [.perform .empty, .start] ++ List.replicate 14 (.perform (.json finalScore))

/-- The retry writes ENDED. -/
theorem keyDeleted_retried : ∃ w : Solo, (7, .ended) ∈ w.store.statusLog ∧ KeyDeleted 7 w := by
  obtain ⟨w, hr, hend⟩ := reachable_of_run (Solo.act ⟨.binary, .persistence⟩) GivesUpClean retried
    (fun w => (7, .ended) ∈ w.store.statusLog) alone_init (by decide +kernel)
  exact ⟨w, hend, keyDeleted_of_givesUpClean ⟨.binary, .persistence⟩ 7 w hr⟩

/-- The same first attempt, and a retry that the feed never answers again. -/
def abandoned : List Solo.Act :=
  upToPoll ++ [.perform .empty, .start] ++ List.replicate 203 (.perform .empty)

/-- **A retry that gives up writes ENDED over the key of an earlier attempt.** -/
theorem key_outlives_match :
    ¬ ∀ id w, Reachable (Solo.act ⟨.binary, .persistence⟩) always (Solo.Init id) w →
        KeyDeleted id w := by
  intro hall
  obtain ⟨w, hr, hend, hkey⟩ := reachable_of_run (Solo.act ⟨.binary, .persistence⟩) always
    abandoned (fun w => (7, .ended) ∈ w.store.statusLog ∧ w.store.redis (redisKey 7) ≠ none)
    alone_init (by decide +kernel)
  exact hkey (hall 7 w hr hend)

end BetterEfisis.Proof

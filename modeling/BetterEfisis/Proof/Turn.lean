import BetterEfisis.Tick

/-!
# What one step of a tick does

`Turn` says once what a step can do to the job's place, to what it has enqueued, to
the stamps and to the two ghosts. A refresh line goes through its places in order:
the stamp of the range is read and tested, a new one is taken from the clock and
set, the scope is queried, and its ids are enqueued one after the other.
-/

namespace BetterEfisis.Proof

open Lib OddsWorker

/-- The columns of an event a scope depends on. -/
def scheduled (e : Event) : Int × Option Status × Option Int := (e.id, e.status, e.openDate)

/-- Two tables that no scope tells apart. -/
def SameEvents (t t' : List Event) : Prop := t'.map scheduled = t.map scheduled

theorem SameEvents.trans {t t' t'' : List Event} (h : SameEvents t t') (h' : SameEvents t' t'') :
    SameEvents t t'' := Eq.trans h' h

/-- To save the flag of an event is to change nothing a scope depends on. -/
theorem sameEvents_save (t : List Event) (e : Event) :
    SameEvents t (Event.save t e (monitored e)) := by
  unfold SameEvents Event.save
  split
  · rw [List.map_map]
    refine List.map_congr_left ?_
    intro row _
    simp only [Function.comp_apply, Event.saveRow]
    split
    · simp [scheduled, Event.writeChanged, Event.beforeSave, monitored]
    · rfl
  · rfl

/-- The statements of the first loop. -/
def inFirstLoop : Pc → Bool
  | .load | .monitor _ | .save _ _ => true
  | _ => false

/-- The ranges whose lines come before the one of `r`. -/
def linesBefore : Range → List Range
  | .soon => []
  | .later => [.soon]
  | .tomorow => [.soon, .later]
  | .someday => [.soon, .later, .tomorow]

theorem key_ne {r r' : Range} (h : r ≠ r') : r.key ≠ r'.key := by
  cases r <;> cases r' <;> first | exact absurd rfl h | decide

/-- The stamp that is set is the one that is read, and no other changes. -/
theorem stampOf_redisSet {w w' : Tick} {r : Range} {stamp : Int}
    (h : w'.store = w.store.redisSet r.key (.int stamp)) (r' : Range) :
    w'.stampOf r' = if r' = r then stamp else w.stampOf r' := by
  unfold Tick.stampOf
  rw [h]
  by_cases hr : r' = r
  · subst hr
    rw [if_pos rfl]
    simp [Store.redisSet, RedisValue.toI]
  · rw [if_neg hr]
    simp [Store.redisSet, key_ne hr]

/-- Nothing but the place of the run, its clock and its store has changed. -/
structure Quiet (w w' : Tick) : Prop where
  enqueued : w'.enqueued = w.enqueued
  due : w'.due = w.due
  readings : w'.readings = w.readings
  events : SameEvents w.store.events w'.store.events
  redis : w'.store.redis = w.store.redis
  now : w.now ≤ w'.now

/-- What a step can do. -/
inductive Turn (w w' : Tick) : Tick.Act → Prop where
  /-- Time passes. -/
  | later {d : Nat} : Quiet w w' → w'.job = w.job → Turn w w' (.advance d)
  | started : Quiet w w' → w.job.phase = .queued ∨ w.job.phase = .retrying →
      w'.job.phase = .running .load → Turn w w' .start
  | raised {pc : Pc} : Quiet w w' → w.job.phase = .running pc → w'.job = w.job.raise →
      Turn w w' .raise
  /-- A statement of the first loop. -/
  | looped {d : Nat} {pc pc' : Pc} : Quiet w w' → w.job.phase = .running pc →
      inFirstLoop pc = true → w'.job.phase = .running pc' →
      inFirstLoop pc' = true ∨ pc' = .refreshLoad .now → Turn w w' (.perform d)
  /-- `time(r)` reads the stamp. -/
  | got {d : Nat} {r : Range} : Quiet w w' → w.job.phase = .running (.stampGet r) →
      w'.job.phase = .running (.stampTest r (w.stampOf r)) → Turn w w' (.perform d)
  /-- The range is not due, and the run goes on to the next line. -/
  | notDue {d : Nat} {r : Range} {timestamp : Int} : Quiet w w' →
      w.job.phase = .running (.stampTest r timestamp) → w.now - timestamp ≤ r.value →
      w'.job = w.job.settle r.after → Turn w w' (.perform d)
  /-- The range is due. -/
  | due {d : Nat} {r : Range} {timestamp : Int} :
      w.job.phase = .running (.stampTest r timestamp) → r.value < w.now - timestamp →
      w'.job.phase = .running (.stampRead r) → w'.enqueued = w.enqueued →
      w'.due = w.due ++ [⟨r, w.now, w.inScope (.range r)⟩] → w'.readings = w.readings →
      w'.store = w.store → w.now ≤ w'.now → Turn w w' (.perform d)
  /-- The new stamp is taken from the clock. -/
  | taken {d : Nat} {r : Range} : Quiet w w' → w.job.phase = .running (.stampRead r) →
      w'.job.phase = .running (.stampSet r w.now) → Turn w w' (.perform d)
  | stamped {d : Nat} {r : Range} {stamp : Int} : w.job.phase = .running (.stampSet r stamp) →
      w'.job.phase = .running (.refreshLoad (.range r)) → w'.enqueued = w.enqueued →
      w'.due = w.due → w'.readings = w.readings →
      w'.store = w.store.redisSet r.key (.int stamp) → w.now ≤ w'.now → Turn w w' (.perform d)
  /-- The query of a scope. -/
  | loaded {d : Nat} {sc : Scope} : w.job.phase = .running (.refreshLoad sc) →
      w'.job.phase
        = .running (.refresh sc ((sc.load w.store.events w.now (w.now + d)).map Event.id)) →
      w'.enqueued = w.enqueued → w'.due = w.due →
      w'.readings = Function.update w.readings sc (w.now, w.now + d) →
      w'.store = w.store → w'.now = w.now + d → Turn w w' (.perform d)
  | enqueued {d : Nat} {sc : Scope} {id : Int} {ids : List Int} :
      w.job.phase = .running (.refresh sc (id :: ids)) →
      w'.job.phase = .running (.refresh sc ids) → w'.enqueued = w.enqueued ++ [id] →
      w'.due = w.due → w'.readings = w.readings → w'.store = w.store →
      w.now ≤ w'.now → Turn w w' (.perform d)
  /-- The line of a scope is done. -/
  | lineDone {d : Nat} {sc : Scope} : Quiet w w' → w.job.phase = .running (.refresh sc []) →
      w'.job = w.job.settle sc.after → Turn w w' (.perform d)

/-- A statement that enqueues no refresh job, finds nothing due and queries no refresh scope. -/
theorem quiet_after {w : Tick} {d : Nat} {pc : Pc} {s : Step} (hr : s.refreshes = [])
    (he : SameEvents w.store.events s.store.events) (hredis : s.store.redis = w.store.redis)
    (hf : w.found pc = []) (hread : w.read d pc = w.readings) : Quiet w (w.after d pc s) where
  enqueued := by simp [Tick.after, hr]
  due := by simp [Tick.after, hf]
  readings := hread
  events := he
  redis := hredis
  now := by
    show w.now ≤ w.now + d
    omega

theorem turn_perform {w : Tick} {d : Nat} {pc : Pc} (hp : w.job.phase = .running pc) :
    Turn w (w.after d pc (step w.now (w.now + d) w.store pc)) (.perform d) := by
  have hle : w.now ≤ w.now + d := by omega
  cases pc with
  | load => exact .looped (quiet_after rfl rfl rfl rfl rfl) hp rfl rfl (Or.inl rfl)
  | monitor rows =>
      cases rows with
      | nil => exact .looped (quiet_after rfl rfl rfl rfl rfl) hp rfl rfl (Or.inr rfl)
      | cons e rows =>
          by_cases hm : e.monitored = some true
          · have hs : step w.now (w.now + d) w.store (.monitor (e :: rows))
                = .plain w.store (.next (.monitor rows)) := if_pos hm
            rw [hs]
            exact .looped (quiet_after rfl rfl rfl rfl rfl) hp rfl rfl (Or.inl rfl)
          · have hs : step w.now (w.now + d) w.store (.monitor (e :: rows))
                = ⟨w.store, [e.id], [], .next (.save e rows)⟩ := if_neg hm
            rw [hs]
            exact .looped (quiet_after rfl rfl rfl rfl rfl) hp rfl rfl (Or.inl rfl)
  | save e rows =>
      exact .looped (quiet_after rfl (sameEvents_save w.store.events e) rfl rfl rfl) hp rfl rfl
        (Or.inl rfl)
  | refreshLoad sc => exact .loaded hp rfl (List.append_nil _) (List.append_nil _) rfl rfl rfl
  | refresh sc ids =>
      cases ids with
      | nil => exact .lineDone (quiet_after rfl rfl rfl rfl rfl) hp rfl
      | cons id ids => exact .enqueued hp rfl rfl (List.append_nil _) rfl rfl hle
  | stampGet r => exact .got (quiet_after rfl rfl rfl rfl rfl) hp rfl
  | stampTest r timestamp =>
      by_cases hd : w.now - timestamp > r.value
      · have hs : step w.now (w.now + d) w.store (.stampTest r timestamp)
            = .plain w.store (.next (.stampRead r)) := if_pos hd
        have hf : w.found (.stampTest r timestamp) = [⟨r, w.now, w.inScope (.range r)⟩] :=
          if_pos hd
        rw [hs]
        exact .due hp hd rfl (List.append_nil _) (congrArg (w.due ++ ·) hf) rfl rfl hle
      · have hs : step w.now (w.now + d) w.store (.stampTest r timestamp)
            = .plain w.store r.after := if_neg hd
        rw [hs]
        exact .notDue (quiet_after rfl rfl rfl (if_neg hd) rfl) hp (by omega) rfl
  | stampRead r => exact .taken (quiet_after rfl rfl rfl rfl rfl) hp rfl
  | stampSet r stamp => exact .stamped hp rfl (List.append_nil _) (List.append_nil _) rfl rfl hle

/-- **What a step does.** -/
theorem act_turn {w w' : Tick} {a : Tick.Act} (hs : Tick.act w a = some w') : Turn w w' a := by
  cases a with
  | start =>
      obtain ⟨job, hj, rfl⟩ := Option.map_eq_some_iff.mp hs
      unfold Job.start at hj
      split at hj
      · rename_i hp
        injection hj with hj
        rw [← hj]
        exact .started ⟨rfl, rfl, rfl, rfl, rfl, Int.le_refl _⟩ (Or.inl hp) rfl
      · rename_i hp
        injection hj with hj
        rw [← hj]
        exact .started ⟨rfl, rfl, rfl, rfl, rfl, Int.le_refl _⟩ (Or.inr hp) rfl
      · exact absurd hj (by simp)
  | perform d =>
      rw [Tick.act] at hs
      split at hs
      · rename_i pc hp
        injection hs with hs
        rw [← hs]
        exact turn_perform hp
      · exact absurd hs (by simp)
  | raise =>
      rw [Tick.act] at hs
      split at hs
      · rename_i pc hp
        injection hs with hs
        rw [← hs]
        exact .raised ⟨rfl, rfl, rfl, rfl, rfl, Int.le_refl _⟩ hp rfl
      · exact absurd hs (by simp)
  | advance d =>
      injection hs with hs
      rw [← hs]
      refine .later ⟨rfl, rfl, rfl, rfl, rfl, ?_⟩ rfl
      show w.now ≤ w.now + d
      omega

end BetterEfisis.Proof

import BetterEfisis.Lib.Trace
import BetterEfisis.World

/-!
# The throttle of the ranges

`time(range)` reads the stamp, compares it with the clock, and sets a new one, in
steps that other runs can get in between. Two runs that have both read the old
stamp both answer `true` (`throttle_broken`). And since the new stamp is read off
the clock before it is set, an answer can come later than its stamp says.

Where no two calls for a range overlap, from the reading of the stamp to the
setting of the new one, the stamps set for it are more than its interval apart;
where no second passes from the reading of the new stamp to the end of the call,
so are the answers.
-/

namespace BetterEfisis.Proof

open Lib OddsWorker

/-- A call of `time` that has returned `true`: the stamp it has set, and the time it returned. -/
structure Answer where
  range : Range
  stamp : Int
  time : Int
deriving DecidableEq, Repr

/-- The statement the `OddsWorker` run `i` executes next. -/
def place (w : World) (i : Nat) : Option Pc := standsAt w.ticks i

/-- The throttle stamp of a range. -/
def stampOf (w : World) (r : Range) : Int := RedisValue.toI (w.store.redis r.key)

/-- The calls of `time` that return `true` in a step. -/
def answers (w : World) : World.Act → List Answer
  | .tick i d =>
      match place w i with
      | some (.stampSet r stamp) => [⟨r, stamp, w.now + d⟩]
      | _ => []
  | _ => []

/-- The places of `time(r)` behind the reading of the stamp. -/
def pastGet (r : Range) : Pc → Bool
  | .stampTest r' _ | .stampRead r' | .stampSet r' _ => decide (r' = r)
  | _ => false

/-- Run `k` has read the stamp of `r`, and its call has not returned yet. -/
def Calling (w : World) (k : Nat) (r : Range) : Prop := (place w k).any (pastGet r) = true

/-- The steps that set a stamp while no other call for its range is under way. -/
def NoOverlap (l : Logged World Answer) : World.Act → Prop
  | .tick i _ =>
      match place l.state i with
      | some (.stampSet r _) => ∀ k < l.state.ticks.length, k ≠ i → ¬ Calling l.state k r
      | _ => True
  | _ => True

/-- The steps in which a call returns before the clock moves on from its stamp. -/
def Prompt (l : Logged World Answer) (a : World.Act) : Prop :=
  ∀ x ∈ answers l.state a, x.time = x.stamp

/-- Any two answers for a range are more than its interval apart. -/
def Throttled (l : Logged World Answer) : Prop :=
  l.log.Pairwise (fun a b => a.range = b.range → b.time - a.time > a.range.value)

/-! ## What a step does to the calls -/

/-- No run but `i` has moved. -/
def OthersStay (w w' : World) (i : Nat) : Prop := ∀ k, k ≠ i → place w' k = place w k

/-- What a step can do to the stamps and to the calls that have read one. -/
inductive StampStep (w w' : World) : World.Act → Prop where
  /-- No stamp is written, and no call gets further. -/
  | quiet {a : World.Act} : (∀ r, stampOf w' r = stampOf w r) → w.now ≤ w'.now →
      (∀ k pc r, place w' k = some pc → pastGet r pc = true → place w k = some pc) →
      answers w a = [] → StampStep w w' a
  | got {i d : Nat} {r : Range} : (∀ r, stampOf w' r = stampOf w r) → w.now ≤ w'.now →
      place w i = some (.stampGet r) → place w' i = some (.stampTest r (stampOf w r)) →
      OthersStay w w' i → StampStep w w' (.tick i d)
  | tested {i d : Nat} {r : Range} {timestamp : Int} : (∀ r, stampOf w' r = stampOf w r) →
      w.now ≤ w'.now → place w i = some (.stampTest r timestamp) →
      w.now - timestamp > r.value → place w' i = some (.stampRead r) →
      OthersStay w w' i → StampStep w w' (.tick i d)
  | read {i d : Nat} {r : Range} : (∀ r, stampOf w' r = stampOf w r) → w.now ≤ w'.now →
      place w i = some (.stampRead r) → place w' i = some (.stampSet r w.now) →
      OthersStay w w' i → StampStep w w' (.tick i d)
  | set {i d : Nat} {r : Range} {stamp : Int} : place w i = some (.stampSet r stamp) →
      stampOf w' r = stamp → (∀ r', r' ≠ r → stampOf w' r' = stampOf w r') → w.now ≤ w'.now →
      place w' i = some (.refreshLoad (.range r)) → OthersStay w w' i →
      StampStep w w' (.tick i d)

theorem redisKey_ne (id : Int) (r : Range) : redisKey id ≠ r.key := by
  intro h
  have hlen : 18 ≤ (redisKey id).length := by
    have hpre : "event-web-monitor-".length = 18 := by decide
    unfold redisKey
    rw [String.length_append]
    omega
  rw [h] at hlen
  cases r <;> exact absurd hlen (by decide)

theorem key_injective {r r' : Range} (h : r'.key = r.key) : r' = r := by
  cases r <;> cases r' <;> simp [Range.key] at h ⊢

/-- A monitor writes its own key only. -/
theorem redis_monitor (cfg : Config) (id : Int) (body : Body) (s : Store)
    (pc : MonitorWEBWorker.Pc) (r : Range) :
    (MonitorWEBWorker.step cfg id body s pc).1.redis r.key = s.redis r.key := by
  have hne : r.key ≠ redisKey id := (redisKey_ne id r).symm
  have hset : ∀ v, (s.redisSet (redisKey id) v).redis r.key = s.redis r.key := by
    intro v
    simp [Store.redisSet, hne]
  cases pc with
  | setKey t => exact hset _
  | snapshot m sc t => exact hset _
  | delKey m us => simp [MonitorWEBWorker.step, Store.redisDel, hne]
  | saveInPlay m e | saveEnded e => rfl
  | waiting n | findHome t | createHome n a | findAway n a ru | createAway n a ru | loadInPlay m
  | polling m sc | importUpdates m us | loadEnded =>
      simp only [MonitorWEBWorker.step]
      repeat' split
      all_goals rfl

/-! ## The places of the runs -/

/-- Where a run is set to another place, the others stay. -/
theorem othersStay_set {w w' : World} {i : Nat} {job : Job Unit Pc}
    (ht : w'.ticks = w.ticks.set i job) : OthersStay w w' i := by
  intro k hk
  unfold place
  rw [ht, standsAt_set_ne hk]

theorem place_set {w w' : World} {i : Nat} {job job' : Job Unit Pc} (hj : w.ticks[i]? = some job)
    (ht : w'.ticks = w.ticks.set i job') {pc : Pc} (hp : job'.phase = .running pc) :
    place w' i = some pc := by
  unfold place
  rw [ht]
  exact standsAt_iff.mpr ⟨job', getElem?_set_here hj, hp⟩

/-- A step that moves run `i` out of every call, or leaves it where it is. -/
theorem quiet_of_set {w w' : World} {a : World.Act} {i : Nat} {job' : Job Unit Pc}
    (hs : ∀ r, stampOf w' r = stampOf w r) (hnow : w.now ≤ w'.now)
    (ht : w'.ticks = w.ticks.set i job')
    (hp : ∀ pc r, job'.phase = .running pc → pastGet r pc = false) (ha : answers w a = []) :
    StampStep w w' a := by
  refine .quiet hs hnow ?_ ha
  intro k pc r hk hpast
  by_cases hki : k = i
  · exfalso
    unfold place at hk
    rw [ht] at hk
    obtain ⟨job, hj, hph⟩ := standsAt_iff.mp hk
    rcases getElem?_set_cases hj with ⟨_, rfl⟩ | ⟨hne, _⟩
    · rw [hp pc r hph] at hpast
      exact absurd hpast (by simp)
    · exact hne hki
  · rw [← othersStay_set ht k hki, hk]

/-- A step that leaves the ticks alone. -/
theorem quiet_of_ticks {w w' : World} {a : World.Act} (hs : ∀ r, stampOf w' r = stampOf w r)
    (hnow : w.now ≤ w'.now) (ht : w'.ticks = w.ticks) (ha : answers w a = []) :
    StampStep w w' a := by
  refine .quiet hs hnow ?_ ha
  intro k pc r hk _
  unfold place at hk ⊢
  rw [← ht]
  exact hk

theorem pastGet_false_of_after {r r' : Range} {job : Job Unit Pc} {pc : Pc}
    (hp : (job.settle r'.after).phase = .running pc) : pastGet r pc = false := by
  cases r' with
  | someday => exact absurd hp (by simp [Range.after, Job.settle])
  | soon | later | tomorow =>
      rw [← Phase.running.inj hp]
      rfl

/-- The run at place `i` executes its next statement. -/
theorem stampStep_tick {w : World} {i d : Nat} {job : Job Unit Pc} {pc : Pc}
    (hj : w.ticks[i]? = some job) (hp : job.phase = .running pc) :
    StampStep w (w.afterTick i job (w.now + d) (step w.now (w.now + d) w.store pc))
      (.tick i d) := by
  have hpl : place w i = some pc := standsAt_iff.mpr ⟨job, hj, hp⟩
  have hle : w.now ≤ w.now + d := by omega
  -- the statements that belong to no call, or end one without an answer
  have quiet : ∀ r : Step, (∀ key, r.store.redis key = w.store.redis key) →
      (∀ pc' q, (job.settle r.next).phase = .running pc' → pastGet q pc' = false) →
      (∀ q stamp, pc ≠ .stampSet q stamp) →
      StampStep w (w.afterTick i job (w.now + d) r) (.tick i d) := by
    intro r hredis hnext hpc
    refine quiet_of_set ?_ hle rfl hnext ?_
    · intro q
      simp only [stampOf, World.afterTick, hredis]
    · simp only [answers, hpl]
      split
      · rename_i heq
        exact absurd (Option.some.inj heq) (hpc _ _)
      · rfl
  have one : ∀ {pc' : Pc}, (∀ q, pastGet q pc' = false) →
      ∀ pc'' q', (job.settle (.next pc')).phase = .running pc'' → pastGet q' pc'' = false := by
    intro pc' hf pc'' q' h
    rw [← Phase.running.inj h]
    exact hf q'
  cases pc with
  | load => exact quiet _ (fun _ => rfl) (one (fun _ => rfl)) (by simp)
  | monitor rows =>
      cases rows with
      | nil => exact quiet _ (fun _ => rfl) (one (fun _ => rfl)) (by simp)
      | cons e rows =>
          by_cases hm : e.monitored = some true
          · have hs : step w.now (w.now + d) w.store (.monitor (e :: rows))
                = .plain w.store (.next (.monitor rows)) := if_pos hm
            rw [hs]
            exact quiet _ (fun _ => rfl) (one (fun _ => rfl)) (by simp)
          · have hs : step w.now (w.now + d) w.store (.monitor (e :: rows))
                = ⟨w.store, [e.id], [], .next (.save e rows)⟩ := if_neg hm
            rw [hs]
            exact quiet _ (fun _ => rfl) (one (fun _ => rfl)) (by simp)
  | save e rows => exact quiet _ (fun _ => rfl) (one (fun _ => rfl)) (by simp)
  | refreshLoad sc => exact quiet _ (fun _ => rfl) (one (fun _ => rfl)) (by simp)
  | refresh sc ids =>
      cases ids with
      | cons id ids => exact quiet _ (fun _ => rfl) (one (fun _ => rfl)) (by simp)
      | nil =>
          refine quiet _ (fun _ => rfl) ?_ (by simp)
          intro pc' q hnext
          cases sc with
          | now =>
              rw [← Phase.running.inj hnext]
              rfl
          | range r => exact pastGet_false_of_after hnext
  | stampGet r =>
      exact .got (fun _ => rfl) hle hpl (place_set hj rfl rfl) (othersStay_set rfl)
  | stampTest r timestamp =>
      by_cases hdue : w.now - timestamp > r.value
      · have hs : step w.now (w.now + d) w.store (.stampTest r timestamp)
            = .plain w.store (.next (.stampRead r)) := if_pos hdue
        rw [hs]
        exact .tested (fun _ => rfl) hle hpl hdue (place_set hj rfl rfl) (othersStay_set rfl)
      · have hs : step w.now (w.now + d) w.store (.stampTest r timestamp)
            = .plain w.store r.after := if_neg hdue
        rw [hs]
        exact quiet _ (fun _ => rfl) (fun _ _ => pastGet_false_of_after) (by simp)
  | stampRead r => exact .read (fun _ => rfl) hle hpl (place_set hj rfl rfl) (othersStay_set rfl)
  | stampSet r stamp =>
      refine .set hpl ?_ ?_ hle (place_set hj rfl rfl) (othersStay_set rfl)
      · simp [stampOf, World.afterTick, step, Step.plain, RedisValue.toI]
      · intro r' hne
        have hkey : r'.key ≠ r.key := fun h => hne (key_injective h)
        simp [stampOf, World.afterTick, step, Step.plain, Store.redisSet, hkey]

/-- **What a step does to the stamps and the calls.** -/
theorem act_stampStep {cfg : Config} {w w' : World} {a : World.Act}
    (hs : World.act cfg w a = some w') : StampStep w w' a := by
  cases World.act_cases hs with
  | imported _ _ => exact quiet_of_ticks (fun _ => rfl) (Int.le_refl _) rfl rfl
  | @advanced d =>
      have hle : w.now ≤ w.now + d := by omega
      exact quiet_of_ticks (fun _ => rfl) hle rfl rfl
  | scheduled =>
      refine .quiet (fun _ => rfl) (Int.le_refl _) ?_ rfl
      intro k pc r hk _
      -- the new job stands nowhere yet
      obtain ⟨job, hj, hpc⟩ := standsAt_iff.mp hk
      rcases getElem?_snoc_cases hj with hold | ⟨_, rfl⟩
      · exact standsAt_iff.mpr ⟨job, hold, hpc⟩
      · exact absurd hpc (by simp [Job.enqueue])
  | @startedTick i _ _ _ =>
      refine quiet_of_set (i := i) (fun _ => rfl) (Int.le_refl _) rfl ?_ rfl
      intro pc r hp
      rw [← Phase.running.inj hp]
      rfl
  | ticked hj hp => exact stampStep_tick hj hp
  | @raisedTick i job _ _ _ =>
      refine quiet_of_set (i := i) (fun _ => rfl) (Int.le_refl _) rfl ?_ rfl
      intro pc r hp
      exact absurd hp (job.raise_not_running pc)
  | startedMonitor _ _ => exact quiet_of_ticks (fun _ => rfl) (Int.le_refl _) rfl rfl
  | monitored _ _ =>
      refine quiet_of_ticks ?_ (Int.le_refl _) rfl rfl
      intro r
      simp only [stampOf, World.afterMonitor, redis_monitor]
  | raisedMonitor _ _ => exact quiet_of_ticks (fun _ => rfl) (Int.le_refl _) rfl rfl

/-! ## The invariant -/

/-- What a call knows at each place behind the reading of the stamp. -/
def Informed (w : World) : Pc → Prop
  | .stampTest r timestamp => timestamp = stampOf w r
  | .stampRead r => stampOf w r + r.value < w.now
  | .stampSet r stamp => stampOf w r + r.value < stamp ∧ stamp ≤ w.now
  | _ => True

structure ThrottleInv (l : Logged World Answer) : Prop where
  calls : ∀ i pc, place l.state i = some pc → Informed l.state pc
  /-- No answer is ahead of the stamp of its range. -/
  stamps : ∀ a ∈ l.log, a.stamp ≤ stampOf l.state a.range
  /-- The answers came at the times of their stamps. -/
  times : ∀ a ∈ l.log, a.time = a.stamp
  apart : Throttled l

theorem throttleInv_init {l : Logged World Answer} (h : unobserved World.Init l) :
    ThrottleInv l := by
  obtain ⟨⟨now, hw⟩, hlog⟩ := h
  constructor
  · intro i pc hpl
    rw [hw] at hpl
    exact absurd hpl (by simp [place, World.boot])
  · simp [hlog]
  · simp [hlog]
  · simp [Throttled, hlog]

/-- What a call knows stays true while the stamp it has read is not written. -/
theorem informed_later {w w' : World} {pc : Pc}
    (hs : ∀ r, pastGet r pc = true → stampOf w' r = stampOf w r) (hle : w.now ≤ w'.now)
    (h : Informed w pc) : Informed w' pc := by
  cases pc with
  | stampTest r timestamp =>
      have hsame : stampOf w' r = stampOf w r := hs r (decide_eq_true rfl)
      exact h.trans hsame.symm
  | stampRead r =>
      have hsame : stampOf w' r = stampOf w r := hs r (decide_eq_true rfl)
      have h' : stampOf w r + r.value < w.now := h
      show stampOf w' r + r.value < w'.now
      rw [hsame]
      omega
  | stampSet r stamp =>
      have hsame : stampOf w' r = stampOf w r := hs r (decide_eq_true rfl)
      obtain ⟨h1, h2⟩ := h
      refine ⟨?_, by omega⟩
      rw [hsame]
      exact h1
  | load | monitor _ | save _ _ | refreshLoad _ | refresh _ _ | stampGet _ => trivial

theorem informed_of_not_past {w : World} {pc : Pc} (h : ∀ r, pastGet r pc = false) :
    Informed w pc := by
  cases pc with
  | stampTest r _ => exact absurd (h r) (by simp [pastGet])
  | stampRead r => exact absurd (h r) (by simp [pastGet])
  | stampSet r _ => exact absurd (h r) (by simp [pastGet])
  | load | monitor _ | save _ _ | refreshLoad _ | refresh _ _ | stampGet _ => trivial

/-- Only the step that sets a stamp is an answer. -/
theorem answers_nil {w : World} {i d : Nat} {pc : Pc} (hp : place w i = some pc)
    (hpc : ∀ r stamp, pc ≠ .stampSet r stamp) : answers w (.tick i d) = [] := by
  simp only [answers, hp]
  split
  · rename_i heq
    exact absurd (Option.some.inj heq) (hpc _ _)
  · rfl

/-- A step that answers nothing keeps what is known of the answers. -/
theorem throttleInv_of_no_answer {l l' : Logged World Answer} (h : ThrottleInv l)
    (hlog : l'.log = l.log) (hs : ∀ r, stampOf l'.state r = stampOf l.state r)
    (hcalls : ∀ i pc, place l'.state i = some pc → Informed l'.state pc) : ThrottleInv l' where
  calls := hcalls
  stamps := by
    intro a ha
    rw [hlog] at ha
    rw [hs]
    exact h.stamps a ha
  times := by
    rw [hlog]
    exact h.times
  apart := by
    unfold Throttled
    rw [hlog]
    exact h.apart

/-- Where run `i` has moved, and no stamp is written, the other calls know what they knew. -/
theorem informed_others {l l' : Logged World Answer} {i : Nat} (h : ThrottleInv l)
    (hstay : OthersStay l.state l'.state i) (hs : ∀ r, stampOf l'.state r = stampOf l.state r)
    (hle : l.state.now ≤ l'.state.now)
    (hi : ∀ pc, place l'.state i = some pc → Informed l'.state pc) :
    ∀ k pc, place l'.state k = some pc → Informed l'.state pc := by
  intro k pc hk
  by_cases hki : k = i
  · exact hi pc (hki ▸ hk)
  · rw [hstay k hki] at hk
    exact informed_later (fun r _ => hs r) hle (h.calls k pc hk)

/-- No call but that of run `i` has read the stamp of `r`. -/
def Alone (w : World) (i : Nat) (r : Range) : Prop :=
  ∀ k < w.ticks.length, k ≠ i → ¬ Calling w k r

/-- The other calls read other stamps than the one that is set. -/
theorem informed_set {w w' : World} {i k : Nat} {r : Range} {pc : Pc} (halone : Alone w i r)
    (hothers : ∀ r', r' ≠ r → stampOf w' r' = stampOf w r') (hle : w.now ≤ w'.now) (hki : k ≠ i)
    (hk : place w k = some pc) (h : Informed w pc) : Informed w' pc := by
  have hlt : k < w.ticks.length := standsAt_lt hk
  have hcall : ¬ Calling w k r := halone k hlt hki
  refine informed_later ?_ hle h
  intro q hpast
  refine hothers q ?_
  intro hqr
  apply hcall
  unfold Calling
  rw [hk, ← hqr]
  exact hpast

/-- A stamp is set ahead of the one before it. -/
theorem stamps_set {w w' : World} {r q : Range} {stamp s : Int}
    (hahead : stampOf w r + r.value < stamp) (hst : stampOf w' r = stamp)
    (hothers : ∀ r', r' ≠ r → stampOf w' r' = stampOf w r') (h : s ≤ stampOf w q) :
    s ≤ stampOf w' q := by
  by_cases hqr : q = r
  · have hvalue : 0 ≤ r.value := by cases r <;> decide
    rw [hqr] at h ⊢
    rw [hst]
    omega
  · rw [hothers q hqr]
    exact h

/-- An answer for a range that is due comes more than the interval after those before it. -/
theorem throttled_snoc {l l' : Logged World Answer} {r : Range} {stamp : Int} (h : ThrottleInv l)
    (hahead : stampOf l.state r + r.value < stamp) (hlog : l'.log = l.log ++ [⟨r, stamp, stamp⟩]) :
    Throttled l' := by
  unfold Throttled
  rw [hlog, List.pairwise_append]
  refine ⟨h.apart, List.pairwise_singleton _ _, ?_⟩
  intro a ha b hb hr
  rw [List.mem_singleton.mp hb] at hr ⊢
  have hstamp : a.stamp ≤ stampOf l.state a.range := h.stamps a ha
  have htime : a.time = a.stamp := h.times a ha
  have har : a.range = r := hr
  rw [har] at hstamp ⊢
  show stamp - a.time > r.value
  omega

/-- The step that sets a stamp answers for it. -/
theorem throttleInv_set {l l' : Logged World Answer} {i : Nat} {r : Range} {stamp : Int}
    (h : ThrottleInv l) (halone : Alone l.state i r)
    (hahead : stampOf l.state r + r.value < stamp) (hst : stampOf l'.state r = stamp)
    (hothers : ∀ r', r' ≠ r → stampOf l'.state r' = stampOf l.state r')
    (hle : l.state.now ≤ l'.state.now) (hp' : place l'.state i = some (.refreshLoad (.range r)))
    (hstay : OthersStay l.state l'.state i) (hlog : l'.log = l.log ++ [⟨r, stamp, stamp⟩]) :
    ThrottleInv l' where
  calls := by
    intro k pc hk
    by_cases hki : k = i
    · rw [hki, hp'] at hk
      rw [← Option.some.inj hk]
      trivial
    · rw [hstay k hki] at hk
      exact informed_set halone hothers hle hki hk (h.calls k pc hk)
  stamps := by
    intro a ha
    rw [hlog] at ha
    rcases List.mem_append.mp ha with hold | hnew
    · exact stamps_set hahead hst hothers (h.stamps a hold)
    · rw [List.mem_singleton.mp hnew]
      exact Int.le_of_eq hst.symm
  times := by
    intro a ha
    rw [hlog] at ha
    rcases List.mem_append.mp ha with hold | hnew
    · exact h.times a hold
    · rw [List.mem_singleton.mp hnew]
  apart := throttled_snoc h hahead hlog

/-- **The throttle holds through every step that sets a stamp alone.** -/
theorem throttleInv_step {l l' : Logged World Answer} {a : World.Act} (h : ThrottleInv l)
    (hok : NoOverlap l a ∧ Prompt l a) (hs : StampStep l.state l'.state a)
    (hlog : l'.log = l.log ++ answers l.state a) : ThrottleInv l' := by
  cases hs with
  | quiet hst hle hpl ha =>
      refine throttleInv_of_no_answer h (by rw [hlog, ha, List.append_nil]) hst ?_
      intro k pc hk
      by_cases hpast : ∃ r, pastGet r pc = true
      · obtain ⟨r, hpast⟩ := hpast
        exact informed_later (fun r _ => hst r) hle (h.calls k pc (hpl k pc r hk hpast))
      · refine informed_of_not_past ?_
        intro r
        by_contra hne
        exact hpast ⟨r, by simpa using hne⟩
  | @got i d r hst hle hp hp' hstay =>
      refine throttleInv_of_no_answer h ?_ hst (informed_others h hstay hst hle ?_)
      · rw [hlog, answers_nil hp (by simp), List.append_nil]
      · intro pc hpc
        rw [hp'] at hpc
        rw [← Option.some.inj hpc]
        exact (hst r).symm
  | @tested i d r timestamp hst hle hp hdue hp' hstay =>
      refine throttleInv_of_no_answer h ?_ hst (informed_others h hstay hst hle ?_)
      · rw [hlog, answers_nil hp (by simp), List.append_nil]
      · intro pc hpc
        rw [hp'] at hpc
        rw [← Option.some.inj hpc]
        have hread : timestamp = stampOf l.state r := h.calls i _ hp
        show stampOf l'.state r + r.value < l'.state.now
        rw [hst, ← hread]
        omega
  | @read i d r hst hle hp hp' hstay =>
      refine throttleInv_of_no_answer h ?_ hst (informed_others h hstay hst hle ?_)
      · rw [hlog, answers_nil hp (by simp), List.append_nil]
      · intro pc hpc
        rw [hp'] at hpc
        rw [← Option.some.inj hpc]
        have hdue : stampOf l.state r + r.value < l.state.now := h.calls i _ hp
        refine ⟨?_, hle⟩
        rw [hst]
        exact hdue
  | @set i d r stamp hp hst hothers hle hp' hstay =>
      have hans : answers l.state (.tick i d) = [⟨r, stamp, l.state.now + d⟩] := by
        simp only [answers, hp]
      have halone : Alone l.state i r := by
        have hno := hok.1
        simp only [NoOverlap, hp] at hno
        exact hno
      have htime : l.state.now + d = stamp := by
        refine hok.2 ⟨r, stamp, l.state.now + d⟩ ?_
        rw [hans]
        exact List.mem_singleton_self _
      obtain ⟨hahead, _⟩ : stampOf l.state r + r.value < stamp ∧ stamp ≤ l.state.now :=
        h.calls i _ hp
      rw [hans, htime] at hlog
      exact throttleInv_set h halone hahead hst hothers hle hp' hstay hlog

theorem throttleInv_reachable {cfg : Config} {l : Logged World Answer}
    (h : Reachable (logged (World.act cfg) answers) (fun l a => NoOverlap l a ∧ Prompt l a)
      (unobserved World.Init) l) : ThrottleInv l := by
  refine h.invariant (fun _ => throttleInv_init) ?_
  intro l a l' hi hok hs
  obtain ⟨hstep, hlog⟩ := logged_eq_some.mp hs
  exact throttleInv_step hi hok (act_stampStep hstep) hlog

/--
**The throttle holds in every run whose calls for a range do not overlap**, and
return before the clock moves on from the stamp they set.
-/
theorem throttled_of_noOverlap (cfg : Config) :
    ∀ l, Reachable (logged (World.act cfg) answers) (fun l a => NoOverlap l a ∧ Prompt l a)
      (unobserved World.Init) l → Throttled l :=
  fun _ h => (throttleInv_reachable h).apart

instance (w : World) (k : Nat) (r : Range) : Decidable (Calling w k r) :=
  inferInstanceAs (Decidable (_ = _))

instance (l : Logged World Answer) (a : World.Act) : Decidable (NoOverlap l a) := by
  unfold NoOverlap
  split
  · split <;> infer_instance
  · infer_instance

instance (l : Logged World Answer) (a : World.Act) : Decidable (Prompt l a) :=
  inferInstanceAs (Decidable (∀ x ∈ _, _))

/-- Nothing has happened yet, at time 10000. -/
def unthrottled : Logged World Answer := ⟨{ World.boot with now := 10000 }, []⟩

theorem unthrottled_init : unobserved World.Init unthrottled := ⟨⟨10000, rfl⟩, rfl⟩

/-- A run of `n` statements of a new tick `i`. -/
def runOf (i n : Nat) : List World.Act := .schedule :: .startTick i :: List.replicate n (.tick i 0)

/-- Two ticks, the second one when the interval of `soon` has just passed. -/
theorem throttled_twoTicks :
    ∃ l : Logged World Answer,
      l.log = [⟨.soon, 10000, 10000⟩, ⟨.soon, 10301, 10301⟩] ∧ Throttled l := by
  obtain ⟨l, hr, hlog⟩ := reachable_of_run (logged (World.act ⟨.binary, .persistence⟩) answers)
    (fun l a => NoOverlap l a ∧ Prompt l a) (runOf 0 8 ++ .advance 301 :: runOf 1 8)
    (fun l => l.log = [⟨.soon, 10000, 10000⟩, ⟨.soon, 10301, 10301⟩]) unthrottled_init
    (by decide +kernel)
  exact ⟨l, hlog, throttled_of_noOverlap ⟨.binary, .persistence⟩ l hr⟩

/-- Two ticks that both read the stamp of `soon` before either sets it. -/
def bothRead : List World.Act :=
  runOf 0 5 ++ runOf 1 5 ++ List.replicate 3 (.tick 0 0) ++ List.replicate 3 (.tick 1 0)

/-- A stamp that is ten seconds old when it is set, and the next tick. -/
def oldStamp : List World.Act :=
  runOf 0 7 ++ .advance 10 :: .tick 0 0 :: .advance 291 :: runOf 1 8

/-- Two answers for `soon` within its interval. -/
def TooClose (l : Logged World Answer) : Prop :=
  ∃ a b, l.log = [a, b] ∧ a.range = b.range ∧ b.time - a.time ≤ a.range.value

theorem not_throttled_of_tooClose {l : Logged World Answer} (h : TooClose l) : ¬ Throttled l := by
  obtain ⟨a, b, hlog, hr, hle⟩ := h
  intro ht
  unfold Throttled at ht
  rw [hlog] at ht
  have hgt := List.rel_of_pairwise_cons ht (List.mem_singleton_self b) hr
  omega

/--
**Two overlapping ticks break the throttle, and so do two that follow each other
when the first is slow to set its stamp.**
-/
theorem throttle_broken :
    (¬ ∀ l, Reachable (logged (World.act ⟨.binary, .persistence⟩) answers) Prompt
        (unobserved World.Init) l → Throttled l)
      ∧ ¬ ∀ l, Reachable (logged (World.act ⟨.binary, .persistence⟩) answers) NoOverlap
        (unobserved World.Init) l → Throttled l := by
  constructor
  · intro hall
    obtain ⟨l, hr, hlog⟩ := reachable_of_run (logged (World.act ⟨.binary, .persistence⟩) answers)
      Prompt bothRead (fun l => l.log = [⟨.soon, 10000, 10000⟩, ⟨.soon, 10000, 10000⟩])
      unthrottled_init (by decide +kernel)
    exact not_throttled_of_tooClose ⟨_, _, hlog, rfl, by decide⟩ (hall l hr)
  · intro hall
    obtain ⟨l, hr, hlog⟩ := reachable_of_run (logged (World.act ⟨.binary, .persistence⟩) answers)
      NoOverlap oldStamp (fun l => l.log = [⟨.soon, 10000, 10010⟩, ⟨.soon, 10301, 10301⟩])
      unthrottled_init (by decide +kernel)
    exact not_throttled_of_tooClose ⟨_, _, hlog, rfl, by decide⟩ (hall l hr)

end BetterEfisis.Proof

import BetterEfisis.Lib.Keyed
import BetterEfisis.Lib.Trace
import BetterEfisis.World

/-!
# One runner row to a team

A monitor looks each of its two teams up by name and creates a runner where it
finds none. The name is looked up as the feed has it, the row is validated against
the name as the feed has it, and what is stored is that name in lower case. Two
monitors can both look a team up before either has created it, and where the
database compares names exactly, a name with a capital letter is never found at
all (`teams_doubled`).

All is well exactly as long as no monitor goes on to create a runner whose name,
in lower case, is stored already. That a look-up finds the right runner and only
one needs nothing but this, however the database compares names.
-/

namespace BetterEfisis.Proof

open Lib MonitorWEBWorker

/-- A name the feed has for a team, and the runner id `perform` goes on with for it. -/
structure Lookup where
  name : Option String
  runner : Option Nat
deriving DecidableEq, Repr

/-- What the statement that ends like this has found out about a team. -/
def resolved : Outcome Pc → List Lookup
  | .next (.findAway homeName _ runnerHome) => [⟨homeName, runnerHome⟩]
  | .next (.loadInPlay m) => [⟨m.awayName, m.runnerAway⟩]
  | _ => []

/-- What is found out in a step. -/
def lookups (cfg : Config) (w : World) : World.Act → List Lookup
  | .monitor j body =>
      match w.monitors[j]? with
      | some job =>
          match job.phase with
          | .running pc => resolved (step cfg job.arg body w.store pc).2
          | _ => []
      | none => []
  | _ => []

/-- The name of the runner a statement is about to create. -/
def creating : Pc → Option String
  | .createHome homeName _ => homeName
  | .createAway _ awayName _ => awayName
  | _ => none

/-- No stored name is that of the runner about to be created, up to case. -/
def NewTeam (t : List Runner) (pc : Pc) : Prop :=
  ∀ r ∈ t, (creating pc).map downcase ≠ some (downcase r.name)

/-- The steps that create no runner under a name that is stored, up to case. -/
def NewTeams (l : Logged World Lookup) : World.Act → Prop
  | .monitor j _ =>
      match standsAt l.state.monitors j with
      | some pc => NewTeam l.state.store.runners pc
      | none => True
  | _ => True

/-- No two rows have the same name up to case, and all look-ups of such names found one runner. -/
def OneRunner (l : Logged World Lookup) : Prop :=
  Keyed (fun r => downcase r.name) l.state.store.runners
    ∧ ∀ a ∈ l.log, ∀ b ∈ l.log, a.name.map downcase = b.name.map downcase →
        ∃ id, a.runner = some id ∧ b.runner = some id

/-! ## What a statement does to the runners -/

inductive Team (c : Collation) (t t' : List Runner) (pc : Pc) : List Lookup → Prop where
  | quiet : creating pc = none → t' = t → Team c t t' pc []
  | found {n : String} {r : Runner} : creating pc = none → t' = t → r ∈ t →
      c.same r.name n = true → Team c t t' pc [⟨some n, some r.id⟩]
  /-- The name as given is stored, so the new runner is not valid. -/
  | refused {n : String} {r : Runner} : creating pc = some n → t' = t → r ∈ t → r.name = n →
      Team c t t' pc [⟨some n, none⟩]
  | created {n : String} : creating pc = some n → t' = t ++ [⟨t.length + 1, downcase n⟩] →
      Team c t t' pc [⟨some n, some (t.length + 1)⟩]

/-- `Runner.select(:id).find_by(name: name)`, whichever of the two teams it is for. -/
theorem team_found {c : Collation} {t : List Runner} {pc : Pc} {name : Option String}
    {r : Runner} (hpc : creating pc = none) (h : Runner.findBy c t name = some r) :
    Team c t t pc [⟨name, some r.id⟩] := by
  obtain ⟨n, rfl, hmem, hsame⟩ := Runner.findBy_some h
  exact .found hpc rfl hmem hsame

/-- `Runner.create(name: name).id`, whichever of the two teams it is for. -/
theorem team_create {c : Collation} {t t' : List Runner} {pc : Pc} {name : Option String}
    {id : Option Nat} (hpc : creating pc = name) (h : Runner.create t name = .ok (t', id)) :
    Team c t t' pc [⟨name, id⟩] := by
  cases name with
  | none => exact absurd h (by simp [Runner.create])
  | some n =>
      rw [Runner.create] at h
      split at h
      · rename_i htaken
        obtain ⟨rfl, rfl⟩ := Prod.mk.inj (Except.ok.inj h)
        obtain ⟨r, hr, hn⟩ := List.any_eq_true.mp htaken
        exact .refused hpc rfl hr (of_decide_eq_true hn)
      · obtain ⟨rfl, rfl⟩ := Prod.mk.inj (Except.ok.inj h)
        exact .created hpc rfl

theorem step_team (cfg : Config) (id : Int) (body : Body) (s : Store) (pc : Pc) :
    Team cfg.collation s.runners (step cfg id body s pc).1.runners pc
      (resolved (step cfg id body s pc).2) := by
  cases pc with
  | findHome t =>
      simp only [step]
      split
      · rename_i home away _
        split
        · rename_i r hr
          exact team_found rfl hr
        · exact .quiet rfl rfl
      · exact .quiet rfl rfl
  | createHome homeName awayName =>
      simp only [step]
      split
      · rename_i h
        exact team_create rfl h
      · rename_i h
        exact .quiet (create_error h) rfl
  | findAway homeName awayName runnerHome =>
      simp only [step]
      split
      · rename_i r hr
        exact team_found rfl hr
      · exact .quiet rfl rfl
  | createAway homeName awayName runnerHome =>
      simp only [step]
      split
      · rename_i h
        exact team_create rfl h
      · rename_i h
        exact .quiet (create_error h) rfl
  | setKey t | saveInPlay m e | delKey m us | saveEnded e => exact .quiet rfl rfl
  | snapshot m sc t =>
      simp only [step]
      split <;> exact .quiet rfl rfl
  | loadInPlay m | loadEnded =>
      simp only [step]
      split <;> exact .quiet rfl rfl
  | waiting n | polling m sc | importUpdates m us =>
      simp only [step]
      repeat' split
      all_goals exact .quiet rfl rfl

/-- An `OddsWorker` run knows no runners. -/
theorem runners_tick (now now' : Int) (s : Store) (pc : OddsWorker.Pc) :
    (OddsWorker.step now now' s pc).store.runners = s.runners := by
  cases pc with
  | monitor rows =>
      cases rows with
      | nil => rfl
      | cons e rows =>
          simp only [OddsWorker.step]
          split <;> rfl
  | refresh sc ids => cases ids <;> rfl
  | stampTest r timestamp =>
      simp only [OddsWorker.step]
      split <;> rfl
  | load | save _ _ | refreshLoad _ | stampGet _ | stampRead _ | stampSet _ _ => rfl

/-- **What a step does to the runners.** -/
theorem act_team {cfg : Config} {w w' : World} {a : World.Act} (hs : World.act cfg w a = some w') :
    (w'.store.runners = w.store.runners ∧ lookups cfg w a = [] ∧ ∀ j body, a ≠ .monitor j body)
      ∨ ∃ j body pc, a = .monitor j body ∧ standsAt w.monitors j = some pc
        ∧ Team cfg.collation w.store.runners w'.store.runners pc (lookups cfg w a) := by
  cases World.act_cases hs with
  | @monitored j body job pc hj hp =>
      right
      have hl : lookups cfg w (.monitor j body)
          = resolved (step cfg job.arg body w.store pc).2 := by
        simp only [lookups, hj, hp]
      refine ⟨j, body, pc, rfl, standsAt_iff.mpr ⟨job, hj, hp⟩, ?_⟩
      rw [hl]
      exact step_team cfg job.arg body w.store pc
  | ticked _ _ => exact Or.inl ⟨runners_tick w.now _ w.store _, rfl, by simp⟩
  | imported _ _ | advanced | scheduled | startedTick _ _ | raisedTick _ _ | startedMonitor _ _
  | raisedMonitor _ _ => exact Or.inl ⟨rfl, rfl, by simp⟩

/-! ## The invariant -/

structure TeamInv (l : Logged World Lookup) : Prop where
  lower : ∀ r ∈ l.state.store.runners, downcase r.name = r.name
  single : Keyed (fun r => downcase r.name) l.state.store.runners
  /-- Every look-up has found the runner that is stored under the name in lower case. -/
  found : ∀ a ∈ l.log, ∃ n, ∃ r ∈ l.state.store.runners,
    a.name = some n ∧ r.name = downcase n ∧ a.runner = some r.id

theorem teamInv_init {l : Logged World Lookup} (h : unobserved World.Init l) : TeamInv l := by
  obtain ⟨⟨now, hw⟩, hlog⟩ := h
  constructor
  · simp [hw, World.boot, Store.boot]
  · simp [hw, World.boot, Store.boot, keyed_nil]
  · simp [hlog]

/-- Rows of one name are one row. -/
theorem runner_eq {t : List Runner} (h : Keyed (fun r => downcase r.name) t) {r r' : Runner}
    (hr : r ∈ t) (hr' : r' ∈ t) (hn : downcase r.name = downcase r'.name) : r = r' :=
  List.inj_on_of_nodup_map h hr hr' hn

theorem oneRunner_of_teamInv {l : Logged World Lookup} (h : TeamInv l) : OneRunner l := by
  refine ⟨h.single, ?_⟩
  intro a ha b hb hab
  obtain ⟨n, r, hr, hn, hname, hrun⟩ := h.found a ha
  obtain ⟨n', r', hr', hn', hname', hrun'⟩ := h.found b hb
  rw [hn, hn'] at hab
  have hsame : downcase n = downcase n' := Option.some.inj hab
  have heq : r = r' := by
    refine runner_eq h.single hr hr' ?_
    rw [hname, hname', hsame]
  exact ⟨r.id, hrun, heq ▸ hrun'⟩

/-- However names are compared, a stored name that compares equal is the name in lower case. -/
theorem name_of_same {c : Collation} {r : Runner} {n : String} (hlow : downcase r.name = r.name)
    (h : c.same r.name n = true) : r.name = downcase n := by
  cases c with
  | binary =>
      have heq : r.name = n := of_decide_eq_true h
      rw [← heq, hlow]
  | ignoreCase =>
      have heq : downcase r.name = downcase n := of_decide_eq_true h
      rw [← heq, hlow]

/-- What has been found stays found in a table that grows. -/
theorem found_mono {t t' : List Runner} (hsub : t ⊆ t') {a : Lookup}
    (h : ∃ n, ∃ r ∈ t, a.name = some n ∧ r.name = downcase n ∧ a.runner = some r.id) :
    ∃ n, ∃ r ∈ t', a.name = some n ∧ r.name = downcase n ∧ a.runner = some r.id := by
  obtain ⟨n, r, hr, hrest⟩ := h
  exact ⟨n, r, hsub hr, hrest⟩

/-- **A statement that creates no known team keeps one runner to a team.** -/
theorem teamInv_step {c : Collation} {l l' : Logged World Lookup} {pc : Pc} {new : List Lookup}
    (h : TeamInv l) (hok : NewTeam l.state.store.runners pc)
    (hs : Team c l.state.store.runners l'.state.store.runners pc new)
    (hlog : l'.log = l.log ++ new) : TeamInv l' := by
  cases hs with
  | quiet _ ht =>
      rw [List.append_nil] at hlog
      exact ⟨by rw [ht]; exact h.lower, by rw [ht]; exact h.single,
        by rw [ht, hlog]; exact h.found⟩
  | @found n r _ ht hr hsame =>
      refine ⟨by rw [ht]; exact h.lower, by rw [ht]; exact h.single, ?_⟩
      intro a ha
      rw [hlog] at ha
      rw [ht]
      rcases List.mem_append.mp ha with hold | hnew
      · exact h.found a hold
      · rw [List.mem_singleton.mp hnew]
        exact ⟨n, r, hr, rfl, name_of_same (h.lower r hr) hsame, rfl⟩
  | @refused n r hpc _ hr hn =>
      exfalso
      refine hok r hr ?_
      rw [hpc, hn]
      rfl
  | @created n hpc ht =>
      have hnew : ∀ r ∈ l.state.store.runners, downcase r.name ≠ downcase n := by
        intro r hr heq
        refine hok r hr ?_
        rw [hpc, heq]
        rfl
      constructor
      · intro r hr
        rw [ht] at hr
        rcases List.mem_append.mp hr with hold | hlast
        · exact h.lower r hold
        · rw [List.mem_singleton.mp hlast]
          exact downcase_downcase n
      · rw [ht, keyed_snoc]
        refine ⟨h.single, ?_⟩
        intro r hr
        show downcase r.name ≠ downcase (downcase n)
        rw [downcase_downcase]
        exact hnew r hr
      · intro a ha
        rw [hlog] at ha
        rw [ht]
        rcases List.mem_append.mp ha with hold | hlast
        · exact found_mono (List.subset_append_left _ _) (h.found a hold)
        · rw [List.mem_singleton.mp hlast]
          exact ⟨n, _, List.mem_append_right _ (List.mem_singleton_self _), rfl, rfl, rfl⟩

/-- And one that creates a known team does not. -/
theorem newTeam_of_oneRunner {c : Collation} {l l' : Logged World Lookup} {pc : Pc}
    {new : List Lookup} (hs : Team c l.state.store.runners l'.state.store.runners pc new)
    (hlog : l'.log = l.log ++ new) (h : OneRunner l') : NewTeam l.state.store.runners pc := by
  intro r hr heq
  obtain ⟨hsingle, hlook⟩ := h
  cases hs with
  | quiet hpc _ => rw [hpc] at heq; exact absurd heq (by simp)
  | found hpc _ _ _ => rw [hpc] at heq; exact absurd heq (by simp)
  | @refused n r' hpc _ _ _ =>
      -- the look-up ended without a runner
      have hmem : (⟨some n, none⟩ : Lookup) ∈ l'.log := by simp [hlog]
      obtain ⟨id, hid, _⟩ := hlook _ hmem _ hmem rfl
      exact absurd hid (by simp)
  | @created n hpc ht =>
      rw [ht, keyed_snoc] at hsingle
      rw [hpc] at heq
      refine hsingle.2 r hr ?_
      show downcase r.name = downcase (downcase n)
      rw [downcase_downcase]
      exact (Option.some.inj heq).symm

theorem teamInv_reachable {cfg : Config} {l : Logged World Lookup}
    (h : Reachable (logged (World.act cfg) (lookups cfg)) NewTeams (unobserved World.Init) l) :
    TeamInv l := by
  refine h.invariant (fun _ => teamInv_init) ?_
  intro l a l' hi hok hs
  obtain ⟨hstep, hlog⟩ := logged_eq_some.mp hs
  rcases act_team hstep with ⟨ht, hl, _⟩ | ⟨j, body, pc, rfl, hpc, hteam⟩
  · rw [hl, List.append_nil] at hlog
    exact ⟨by rw [ht]; exact hi.lower, by rw [ht]; exact hi.single,
      by rw [ht, hlog]; exact hi.found⟩
  · have hnew : NewTeam l.state.store.runners pc := by
      simp only [NewTeams, hpc] at hok
      exact hok
    exact teamInv_step hi hnew hteam hlog

/--
**There is one runner to a team as long as no monitor creates a known one**, and
the step that does ends that, whether names are compared exactly or not.
-/
theorem oneRunner_of_newTeams (cfg : Config) :
    ∀ l, Reachable (logged (World.act cfg) (lookups cfg)) NewTeams (unobserved World.Init) l →
      OneRunner l
        ∧ ∀ a l', logged (World.act cfg) (lookups cfg) l a = some l' →
            (OneRunner l' ↔ NewTeams l a) := by
  intro l h
  have hinv := teamInv_reachable h
  refine ⟨oneRunner_of_teamInv hinv, ?_⟩
  intro a l' hs
  constructor
  · intro hone
    obtain ⟨hstep, hlog⟩ := logged_eq_some.mp hs
    rcases act_team hstep with ⟨_, _, hnot⟩ | ⟨j, body, pc, rfl, hpc, hteam⟩
    · cases a with
      | monitor j body => exact absurd rfl (hnot j body)
      | _ => trivial
    · simp only [NewTeams, hpc]
      exact newTeam_of_oneRunner hteam hlog hone
  · intro hok
    exact oneRunner_of_teamInv
      (teamInv_reachable (h.later (Lib.Path.tail (Lib.Path.refl l) hok hs)))

instance (t : List Runner) (pc : Pc) : Decidable (NewTeam t pc) :=
  inferInstanceAs (Decidable (∀ r ∈ t, _))

instance (l : Logged World Lookup) (a : World.Act) : Decidable (NewTeams l a) := by
  unfold NewTeams
  split
  · split <;> infer_instance
  · infer_instance

/-- A match that is over at the first poll. -/
def portoBraga : Timeline where
  score := some ⟨some ⟨some "Porto", some 2⟩, some ⟨some "Braga", some 1⟩⟩
  updateDetails := some []
  timeElapsed := some 93
  status := some "COMPLETE"
  inPlayMatchStatus := none

/-- A tick enqueues the monitors of two matches that have kicked off. -/
def twoMonitored : List World.Act :=
  [.importEvents [⟨7, some "Porto v Braga", some 0, some "PT", some .notStarted, some false⟩,
      ⟨8, some "Porto v Braga", some 0, some "PT", some .notStarted, some false⟩],
    .schedule, .startTick 0, .tick 0 0, .tick 0 0, .tick 0 0, .tick 0 0]

/-- `n` statements of a monitor. -/
def polls (j n : Nat) : List World.Act := List.replicate n (.monitor j (.json portoBraga))

/-- One monitor after the other. -/
def successive (n : Nat) : List World.Act :=
  twoMonitored ++ .startMonitor 0 :: polls 0 14 ++ .startMonitor 1 :: polls 1 n

def nobody : Logged World Lookup := ⟨World.boot, []⟩

theorem nobody_init : unobserved World.Init nobody := ⟨⟨0, rfl⟩, rfl⟩

/-- Where the case is ignored, the second match finds the runners of the first. -/
theorem oneRunner_successive :
    ∃ l : Logged World Lookup, l.state.store.runners = [⟨1, "porto"⟩, ⟨2, "braga"⟩]
      ∧ l.log.length = 4 ∧ OneRunner l := by
  obtain ⟨l, hr, ht, hlen⟩ := reachable_of_run
    (logged (World.act ⟨.ignoreCase, .persistence⟩) (lookups ⟨.ignoreCase, .persistence⟩))
    NewTeams (successive 5)
    (fun l => l.state.store.runners = [⟨1, "porto"⟩, ⟨2, "braga"⟩] ∧ l.log.length = 4)
    nobody_init (by decide +kernel)
  exact ⟨l, ht, hlen, (oneRunner_of_newTeams ⟨.ignoreCase, .persistence⟩ l hr).1⟩

/-- A monitor is started only while no other is in progress. -/
def OneByOne (l : Logged World Lookup) : World.Act → Prop
  | .startMonitor _ => ∀ job ∈ l.state.monitors, job.inProgress = false
  | _ => True

instance (l : Logged World Lookup) (a : World.Act) : Decidable (OneByOne l a) := by
  unfold OneByOne
  split <;> infer_instance

/-- Two monitors that both look their home team up before either has created it. -/
def bothLook : List World.Act :=
  twoMonitored ++ .startMonitor 0 :: .startMonitor 1 :: polls 0 3 ++ polls 1 3 ++ polls 0 1
    ++ polls 1 1

/--
**A team gets two rows from monitors that run one after the other where names are
compared exactly, and from two that overlap where the case is ignored.**
-/
theorem teams_doubled :
    (¬ ∀ l, Reachable
        (logged (World.act ⟨.binary, .persistence⟩) (lookups ⟨.binary, .persistence⟩)) OneByOne
        (unobserved World.Init) l → OneRunner l)
      ∧ ¬ ∀ l, Reachable
        (logged (World.act ⟨.ignoreCase, .persistence⟩) (lookups ⟨.ignoreCase, .persistence⟩))
        always (unobserved World.Init) l → OneRunner l := by
  constructor
  · intro hall
    obtain ⟨l, hr, hnot⟩ := reachable_of_run
      (logged (World.act ⟨.binary, .persistence⟩) (lookups ⟨.binary, .persistence⟩)) OneByOne
      (successive 4) (fun l => ¬ Keyed (fun r => downcase r.name) l.state.store.runners) nobody_init
      (by decide +kernel)
    exact hnot (hall l hr).1
  · intro hall
    obtain ⟨l, hr, hnot⟩ := reachable_of_run
      (logged (World.act ⟨.ignoreCase, .persistence⟩) (lookups ⟨.ignoreCase, .persistence⟩))
      always bothLook (fun l => ¬ Keyed (fun r => downcase r.name) l.state.store.runners)
      nobody_init (by decide +kernel)
    exact hnot (hall l hr).1

end BetterEfisis.Proof

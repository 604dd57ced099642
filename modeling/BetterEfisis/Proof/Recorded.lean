import BetterEfisis.Alone

/-!
# The record of a finished match

A monitor that is left alone with a feed that ends deletes its key and stores the
entries of the last timeline, each under the runner of its team. What becomes of the
event is up to what `Event.update` calls: the class method hands the attributes to
`update` of the event it has found, and `has_many :update` gives events a reader of
that name. The reader loads the updates of the event, and writes nothing.
-/

namespace BetterEfisis.Proof

open Lib MonitorWEBWorker

/-- `score.home.name`. -/
def homeName (t : Timeline) : Option String := (t.score.bind Score.home).bind Team.name

/-- `score.away.name`. -/
def awayName (t : Timeline) : Option String := (t.score.bind Score.away).bind Team.name

/-- A body that has a score, both names, and entries. -/
def Carries (t : Timeline) : Prop :=
  (homeName t).isSome = true ∧ (awayName t).isSome = true ∧ t.updateDetails.isSome = true

instance (t : Timeline) : Decidable (Carries t) := inferInstanceAs (Decidable (_ ∧ _ ∧ _))

/-- What a feed answers that is empty for a while, and then follows a match to its end. -/
structure Feed where
  waits : Nat
  /-- The bodies before the last one. -/
  playing : List Timeline
  final : Timeline
  waits_lt : waits < 200
  carries : ∀ t ∈ playing ++ [final], Carries t
  notOver : ∀ t ∈ playing, isOver t = false
  ends : isOver final = true

namespace Feed

def timelines (f : Feed) : List Timeline := f.playing ++ [f.final]

/-- The first body that is not empty. -/
def first (f : Feed) : Timeline := f.playing.headD f.final

def bodies (f : Feed) : List Body :=
  List.replicate f.waits .empty ++ f.timelines.map .json

end Feed

/-- `id` is that of a runner stored for a team of that name. -/
def RunsFor (t : List Runner) (name : Option String) (id : Option Nat) : Prop :=
  ∃ r ∈ t, ∃ n, id = some r.id ∧ name = some n ∧ downcase r.name = downcase n

/-- The row of an entry, where `home` and `away` are the ids of the two teams. -/
def RowFor (id : Int) (home away : Option Nat) (u : UpdateDetail) (row : Update) : Prop :=
  row.matchTime = u.matchTime ∧ row.updateType = u.type ∧ row.eventId = id
    ∧ row.runnerId = if u.team = some "home" then home
      else if u.team = some "away" then away else none

/-- Event `id` is stored with these values, which are those of a valid event. -/
def ValidEvent (s : Store) (id : Int) : Prop :=
  ∃ e, Event.lookup s.events id = some e ∧ e.presentFields = true

/-- The event has the status. -/
def HasStatus (s : Store) (id : Int) (st : Status) : Prop :=
  ∃ e, Event.lookup s.events id = some e ∧ e.status = some st

/-- The last timeline is stored, each entry once, in order, and under the runner of its team. -/
def TimelineStored (id : Int) (s : Store) (f : Feed) (s' : Store) : Prop :=
  ∃ home away us rows, RunsFor s'.runners (homeName f.first) home
    ∧ RunsFor s'.runners (awayName f.first) away ∧ f.final.updateDetails = some us
    ∧ s'.updates = s.updates ++ rows ∧ List.Forall₂ (RowFor id home away) us rows

/-- The run from `s` has returned, has read all of the feed, and has left the match recorded. -/
structure LeftRecorded (id : Int) (s : Store) (f : Feed) (w : Alone) : Prop where
  returned : w.at_ = .finished
  answers : w.answers = []
  ended : HasStatus w.store id .ended
  unmonitored : ∃ e, Event.lookup w.store.events id = some e ∧ e.monitored = some false
  key : w.store.redis (redisKey id) = none
  timeline : TimelineStored id s f w.store

/-- The run ends so, and whenever it is at a poll of the match the event is IN_PLAY. -/
def Recorded (cfg : Config) (id : Int) (s : Store) (f : Feed) : Prop :=
  (∃ w, Lib.Path (Alone.act cfg id) always (Alone.start s f.bodies) w ∧ LeftRecorded id s f w)
    ∧ ∀ w m sc, Lib.Path (Alone.act cfg id) always (Alone.start s f.bodies) w →
      w.at_ = .next (.polling m sc) → HasStatus w.store id .inPlay

variable {cfg : Config} {id : Int} {s : Store} {t : Timeline} {rest : List Body}

/-! ## The run, statement by statement -/

theorem path_poll {pc : Pc} {body : Body} {w : Alone} (h : Alone.polls pc = true)
    (hw : w = ⟨(step cfg id body s pc).1, (step cfg id body s pc).2, rest⟩) :
    Lib.Path (Alone.act cfg id) always ⟨s, .next pc, body :: rest⟩ w := by
  rw [hw]
  exact Lib.Path.one trivial (Alone.act_poll h)

theorem path_quiet {pc : Pc} {w : Alone} (h : Alone.polls pc = false)
    (hw : w = ⟨(step cfg id .empty s pc).1, (step cfg id .empty s pc).2, rest⟩) :
    Lib.Path (Alone.act cfg id) always ⟨s, .next pc, rest⟩ w := by
  rw [hw]
  exact Lib.Path.one trivial (Alone.act_quiet h)

/-- The waiting loop is left with the first body that is not empty. -/
theorem path_waiting {n k : Nat} (hk : n + k < 200) :
    Lib.Path (Alone.act cfg id) always
      ⟨s, .next (.waiting n), List.replicate k .empty ++ .json t :: rest⟩
      ⟨s, .next (.setKey t), rest⟩ := by
  induction k generalizing n with
  | zero =>
      have hn : n ≠ 200 := by omega
      refine path_poll (decide_eq_true hn) ?_
      simp only [step, if_neg hn]
  | succ k ih =>
      have hn : n ≠ 200 := by omega
      rw [List.replicate_succ, List.cons_append]
      refine Lib.Path.trans (path_poll (decide_eq_true hn) ?_) (ih (n := n + 1) (by omega))
      simp only [step, if_neg hn]

/-- A team is found, or created. -/
theorem runsFor_of_findBy {c : Collation} {rs : List Runner} {n : String} {r : Runner}
    (h : Runner.findBy c rs (some n) = some r) : RunsFor rs (some n) (some r.id) := by
  obtain ⟨n', hn, hr, hsame⟩ := Runner.findBy_some h
  cases hn
  refine ⟨r, hr, n, rfl, rfl, ?_⟩
  cases c with
  | binary => rw [of_decide_eq_true hsame]
  | ignoreCase => exact of_decide_eq_true hsame

theorem runsFor_created (rs : List Runner) (n : String) :
    RunsFor (rs ++ [⟨rs.length + 1, downcase n⟩]) (some n) (some (rs.length + 1)) :=
  ⟨_, List.mem_append_right _ (List.mem_singleton_self _), n, rfl, rfl, downcase_downcase n⟩

theorem RunsFor.mono {rs rs' : List Runner} {name : Option String} {i : Option Nat}
    (h : RunsFor rs name i) (hsub : rs ⊆ rs') : RunsFor rs' name i := by
  obtain ⟨r, hr, hrest⟩ := h
  exact ⟨r, hsub hr, hrest⟩

variable (cfg id s rest) in
/-- The look-up of a team of that name, and its creation where it is not found. -/
theorem path_team (find create : Pc) (next : Option Nat → Pc) (n : String)
    (hfind : ∀ s : Store, step cfg id .empty s find
      = (s, .next ((Runner.findBy cfg.collation s.runners (some n)).elim create
        (fun r => next (some r.id)))))
    (hcreate : ∀ s rs i, Runner.create s.runners (some n) = .ok (rs, i) →
      step cfg id .empty s create = ({ s with runners := rs }, .next (next i)))
    (hq : Alone.polls find = false) (hq' : Alone.polls create = false) :
    ∃ rs i, Lib.Path (Alone.act cfg id) always ⟨s, .next find, rest⟩
        ⟨{ s with runners := rs }, .next (next i), rest⟩
      ∧ RunsFor rs (some n) i ∧ s.runners ⊆ rs := by
  -- a team that is found costs one statement, and one that is not two
  cases hf : Runner.findBy cfg.collation s.runners (some n) with
  | some r =>
      refine ⟨s.runners, some r.id, path_quiet hq ?_, runsFor_of_findBy hf, List.Subset.refl _⟩
      rw [hfind, hf]
      rfl
  | none =>
      have hc := Runner.create_of_not_found hf
      refine ⟨s.runners ++ [⟨s.runners.length + 1, downcase n⟩], some (s.runners.length + 1), ?_,
        runsFor_created s.runners n, List.subset_append_left _ _⟩
      have hlook : Lib.Path (Alone.act cfg id) always ⟨s, .next find, rest⟩
          ⟨s, .next create, rest⟩ := by
        refine path_quiet hq ?_
        rw [hfind, hf]
        rfl
      refine Lib.Path.trans hlook (path_quiet hq' ?_)
      rw [hcreate s _ _ hc]

/-- The state of the run at a poll of the match. -/
def polling (s : Store) (m : Match) (sc : Scores) (rest : List Body) : Alone :=
  ⟨s, .next (.polling m sc), rest⟩

/-- Both teams of a body that carries a match. -/
theorem Carries.teams (h : Carries t) :
    ∃ home away, t.score = some ⟨some home, some away⟩ ∧ home.name = homeName t
      ∧ away.name = awayName t := by
  obtain ⟨hhome, haway, _⟩ := h
  unfold homeName at hhome ⊢
  unfold awayName at haway ⊢
  cases hsc : t.score with
  | none => simp [hsc] at hhome
  | some sc =>
      obtain ⟨home, away⟩ := sc
      cases home with
      | none => simp [hsc] at hhome
      | some home =>
          cases away with
          | none => simp [hsc] at haway
          | some away => exact ⟨home, away, rfl, rfl, rfl⟩

variable (cfg id s rest) in
/-- From the first body to the first `Event.update`. -/
theorem path_teams (ht : Carries t) :
    ∃ s' m, Lib.Path (Alone.act cfg id) always ⟨s, .next (.setKey t), rest⟩
        ⟨s', .next (.loadInPlay m), rest⟩
      ∧ RunsFor s'.runners (homeName t) m.runnerHome
      ∧ RunsFor s'.runners (awayName t) m.runnerAway
      ∧ s'.events = s.events ∧ s'.updates = s.updates := by
  obtain ⟨home, away, hscore, hhome, haway⟩ := ht.teams
  obtain ⟨hn, hhn⟩ := Option.isSome_iff_exists.mp ht.1
  obtain ⟨an, han⟩ := Option.isSome_iff_exists.mp ht.2.1
  rw [hhn] at hhome ⊢
  rw [han] at haway ⊢
  -- the key is written before either team is looked up
  let s₁ := s.redisSet (redisKey id) .blank
  have hset : Lib.Path (Alone.act cfg id) always ⟨s, .next (.setKey t), rest⟩
      ⟨s₁, .next (.findHome t), rest⟩ := path_quiet rfl rfl
  obtain ⟨rs, i, hp₁, hi, _⟩ := path_team cfg id s₁ rest (.findHome t)
    (.createHome (some hn) (some an)) (.findAway (some hn) (some an)) hn
    (by
      intro s
      simp only [step, hscore, hhome, haway]
      cases Runner.findBy cfg.collation s.runners (some hn) <;> rfl)
    (by
      intro s rs i hc
      simp only [step, hc])
    rfl rfl
  -- the away team is looked up among the runners the home team has left
  obtain ⟨rs', j, hp₂, hj, hsub⟩ := path_team cfg id { s₁ with runners := rs } rest
    (.findAway (some hn) (some an) i) (.createAway (some hn) (some an) i)
    (fun j => .loadInPlay ⟨some hn, some an, i, j⟩) an
    (by
      intro s
      simp only [step]
      cases Runner.findBy cfg.collation s.runners (some an) <;> rfl)
    (by
      intro s rs i hc
      simp only [step, hc])
    rfl rfl
  exact ⟨{ s₁ with runners := rs' }, ⟨some hn, some an, i, j⟩, (hset.trans hp₁).trans hp₂,
    hi.mono hsub, hj, rfl, rfl⟩

/-- The first `Event.update`, of the event stored as `e`. -/
theorem path_inPlay {m : Match} {e : Event} (he : Event.lookup s.events id = some e) :
    Lib.Path (Alone.act cfg id) always ⟨s, .next (.loadInPlay m), rest⟩
      (polling (s.eventUpdate cfg.updateMethod e .inPlay inPlay) m ⟨none, none⟩ rest) := by
  have hload : Lib.Path (Alone.act cfg id) always ⟨s, .next (.loadInPlay m), rest⟩
      ⟨s, .next (.saveInPlay m e), rest⟩ := by
    refine path_quiet rfl ?_
    have hfind : Event.find s.events id = .ok e := Event.find_eq_ok.mpr he
    simp only [step, hfind]
  exact hload.trans (path_quiet rfl rfl)

/-- The second `Event.update`, with which the run returns. -/
theorem path_ended {e : Event} (he : Event.lookup s.events id = some e) :
    Lib.Path (Alone.act cfg id) always ⟨s, .next .loadEnded, rest⟩
      ⟨s.eventUpdate cfg.updateMethod e .ended ended, .finished, rest⟩ := by
  have hload : Lib.Path (Alone.act cfg id) always ⟨s, .next .loadEnded, rest⟩
      ⟨s, .next (.saveEnded e), rest⟩ := by
    refine path_quiet rfl ?_
    have hfind : Event.find s.events id = .ok e := Event.find_eq_ok.mpr he
    simp only [step, hfind]
  exact hload.trans (path_quiet rfl rfl)

/-- What the second loop leaves alone. -/
structure SameTables (s s' : Store) : Prop where
  events : s'.events = s.events
  updates : s'.updates = s.updates
  runners : s'.runners = s.runners

variable (cfg id s rest) in
/-- A poll of the match, and the write of the snapshot. -/
theorem path_round (m : Match) (sc : Scores) (ht : Carries t) :
    ∃ s' sc', Lib.Path (Alone.act cfg id) always (polling s m sc (.json t :: rest))
        ⟨s', if isOver t then .next (.delKey m t.updateDetails) else .next (.polling m sc'), rest⟩
      ∧ SameTables s s' := by
  obtain ⟨home, away, hscore, _, _⟩ := ht.teams
  let sc' : Scores := ⟨latest (some home) sc.home, latest (some away) sc.away⟩
  have hask : Lib.Path (Alone.act cfg id) always (polling s m sc (.json t :: rest))
      ⟨s, .next (.snapshot m sc' t), rest⟩ := by
    refine path_poll rfl ?_
    simp only [step, hscore, sc']
  exact ⟨_, sc', hask.trans (path_quiet rfl rfl), rfl, rfl, rfl⟩

variable (cfg id s) in
/-- The second loop reads the timelines up to the one that ends the match. -/
theorem path_playing (ts : List Timeline) (m : Match) (sc : Scores) (hts : ∀ u ∈ ts, Carries u)
    (hon : ∀ u ∈ ts, isOver u = false) (ht : Carries t) (hover : isOver t = true) :
    ∃ s', Lib.Path (Alone.act cfg id) always
        (polling s m sc ((ts ++ [t]).map .json)) ⟨s', .next (.delKey m t.updateDetails), []⟩
      ∧ SameTables s s' := by
  induction ts generalizing s sc with
  | nil =>
      obtain ⟨s', sc', hp, hsame⟩ := path_round cfg id s [] m sc ht
      rw [if_pos hover] at hp
      exact ⟨s', hp, hsame⟩
  | cons u ts ih =>
      obtain ⟨s₁, sc₁, hp, hsame⟩ := path_round cfg id s ((ts ++ [t]).map .json) m sc
        (hts u List.mem_cons_self)
      rw [hon u List.mem_cons_self, if_neg Bool.false_ne_true] at hp
      -- the match goes on, so the loop is where it was, one body further
      obtain ⟨s', hp', hsame'⟩ := ih s₁ sc₁
        (fun x hx => hts x (List.mem_cons_of_mem _ hx))
        (fun x hx => hon x (List.mem_cons_of_mem _ hx))
      exact ⟨s', hp.trans hp', hsame'.events.trans hsame.events,
        hsame'.updates.trans hsame.updates, hsame'.runners.trans hsame.runners⟩

/-! ## Where the run ends -/

theorem forall₂_rowFor (id : Int) (home away : Option Nat) (us : List UpdateDetail) :
    List.Forall₂ (RowFor id home away) us (updatesToDb id home away us) := by
  unfold updatesToDb
  rw [List.forall₂_map_right_iff, List.forall₂_same]
  intro u _
  refine ⟨rfl, rfl, rfl, ?_⟩
  dsimp only
  split <;> simp_all

variable (cfg id s rest) in
/-- Behind the second loop the key is deleted and the timeline stored. -/
theorem path_recorded (m : Match) (us : List UpdateDetail) {e : Event}
    (he : Event.lookup s.events id = some e) :
    ∃ s', Lib.Path (Alone.act cfg id) always ⟨s, .next (.delKey m (some us)), rest⟩
        ⟨s', .finished, rest⟩
      ∧ s'.events = Event.update cfg.updateMethod s.events e ended
      ∧ s'.redis (redisKey id) = none ∧ s'.runners = s.runners
      ∧ s'.updates = s.updates ++ updatesToDb id m.runnerHome m.runnerAway us := by
  let s₁ := s.redisDel (redisKey id)
  let s₂ : Store :=
    { s₁ with updates := s.updates ++ updatesToDb id m.runnerHome m.runnerAway us }
  have hdel : Lib.Path (Alone.act cfg id) always ⟨s, .next (.delKey m (some us)), rest⟩
      ⟨s₁, .next (.importUpdates m (some us)), rest⟩ := path_quiet rfl rfl
  have himport : Lib.Path (Alone.act cfg id) always
      ⟨s₁, .next (.importUpdates m (some us)), rest⟩ ⟨s₂, .next .loadEnded, rest⟩ :=
    path_quiet rfl rfl
  have hend : Lib.Path (Alone.act cfg id) always ⟨s₂, .next .loadEnded, rest⟩
      ⟨s₂.eventUpdate cfg.updateMethod e .ended ended, .finished, rest⟩ := path_ended he
  exact ⟨_, (hdel.trans himport).trans hend, rfl, Store.redisDel_self s _, rfl, rfl⟩

variable (cfg) in
/-- Whatever a feed goes on to answer, its first body leads to the second loop. -/
theorem path_to_polling (f : Feed) {e : Event} (he : Event.lookup s.events id = some e) :
    ∃ s' m, Lib.Path (Alone.act cfg id) always (Alone.start s f.bodies)
        (polling s' m ⟨none, none⟩ (f.timelines.tail.map .json))
      ∧ RunsFor s'.runners (homeName f.first) m.runnerHome
      ∧ RunsFor s'.runners (awayName f.first) m.runnerAway
      ∧ s'.events = Event.update cfg.updateMethod s.events e inPlay
      ∧ s'.updates = s.updates := by
  -- the waiting loop takes the first timeline, and leaves the rest to the second loop
  have hlist : f.timelines = f.first :: f.timelines.tail := by
    unfold Feed.timelines Feed.first
    cases f.playing <;> rfl
  have hfirst : f.first ∈ f.playing ++ [f.final] := by
    have hmem : f.first ∈ f.timelines := by
      rw [hlist]
      exact List.mem_cons_self
    exact hmem
  have hbodies : f.bodies
      = List.replicate f.waits .empty ++ .json f.first :: f.timelines.tail.map .json := by
    unfold Feed.bodies
    rw [hlist]
    rfl
  have hlt := f.waits_lt
  have hwait : Lib.Path (Alone.act cfg id) always (Alone.start s f.bodies)
      ⟨s, .next (.setKey f.first), f.timelines.tail.map .json⟩ := by
    rw [hbodies]
    exact path_waiting (by omega)
  obtain ⟨s', m, hteams, hhome, haway, hevents, hupdates⟩ := path_teams cfg id s
    (f.timelines.tail.map .json) (f.carries f.first hfirst)
  have he' : Event.lookup s'.events id = some e := by rw [hevents]; exact he
  refine ⟨_, m, (hwait.trans hteams).trans (path_inPlay he'), hhome, haway, ?_, hupdates⟩
  rw [← hevents]
  rfl

/-- The copy that the second `Event.update` loads. -/
def Marked (m : Event.UpdateMethod) (id : Int) (t : List Event) (e e' : Event) : Prop :=
  Event.lookup (Event.update m t e inPlay) id = some e'

variable (cfg) in
/-- **With a second body the run returns**, the key deleted and the timeline stored. -/
theorem path_to_end (f : Feed) (hplay : f.playing ≠ []) {e e' : Event}
    (he : Event.lookup s.events id = some e) (he' : Marked cfg.updateMethod id s.events e e') :
    ∃ w, Lib.Path (Alone.act cfg id) always (Alone.start s f.bodies) w
      ∧ w.at_ = .finished ∧ w.answers = [] ∧ w.store.redis (redisKey id) = none
      ∧ TimelineStored id s f w.store
      ∧ w.store.events = Event.update cfg.updateMethod
        (Event.update cfg.updateMethod s.events e inPlay) e' ended := by
  obtain ⟨s₁, m, hp₁, hhome, haway, hevents₁, hupdates₁⟩ := path_to_polling cfg f he
  have htail : f.timelines.tail = f.playing.tail ++ [f.final] := by
    unfold Feed.timelines
    rw [List.tail_append_of_ne_nil hplay]
  have hfinal : Carries f.final := f.carries _ (List.mem_append_right _ (List.mem_singleton_self _))
  obtain ⟨us, hus⟩ := Option.isSome_iff_exists.mp hfinal.2.2
  obtain ⟨s₂, hp₂, hsame⟩ := path_playing cfg id s₁ f.playing.tail m ⟨none, none⟩
    (fun u hu => f.carries u (List.mem_append_left _ (List.mem_of_mem_tail hu)))
    (fun u hu => f.notOver u (List.mem_of_mem_tail hu)) hfinal f.ends
  rw [hus] at hp₂
  rw [htail] at hp₁
  -- the second loop writes no events, so the copy loaded is that of the first update
  have hloaded : Event.lookup s₂.events id = some e' := by
    rw [hsame.events, hevents₁]
    exact he'
  obtain ⟨s₃, hp₃, hevents₃, hkey, hrunners, hrows⟩ := path_recorded cfg id s₂ [] m us hloaded
  rw [hsame.events, hevents₁] at hevents₃
  refine ⟨_, (hp₁.trans hp₂).trans hp₃, rfl, rfl, hkey, ?_, hevents₃⟩
  refine ⟨m.runnerHome, m.runnerAway, us, _, ?_, ?_, hus, ?_, forall₂_rowFor id _ _ us⟩
  · rw [hrunners, hsame.runners]
    exact hhome
  · rw [hrunners, hsame.runners]
    exact haway
  · rw [hrows, hsame.updates, hupdates₁]

/-- And with a single one it does not: its second poll is not answered. -/
theorem not_finished_of_single {f : Feed} (hplay : f.playing = []) {e : Event}
    (he : Event.lookup s.events id = some e) {w : Alone}
    (h : Lib.Path (Alone.act cfg id) always (Alone.start s f.bodies) w) : w.at_ ≠ .finished := by
  intro hfin
  obtain ⟨s', m, hp, _⟩ := path_to_polling cfg f he
  -- behind the only body there is nothing left to answer the first poll with
  have hnone : f.timelines.tail.map Body.json = [] := by
    unfold Feed.timelines
    rw [hplay]
    rfl
  rw [hnone] at hp
  have hstuck : ∀ a, Alone.act cfg id (polling s' m ⟨none, none⟩ []) a = none :=
    fun _ => Alone.act_unanswered rfl
  have hover : ∀ a, Alone.act cfg id w a = none := by
    intro a
    unfold Alone.act
    rw [hfin]
  -- a run is deterministic here: one of the two ends is on the way to the other
  rcases Lib.Path.comparable h hp with hgo | hgo
  · rw [← Lib.Path.eq_of_stuck hover hgo] at hfin
    exact absurd hfin (by simp [polling])
  · rw [Lib.Path.eq_of_stuck hstuck hgo] at hfin
    exact absurd hfin (by simp [polling])

/-! ## What becomes of the event -/

theorem presentFields_saveRow {e cur : Event} (he : e.presentFields = true)
    (hc : cur.presentFields = true) : (Event.saveRow e cur e).presentFields = true := by
  unfold Event.saveRow
  rw [if_pos rfl]
  refine Event.presentFields_writeChanged ?_ he
  rw [Event.presentFields_beforeSave]
  exact hc

/-- Event `id` is stored, and is valid, as `e`. -/
def StoredAs (ts : List Event) (id : Int) (e : Event) : Prop :=
  Event.lookup ts id = some e ∧ e.presentFields = true

/-- A copy that is what is stored is stored as it was changed. -/
theorem saveRow_self_status (e cur : Event) : (Event.saveRow e cur e).status = cur.status := by
  rw [Event.saveRow_status rfl]
  split
  · rename_i hsame
    exact hsame.symm
  · rfl

theorem saveRow_self_monitored (e cur : Event) :
    (Event.saveRow e cur e).monitored = cur.monitored := by
  rw [Event.saveRow_monitored rfl]
  split
  · rename_i hsame
    exact hsame.symm
  · rfl

/-- A change that is valid is stored. -/
theorem stored_update {ts : List Event} {e : Event} {change : Event → Event}
    (h : StoredAs ts id e) (hchange : (change e).presentFields = true) :
    StoredAs (Event.update .persistence ts e change) id (Event.saveRow e (change e) e) := by
  obtain ⟨he, hp⟩ := h
  refine ⟨?_, presentFields_saveRow hp hchange⟩
  rw [Event.lookup_update hchange, he]
  rfl

theorem stored_inPlay {ts : List Event} {e : Event} (h : StoredAs ts id e) :
    ∃ e', StoredAs (Event.update .persistence ts e inPlay) id e' ∧ e'.status = some .inPlay :=
  ⟨_, stored_update h (show (inPlay e).presentFields = true from h.2),
    saveRow_self_status e (inPlay e)⟩

theorem stored_ended {ts : List Event} {e : Event} (h : StoredAs ts id e) :
    ∃ e', StoredAs (Event.update .persistence ts e ended) id e' ∧ e'.status = some .ended
      ∧ e'.monitored = some false :=
  ⟨_, stored_update h (show (ended e).presentFields = true from h.2),
    saveRow_self_status e (ended e),
    saveRow_self_monitored e (ended e)⟩

/-- What the run knows of its event at a statement. -/
def Placed (ts : List Event) (id : Int) : Pc → Prop
  | .saveInPlay _ e => Event.lookup ts id = some e
  | .saveEnded e => Event.lookup ts id = some e
  | .polling _ _ | .snapshot _ _ _ => ∃ e, Event.lookup ts id = some e ∧ e.status = some .inPlay
  | _ => True

/-- The event is stored, and the run knows so much of it. -/
def EventInv (id : Int) (w : Alone) : Prop :=
  (∃ e, StoredAs w.store.events id e) ∧ ∀ pc, w.at_ = .next pc → Placed w.store.events id pc

/-- What a statement does to the events, and where it goes from there. -/
inductive Turned (cfg : Config) (id : Int) (s s' : Store) : Pc → Outcome Pc → Prop where
  /-- The events are left alone, and nothing is known at the next statement. -/
  | plain {pc : Pc} {o : Outcome Pc} : s'.events = s.events →
      (∀ pc', o = .next pc' → ∀ ts, Placed ts id pc') → Turned cfg id s s' pc o
  | loaded {pc : Pc} {m : Match} {e : Event} : s'.events = s.events →
      Event.lookup s.events id = some e → Turned cfg id s s' pc (.next (.saveInPlay m e))
  | loadedEnded {pc : Pc} {e : Event} : s'.events = s.events →
      Event.lookup s.events id = some e → Turned cfg id s s' pc (.next (.saveEnded e))
  | marked {m : Match} {sc : Scores} {e : Event} :
      s'.events = Event.update cfg.updateMethod s.events e inPlay →
      Turned cfg id s s' (.saveInPlay m e) (.next (.polling m sc))
  | polled {m : Match} {sc sc' : Scores} {t : Timeline} : s'.events = s.events →
      Turned cfg id s s' (.polling m sc) (.next (.snapshot m sc' t))
  | goesOn {m : Match} {sc : Scores} {t : Timeline} : s'.events = s.events →
      Turned cfg id s s' (.snapshot m sc t) (.next (.polling m sc))
  | ended {e : Event} : s'.events = Event.update cfg.updateMethod s.events e ended →
      Turned cfg id s s' (.saveEnded e) .finished

theorem step_turned (cfg : Config) (id : Int) (body : Body) (s : Store) (pc : Pc) :
    Turned cfg id s (step cfg id body s pc).1 pc (step cfg id body s pc).2 := by
  have raises : ∀ {pc : Pc}, Turned cfg id s s pc .raised := .plain rfl (by simp)
  have goes : ∀ {s' : Store} {pc pc' : Pc}, s'.events = s.events → (∀ ts, Placed ts id pc') →
      Turned cfg id s s' pc (.next pc') := by
    intro s' pc pc' hevents hplaced
    refine .plain hevents ?_
    intro p hp
    cases hp
    exact hplaced
  cases pc with
  | waiting n =>
      simp only [step]
      split
      · exact goes rfl (fun _ => trivial)
      · cases body with
        | empty => exact goes rfl (fun _ => trivial)
        | json t => exact goes rfl (fun _ => trivial)
  | setKey t => exact goes rfl (fun _ => trivial)
  | findHome t =>
      simp only [step]
      split
      · split
        · exact goes rfl (fun _ => trivial)
        · exact goes rfl (fun _ => trivial)
      · exact raises
  | createHome n a =>
      simp only [step]
      split
      · exact goes rfl (fun _ => trivial)
      · exact raises
  | findAway n a r =>
      simp only [step]
      split
      · exact goes rfl (fun _ => trivial)
      · exact goes rfl (fun _ => trivial)
  | createAway n a r =>
      simp only [step]
      split
      · exact goes rfl (fun _ => trivial)
      · exact raises
  | loadInPlay m =>
      simp only [step]
      split
      · rename_i e hf
        exact .loaded rfl (Event.find_eq_ok.mp hf)
      · exact raises
  | saveInPlay m e => exact .marked rfl
  | polling m sc =>
      cases body with
      | empty => exact raises
      | json t =>
          simp only [step]
          split
          · exact .polled rfl
          · exact raises
  | snapshot m sc t =>
      simp only [step]
      split
      · exact goes rfl (fun _ => trivial)
      · exact .goesOn rfl
  | delKey m us => exact goes rfl (fun _ => trivial)
  | importUpdates m us =>
      cases us with
      | none => exact raises
      | some us => exact goes rfl (fun _ => trivial)
  | loadEnded =>
      simp only [step]
      split
      · rename_i e hf
        exact .loadedEnded rfl (Event.find_eq_ok.mp hf)
      · exact raises
  | saveEnded e => exact .ended rfl

/-- Where `update` is the reader of the association, no statement writes to the events. -/
theorem events_unchanged {w w' : Alone} (hm : cfg.updateMethod = .associationReader)
    (h : Lib.Path (Alone.act cfg id) always w w') : w'.store.events = w.store.events := by
  refine h.preserves (I := fun x => x.store.events = w.store.events) ?_ rfl
  intro x _ x' hx _ hs
  obtain ⟨pc, body, _, hstore, _⟩ := Alone.act_eq_some hs
  have hturned := step_turned cfg id body x.store pc
  rw [← hstore] at hturned
  -- a statement that saves calls the reader, which leaves the table as it is
  generalize (step cfg id body x.store pc).2 = o at hturned
  cases hturned with
  | plain hevents _ => exact hevents.trans hx
  | loaded hevents _ => exact hevents.trans hx
  | loadedEnded hevents _ => exact hevents.trans hx
  | polled hevents => exact hevents.trans hx
  | goesOn hevents => exact hevents.trans hx
  | marked hevents =>
      rw [hm] at hevents
      exact hevents.trans hx
  | ended hevents =>
      rw [hm] at hevents
      exact hevents.trans hx

/-- A statement that leaves the events alone keeps the event stored. -/
theorem eventInv_of_same {w w' : Alone} (h : EventInv id w)
    (hevents : w'.store.events = w.store.events)
    (hplaced : ∀ pc, w'.at_ = .next pc → Placed w.store.events id pc) : EventInv id w' := by
  obtain ⟨hstored, _⟩ := h
  unfold EventInv
  rw [hevents]
  exact ⟨hstored, hplaced⟩

/-- It does so where the next statement knows of the event what is so. -/
theorem eventInv_next {w w' : Alone} {pc : Pc} (h : EventInv id w) (hat : w'.at_ = .next pc)
    (hevents : w'.store.events = w.store.events) (hplaced : Placed w.store.events id pc) :
    EventInv id w' := by
  refine eventInv_of_same h hevents ?_
  intro pc' hp
  rw [hat] at hp
  cases hp
  exact hplaced

/-- The copy of a run is what is stored. -/
theorem storedAs_of_placed {w : Alone} {e : Event} (h : EventInv id w)
    (he : Event.lookup w.store.events id = some e) : StoredAs w.store.events id e := by
  obtain ⟨⟨e₀, he₀, hp₀⟩, _⟩ := h
  rw [he₀] at he
  cases he
  exact ⟨he₀, hp₀⟩

theorem eventInv_step {w w' : Alone} (hm : cfg.updateMethod = .persistence) (h : EventInv id w)
    (hs : Alone.act cfg id w () = some w') : EventInv id w' := by
  obtain ⟨pc, body, hpc, hstore, hout⟩ := Alone.act_eq_some hs
  have hplaced := h.2 pc hpc
  have hturned := step_turned cfg id body w.store pc
  rw [← hstore, ← hout] at hturned
  generalize hat : w'.at_ = o at hturned
  cases hturned with
  | plain hevents hnext =>
      exact eventInv_of_same h hevents (fun pc' hp => hnext pc' (hat ▸ hp) _)
  | loaded hevents he => exact eventInv_next h hat hevents he
  | loadedEnded hevents he => exact eventInv_next h hat hevents he
  | polled hevents => exact eventInv_next h hat hevents hplaced
  | goesOn hevents => exact eventInv_next h hat hevents hplaced
  | marked hevents =>
      rw [hm] at hevents
      obtain ⟨e', he', hstatus⟩ := stored_inPlay (storedAs_of_placed h hplaced)
      unfold EventInv
      rw [hevents]
      refine ⟨⟨e', he'⟩, ?_⟩
      intro pc' hp
      rw [hat] at hp
      cases hp
      exact ⟨e', he'.1, hstatus⟩
  | ended hevents =>
      rw [hm] at hevents
      obtain ⟨e', he', _⟩ := stored_ended (storedAs_of_placed h hplaced)
      unfold EventInv
      rw [hevents]
      refine ⟨⟨e', he'⟩, ?_⟩
      intro pc' hp
      rw [hat] at hp
      exact absurd hp (by simp)

/-! ## The main results -/

/--
**With ActiveRecord's own `update`, a match that is polled at least once is left
recorded.** The first body is read by the waiting loop, so there have to be two.
-/
theorem recorded_iff {cfg : Config} {id : Int} {s : Store} {f : Feed} (h : ValidEvent s id) :
    Recorded cfg id s f ↔ cfg.updateMethod = .persistence ∧ f.playing ≠ [] := by
  obtain ⟨e, he, hp⟩ := h
  constructor
  · intro hrec
    obtain ⟨⟨w, hpath, hleft⟩, hpolls⟩ := hrec
    refine ⟨?_, fun hplay => not_finished_of_single hplay he hpath hleft.returned⟩
    cases hm : cfg.updateMethod with
    | persistence => rfl
    | associationReader =>
        -- the event would have to be IN_PLAY at the poll and ENDED behind it, unwritten
        obtain ⟨s', m, hpoll, _⟩ := path_to_polling cfg f he
        obtain ⟨e₁, he₁, hinPlay⟩ := hpolls _ m _ hpoll rfl
        obtain ⟨e₂, he₂, hended⟩ := hleft.ended
        rw [events_unchanged hm hpoll] at he₁
        rw [events_unchanged hm hpath] at he₂
        have hsame : e₁ = e₂ := Option.some.inj (he₁.symm.trans he₂)
        rw [← hsame, hinPlay] at hended
        exact absurd hended (by simp)
  · intro hcond
    obtain ⟨hm, hplay⟩ := hcond
    obtain ⟨e', he', _⟩ := stored_inPlay ⟨he, hp⟩
    obtain ⟨e'', he'', hended, hunmonitored⟩ := stored_ended he'
    obtain ⟨w, hpath, hfin, hans, hkey, hrows, hevents⟩ :=
      path_to_end cfg f hplay he (by rw [hm]; exact he'.1)
    rw [hm] at hevents
    refine ⟨⟨w, hpath, hfin, hans, ?_, ?_, hkey, hrows⟩, ?_⟩
    · exact ⟨e'', by rw [hevents]; exact he''.1, hended⟩
    · exact ⟨e'', by rw [hevents]; exact he''.1, hunmonitored⟩
    -- at every poll, by the invariant of the copies
    · intro w' m sc hpath' hpoll
      have hinv : EventInv id w' := by
        refine hpath'.preserves (fun _ _ _ hi _ hs => eventInv_step hm hi hs) ⟨⟨e, he, hp⟩, ?_⟩
        intro pc hpc
        cases hpc
        trivial
      exact hinv.2 _ hpoll

/--
**As it is, no match is left recorded.** A run that gets to poll the match returns
with the key deleted and the timeline stored, and has left the events as they were.
-/
theorem never_recorded (collation : Collation) (id : Int) (s : Store) (f : Feed)
    (h : ValidEvent s id) :
    ¬ Recorded ⟨collation, .associationReader⟩ id s f
      ∧ (f.playing ≠ [] →
        ∃ w, Lib.Path (Alone.act ⟨collation, .associationReader⟩ id) always
            (Alone.start s f.bodies) w
          ∧ w.at_ = .finished ∧ w.answers = [] ∧ w.store.redis (redisKey id) = none
          ∧ TimelineStored id s f w.store ∧ w.store.events = s.events) := by
  constructor
  · intro hrec
    exact absurd ((recorded_iff h).mp hrec).1 (by simp)
  · intro hplay
    obtain ⟨e, he, _⟩ := h
    exact path_to_end ⟨collation, .associationReader⟩ f hplay he he

/-- A body of the match of the Oaks and the Elms. -/
def oaksAndElms (status : Option String) : Timeline where
  score := some ⟨some ⟨some "Oaks", some 1⟩, some ⟨some "Elms", some 0⟩⟩
  updateDetails := some [⟨some 12, some "Goal", some "home"⟩]
  timeElapsed := some 90
  status := status
  inPlayMatchStatus := none

/-- Two empty bodies, and two of the match. -/
def shortMatch : Feed where
  waits := 2
  playing := [oaksAndElms none]
  final := oaksAndElms (some "COMPLETE")
  waits_lt := by decide
  carries := by decide
  notOver := by decide
  ends := by decide

/-- The match is stored as event 7. -/
def fixture : Store := { Store.boot with
  events := [⟨7, some "Oaks v Elms", some 5400, some "gb", some .notStarted, some true⟩] }

theorem fixture_valid : ValidEvent fixture 7 := ⟨_, rfl, by decide⟩

theorem never_recorded_shortMatch :
    ¬ Recorded ⟨.binary, .associationReader⟩ 7 fixture shortMatch :=
  (never_recorded .binary 7 fixture shortMatch fixture_valid).1

/-- **The event is neither IN_PLAY while the match is polled, nor ENDED behind it.** -/
theorem match_not_recorded :
    ¬ ∀ collation id s f, ValidEvent s id → Recorded ⟨collation, .associationReader⟩ id s f := by
  intro hall
  have hrec := hall .binary 7 fixture shortMatch fixture_valid
  exact absurd ((recorded_iff fixture_valid).mp hrec).1 (by simp)

end BetterEfisis.Proof

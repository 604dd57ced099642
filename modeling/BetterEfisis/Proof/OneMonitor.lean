import BetterEfisis.Proof.Watch

/-!
# One monitor per event

`OddsWorker` tests `monitored` on a row it loaded earlier, enqueues the monitor
and saves the flag in three separate steps. Two runs that overlap, or one run
that raises between the second and the third, therefore enqueue two monitors
(`two_monitors`).

Under `UpToDate` the flag does what it is for: while a monitor is live the row
says so, or the run that enqueued it is about to.
-/

namespace BetterEfisis.Proof

open Lib

/-- No two live monitors are of event `id`. -/
def AtMostOneMonitor (id : Int) (w : World) : Prop :=
  ∀ i j : Nat, LiveAt w id i → LiveAt w id j → i = j

/-- The row of `id` says that it is monitored. -/
def Flagged (w : World) (id : Int) : Prop :=
  ∃ r, Event.lookup w.store.events id = some r ∧ r.monitored = some true

theorem flagged_iff {w : World} {id : Int} :
    Flagged w id ↔ (Event.lookup w.store.events id).any
      (fun r => decide (r.monitored = some true)) = true := by
  simp [Flagged, Option.any_eq_true]

instance (w : World) (id : Int) : Decidable (Flagged w id) := decidable_of_iff _ flagged_iff.symm

/--
The steps over event `id` that act on a test of `monitored` which still holds: a
run enqueues a monitor only while the stored row is not flagged and no other run
is about to flag it, and none raises between `perform_async` and `save`.
-/
def UpToDate (id : Int) (w : World) : World.Act → Prop
  | .tick i d => EnqueuesAt w (.tick i d) i id → ¬ Flagged w id ∧ ∀ k, ¬ SavingAt w k id
  | .raiseTick i => ¬ SavingAt w i id
  | _ => True

instance (id : Int) (w : World) : (a : World.Act) → Decidable (UpToDate id w a)
  | .tick i d => inferInstanceAs (Decidable (EnqueuesAt w (.tick i d) i id → _))
  | .raiseTick _ => inferInstanceAs (Decidable (¬ _))
  | .importEvents _ | .advance _ | .schedule | .startTick _ | .startMonitor _ | .monitor _ _
  | .raiseMonitor _ => inferInstanceAs (Decidable True)

/-- What is enqueued is nobody's, where the step keeps to the discipline. -/
theorem enqueued_free {id : Int} {w : World} {a : World.Act} (hok : UpToDate id w a)
    {i : Nat} (h : EnqueuesAt w a i id) : ¬ Flagged w id ∧ ∀ k, ¬ SavingAt w k id := by
  obtain ⟨d, job, e, rows, rfl, hrest⟩ := h
  exact hok ⟨d, job, e, rows, rfl, hrest⟩

/-- What the flag guarantees as long as the runs keep to `UpToDate`. -/
structure MonInv (id : Int) (w : World) : Prop where
  /-- One live monitor. -/
  single : AtMostOneMonitor id w
  /-- A live monitor shows in the row, or its flag is about to be saved. -/
  flagged : ∀ j, LiveAt w id j → Flagged w id ∨ ∃ k, SavingAt w k id

theorem monInv_init {id : Int} {w : World} (h : World.Init w) : MonInv id w := by
  obtain ⟨now, rfl⟩ := h
  constructor <;> simp [AtMostOneMonitor, LiveAt, World.boot]

/-- No monitor of an event is live when one is enqueued. -/
theorem enqueued_unwatched {id : Int} {w : World} {a : World.Act} (h : MonInv id w)
    (hok : UpToDate id w a) {i : Nat} (he : EnqueuesAt w a i id) (j : Nat) : ¬ LiveAt w id j := by
  intro hj
  obtain ⟨hflag, hsave⟩ := enqueued_free hok he
  rcases h.flagged j hj with hf | ⟨k, hk⟩
  · exact hflag hf
  · exact hsave k hk

/-- The row of a live monitor stays flagged until that monitor is done. -/
theorem flagged_next {cfg : Config} {id : Int} {w w' : World} {a : World.Act} (hc : CopyInv w)
    (hm : MonInv id w) (hs : Effect cfg w w' a) {j : Nat} (hj : LiveAt w id j)
    (hj' : LiveAt w' id j) (h : Flagged w id) : Flagged w' id := by
  obtain ⟨r, hr, hmon⟩ := h
  obtain ⟨r', hr', hchg⟩ := row_next hc hs hr
  refine ⟨r', hr', ?_⟩
  cases hchg with
  | same _ h2 => rw [h2]; exact hmon
  | saved _ _ h2 _ => exact h2
  | marked _ _ _ _ _ _ _ _ h2 _ => rw [h2]; exact hmon
  | @finished j₀ job job' c hj₀ he _ harg hl hdead _ _ _ =>
      -- the monitor that wrote is the live one, and it is done
      exfalso
      have heq : j₀ = j := hm.single j₀ j ⟨job, hj₀, hl, harg⟩ hj
      subst heq
      obtain ⟨job₁, h1, h2, _⟩ := hj'
      rw [he, getElem?_set_here hj₀] at h1
      cases h1
      rw [hdead] at h2
      exact absurd h2 (by simp)

/-- **The guarantee is preserved by every step that keeps to the discipline.** -/
theorem monInv_step {cfg : Config} {id : Int} {w w' : World} {a : World.Act} (hc : CopyInv w)
    (h : MonInv id w) (hok : UpToDate id w a) (hs : Effect cfg w w' a) : MonInv id w' where
  single := by
    intro i j hi hj
    rcases liveAt_change hs hi with hi' | ⟨hi', k, hk, _⟩ <;>
      rcases liveAt_change hs hj with hj' | ⟨hj', k', hk', _⟩
    · exact h.single i j hi' hj'
    · exact absurd hi' (enqueued_unwatched h hok hk' i)
    · exact absurd hj' (enqueued_unwatched h hok hk j)
    · rw [hi', hj']
  flagged := by
    intro j hj
    rcases liveAt_change hs hj with hold | ⟨_, i, _, hsv⟩
    · rcases h.flagged j hold with hf | ⟨k, hk⟩
      · exact Or.inl (flagged_next hc h hs hold hj hf)
      · -- the run keeps saving, or the flag is in the row now
        rcases savingAt_next hs hk with hk' | hraise | ⟨e, he, heid, job, hjm, hse⟩
        · exact Or.inr ⟨k, hk'⟩
        · rw [hraise] at hok
          exact absurd hk hok
        · obtain ⟨r, hr⟩ := Event.lookup_isSome (savingAt_stored hc hk)
          have hid : r.id = e.id := by rw [(Event.lookup_mem hr).2, heid]
          refine Or.inl ⟨_, by rw [he, lookup_save_monitored hc hjm hse, hr]; rfl, ?_⟩
          rw [Event.saveRow_monitored hid]
          have hmon := hc.unmonitored job hjm e hse
          simp [OddsWorker.monitored, Ne.symm hmon]
    · exact Or.inr ⟨i, hsv⟩

theorem monInv_reachable {cfg : Config} {id : Int} {ok : World → World.Act → Prop}
    (hle : ∀ w a, ok w a → UpToDate id w a) {w : World}
    (h : Reachable (World.act cfg) ok World.Init w) : MonInv id w :=
  h.invariant_on (fun _ => copyInv_reachable) (fun _ hi => monInv_init hi)
    (fun _ _ _ hc hi hok hs => monInv_step hc hi (hle _ _ hok) (act_effect hs))

/-! ## The main result -/

/--
**In every run whose steps keep to `UpToDate` over an event there is at most one
live monitor of it**, whatever `Event.update` resolves to and whatever else fails.
-/
theorem one_monitor_of_upToDate (cfg : Config) (id : Int) (w : World)
    (h : Reachable (World.act cfg) (UpToDate id) World.Init w) : AtMostOneMonitor id w :=
  (monInv_reachable (fun _ _ hok => hok) h).single

/-- A match that has kicked off, as the import stores it. -/
def kickedOff : Event := ⟨7, some "A v B", some 0, some "GB", some .notStarted, some false⟩

/-- Two ticks one after the other: the second finds the flag of the first and enqueues nothing. -/
def twoTicks : List World.Act :=
  [.importEvents [kickedOff], .schedule, .startTick 0, .tick 0 0, .tick 0 0, .tick 0 0,
    .startMonitor 0, .schedule, .startTick 1, .tick 1 0, .tick 1 0]

/-- The monitor is live when the second tick has looked at the event. -/
theorem one_monitor_two_ticks :
    ∃ w, LiveAt w 7 0 ∧ w.ticks.length = 2 ∧ AtMostOneMonitor 7 w := by
  obtain ⟨w, hr, hl, ht⟩ := World.reachable_of_schedule ⟨.binary, .persistence⟩ (UpToDate 7)
    twoTicks (fun w => LiveAt w 7 0 ∧ w.ticks.length = 2) (by decide +kernel)
  exact ⟨w, hl, ht, one_monitor_of_upToDate ⟨.binary, .persistence⟩ 7 w hr⟩

/-! ## The overlap -/

/-- Two `OddsWorker` runs that both load the row before either has saved the flag. -/
def overlap : List World.Act :=
  [.importEvents [kickedOff], .schedule, .schedule, .startTick 0, .startTick 1,
    .tick 0 0, .tick 1 0, .tick 0 0, .tick 1 0]

/-- One run that raises between `perform_async` and `save`, and its retry. -/
def enqueueTwice : List World.Act :=
  [.importEvents [kickedOff], .schedule, .startTick 0, .tick 0 0, .tick 0 0, .raiseTick 0,
    .startTick 0, .tick 0 0, .tick 0 0]

/-- Event 7 has two live monitors. -/
def TwoMonitors (w : World) : Prop := LiveAt w 7 0 ∧ LiveAt w 7 1

instance (w : World) : Decidable (TwoMonitors w) := inferInstanceAs (Decidable (_ ∧ _))

/-- **Either way two monitors of one event are live, whatever `Event.update` does.** -/
theorem two_monitors :
    (¬ ∀ w, Reachable (World.act ⟨.binary, .persistence⟩) always World.Init w →
        ∀ id, AtMostOneMonitor id w)
      ∧ (¬ ∀ w, Reachable (World.act ⟨.binary, .associationReader⟩) always World.Init w →
        ∀ id, AtMostOneMonitor id w) := by
  have no : ∀ w, TwoMonitors w → ¬ ∀ id, AtMostOneMonitor id w :=
    fun w h2 hone => absurd (hone 7 0 1 h2.1 h2.2) (by simp)
  constructor
  · intro hall
    obtain ⟨w, hr, h2⟩ := World.reachable_of_schedule ⟨.binary, .persistence⟩ always overlap
      TwoMonitors (by decide +kernel)
    exact no w h2 (hall w hr)
  · intro hall
    obtain ⟨w, hr, h2⟩ := World.reachable_of_schedule ⟨.binary, .associationReader⟩ always
      enqueueTwice TwoMonitors (by decide +kernel)
    exact no w h2 (hall w hr)

end BetterEfisis.Proof

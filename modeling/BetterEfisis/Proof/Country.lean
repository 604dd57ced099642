import BetterEfisis.Proof.OneMonitor

/-!
# Country codes

`before_save` lower-cases `cc`, and the validation of `cc` is given `length: { is:
2 }`. The import runs no callbacks, and a presence validation knows no `length`.
So the code the feed sends is the code that is stored (`not_normalised`), and from
then on nothing changes it unless an `OddsWorker` run or a monitor happens to save
the event.

The codes stored are normalised exactly as long as those that are imported are.
That a save keeps them so depends on the copies it starts from, which the
invariant carries along.
-/

namespace BetterEfisis.Proof

open Lib

/-- A country code of two characters, in lower case. -/
def Normal (e : Event) : Prop := ∃ c, e.cc = some c ∧ c.length = 2 ∧ downcase c = c

/-- Every stored event has such a code. -/
def Normalised (w : World) : Prop := ∀ e ∈ w.store.events, Normal e

/-- Imports that insert only events with such a code. -/
def NormalImports (w : World) : World.Act → Prop
  | .importEvents batch =>
      ∀ e ∈ batch, Event.validation.valid w.store.events e = true → Normal e
  | _ => True

theorem normal_iff {e : Event} :
    Normal e ↔ e.cc.any (fun c => decide (c.length = 2 ∧ downcase c = c)) = true := by
  simp [Normal, Option.any_eq_true]

instance (e : Event) : Decidable (Normal e) := decidable_of_iff _ normal_iff.symm

instance (w : World) (a : World.Act) : Decidable (NormalImports w a) := by
  unfold NormalImports
  split <;> infer_instance

/-- The import stores the valid rows of the batch as they are. -/
theorem importEvents_events {cfg : Config} {w w' : World} {batch : List Event}
    (hs : World.act cfg w (.importEvents batch) = some w') :
    w'.store.events = Event.validation.importRows w.store.events batch := by
  cases World.act_cases hs with
  | imported _ ht =>
      rw [Event.importRows] at ht
      split at ht
      · injection ht with ht
        rw [← ht]
      · exact absurd ht (by simp)

/-- An import keeps the codes normalised exactly if those it inserts are. -/
theorem normalised_import {cfg : Config} {w w' : World} {batch : List Event}
    (h : Normalised w) (hs : World.act cfg w (.importEvents batch) = some w') :
    Normalised w' ↔ NormalImports w (.importEvents batch) := by
  unfold Normalised
  rw [importEvents_events hs]
  constructor
  · intro hall e he hv
    exact hall e (Validation.mem_importRows.mpr (Or.inr ⟨he, hv⟩))
  · intro hok e he
    rcases Validation.mem_importRows.mp he with hold | ⟨hnew, hv⟩
    · exact h e hold
    · exact hok e hnew hv

/-- To lower-case a normalised code is to leave it alone. -/
theorem normal_beforeSave {e : Event} (h : Normal e) : e.beforeSave.cc = e.cc := by
  obtain ⟨c, hc, _, hlow⟩ := h
  simp [Event.beforeSave, hc, hlow]

/-- A save of a copy whose code is normalised leaves the stored codes alone. -/
theorem normal_save {t : List Event} (h : ∀ e ∈ t, Normal e) {loaded cur : Event}
    (hl : Normal loaded) (hcc : cur.cc = loaded.cc) : ∀ e ∈ Event.save t loaded cur, Normal e := by
  unfold Event.save
  split
  · intro e he
    obtain ⟨row, hrow, rfl⟩ := List.mem_map.mp he
    have hsame : (Event.saveRow loaded cur row).cc = row.cc := by
      unfold Event.saveRow
      split
      · have hcur : Normal cur := by
          unfold Normal
          rw [hcc]
          exact hl
        simp [Event.writeChanged, normal_beforeSave hcur, hcc]
      · rfl
    unfold Normal
    rw [hsame]
    exact h row hrow
  · exact h

theorem normal_update {m : Event.UpdateMethod} {t : List Event} (h : ∀ e ∈ t, Normal e)
    {loaded : Event} (hl : Normal loaded) {f : Event → Event} (hf : (f loaded).cc = loaded.cc) :
    ∀ e ∈ Event.update m t loaded f, Normal e := by
  cases m with
  | persistence => exact normal_save h hl hf
  | associationReader => exact h

/-- The codes in the table and in the copies the jobs hold. -/
structure CcInv (w : World) : Prop where
  stored : Normalised w
  ticks : ∀ job ∈ w.ticks, ∀ c ∈ copies job, Normal c
  monitors : ∀ job ∈ w.monitors, ∀ c, marking job = some c ∨ finishing job = some c → Normal c

theorem ccInv_init {w : World} (h : World.Init w) : CcInv w := by
  obtain ⟨now, rfl⟩ := h
  constructor <;> simp [Normalised, World.boot, Store.boot]

/-- What the writers of the table leave there. -/
theorem normalised_step {cfg : Config} {w w' : World} {a : World.Act} (h : CcInv w)
    (hok : NormalImports w a) (hs : World.act cfg w a = some w') : Normalised w' := by
  have same : w'.store.events = w.store.events → Normalised w' := by
    intro he
    unfold Normalised
    rw [he]
    exact h.stored
  cases act_effect hs with
  | imported _ _ _ _ _ => exact (normalised_import h.stored hs).mpr hok
  | tickSaved hj _ he _ hsv _ _ =>
      unfold Normalised
      rw [he]
      exact normal_save h.stored
        (h.ticks _ (List.mem_of_getElem? hj) _ (mem_copies.mpr (Or.inl hsv))) rfl
  | monitorMarked hj _ he _ hm _ _ _ _ _ =>
      unfold Normalised
      rw [he]
      exact normal_update h.stored (h.monitors _ (List.mem_of_getElem? hj) _ (Or.inl hm)) rfl
  | monitorFinished hj _ he _ hm _ _ _ _ _ =>
      unfold Normalised
      rw [he]
      exact normal_update h.stored (h.monitors _ (List.mem_of_getElem? hj) _ (Or.inr hm)) rfl
  | idle he _ _ => exact same he
  | scheduled he _ _ => exact same he
  | tickQuiet _ _ he _ _ _ _ => exact same he
  | tickRaised _ _ he _ => exact same he
  | tickLoaded _ _ _ he _ _ _ => exact same he
  | tickEnqueued _ _ he _ _ _ _ _ _ => exact same he
  | monitorQuiet _ _ he _ _ _ _ _ _ => exact same he
  | monitorRaised _ _ he _ _ _ => exact same he
  | monitorMarks _ _ he _ _ _ _ _ _ _ => exact same he
  | monitorFinishes _ _ _ he _ _ _ _ _ _ => exact same he

/-- **A step keeps every code normalised if it imports no other.** -/
theorem ccInv_step {cfg : Config} {w w' : World} {a : World.Act} (h : CcInv w)
    (hok : NormalImports w a) (hs : World.act cfg w a = some w') : CcInv w' where
  stored := normalised_step h hok hs
  ticks := by
    intro job' hm c hc
    rcases ticks_change (act_effect hs) job' hm with hold | hnil | ⟨job, hj, hsub, _⟩ |
      ⟨hnone, hload⟩
    · exact h.ticks job' hold c hc
    · rw [hnil] at hc
      exact absurd hc List.not_mem_nil
    · exact h.ticks job hj c (hsub.subset hc)
    · -- the rows a scope selects are stored rows
      rw [copies, hnone, hload] at hc
      obtain ⟨hmem, _⟩ := Event.mem_startingNow (by simpa using hc)
      exact h.stored c hmem
  monitors := by
    intro job' hm c hc
    rcases monitors_change (act_effect hs) job' hm with hold | ⟨job, _, _, hcopy⟩ |
      ⟨tick, _, e, _, rfl⟩
    · exact h.monitors job' hold c hc
    · exact h.stored c (Event.lookup_mem (hcopy c hc)).1
    · exact absurd hc (by simp)

theorem ccInv_reachable {cfg : Config} {w : World}
    (h : Reachable (World.act cfg) NormalImports World.Init w) : CcInv w :=
  h.invariant (fun _ => ccInv_init) (fun _ _ _ hi hok hs => ccInv_step hi hok hs)

/--
**The stored codes are normalised as long as the imported ones are**, through all
saves and updates, and a step that imports another ends that.
-/
theorem normalised_of_normalImports (cfg : Config) :
    ∀ w, Reachable (World.act cfg) NormalImports World.Init w →
      Normalised w
        ∧ ∀ a w', World.act cfg w a = some w' → (Normalised w' ↔ NormalImports w a) := by
  intro w h
  have hinv := ccInv_reachable h
  refine ⟨hinv.stored, ?_⟩
  intro a w' hs
  constructor
  · intro hn
    cases a with
    | importEvents batch => exact (normalised_import hinv.stored hs).mp hn
    | _ => trivial
  · intro hok
    exact normalised_step hinv hok hs

/-- A match whose code is normalised, imported and then saved by a tick. -/
def normalTick : List World.Act :=
  [.importEvents [{ kickedOff with cc := some "gb" }], .schedule, .startTick 0, .tick 0 0,
    .tick 0 0, .tick 0 0]

theorem normalised_normalTick :
    ∃ w, w.store.events = [⟨7, some "A v B", some 0, some "gb", some .notStarted, some true⟩]
      ∧ Normalised w := by
  obtain ⟨w, hr, he⟩ := World.reachable_of_schedule ⟨.binary, .persistence⟩ NormalImports
    normalTick (fun w => w.store.events
      = [⟨7, some "A v B", some 0, some "gb", some .notStarted, some true⟩]) (by decide +kernel)
  exact ⟨w, he, (normalised_of_normalImports ⟨.binary, .persistence⟩ w hr).1⟩

/-- Some stored code is not lower case. -/
def HasUpper (w : World) : Prop := ∃ e ∈ w.store.events, e.cc.map downcase ≠ e.cc

/-- Some stored code has another length than two. -/
def HasLong (w : World) : Prop := ∃ e ∈ w.store.events, e.cc.map String.length ≠ some 2

instance (w : World) : Decidable (HasUpper w) :=
  inferInstanceAs (Decidable (∃ e ∈ w.store.events, _))

instance (w : World) : Decidable (HasLong w) :=
  inferInstanceAs (Decidable (∃ e ∈ w.store.events, _))

/-- **The code the feed sends is stored in the case and at the length it is sent.** -/
theorem not_normalised (cfg : Config) :
    (∃ w, Reachable (World.act cfg) always World.Init w ∧ HasUpper w)
      ∧ ∃ w, Reachable (World.act cfg) always World.Init w ∧ HasLong w := by
  constructor
  · exact World.reachable_of_schedule cfg always [.importEvents [kickedOff]] HasUpper (by
      cases cfg; rfl)
  · exact World.reachable_of_schedule cfg always
      [.importEvents [{ kickedOff with cc := some "gbr" }]] HasLong (by cases cfg; rfl)

/-- So in no configuration are the codes always normalised. -/
theorem not_always_normalised :
    ¬ ∃ cfg, ∀ w, Reachable (World.act cfg) always World.Init w → Normalised w := by
  intro h
  obtain ⟨cfg, hall⟩ := h
  obtain ⟨⟨w, hr, e, he, hupper⟩, _⟩ := not_normalised cfg
  obtain ⟨c, hc, _, hlow⟩ := hall w hr e he
  rw [hc] at hupper
  exact hupper (by rw [Option.map_some, hlow])

end BetterEfisis.Proof

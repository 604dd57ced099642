import BetterEfisis.Imports
import BetterEfisis.Lib.Trace
import BetterEfisis.Proof.Orphans
import Mathlib.Logic.Equiv.Basic

/-!
# What a run makes rows of

The markets and selections of a batch, as lists: those of the entries of the
catalogues fetched, in order. And what a run that completes makes of the tables.
-/

namespace BetterEfisis.Proof

open Lib EventWorker

variable {md5 : String → String} {parseDate : String → Option Int}
  {same : String → String → Bool} {apiAccount : List Account → Option Account}

theorem entries_of_refused {l : Listed} (h : ¬ Accepted l) : l.entries = [] := by
  have hnone : l.fetched = [] := by
    unfold Listed.fetched
    split
    · rename_i hv _
      exact absurd hv h
    · rfl
  rw [Listed.entries, hnone, List.map_nil]

theorem fetched_of_accepted {l : Listed} {n : Int} (h : Accepted l)
    (hn : l.event.marketCount = some n) :
    l.fetched = if n > 0 then l.catalogue.getD [] else [] := by
  unfold Listed.fetched
  rw [h, hn]

/-- What a catalogue adds to the batch. -/
theorem catalogue_lists {eventId : String} {b b' : Batch} {catalogue : List ApiMarket}
    (h : catalogue.foldlM (collectMarket md5 eventId) b = .ok b') :
    b'.markets = b.markets ++ (catalogue.map (Entry.mk eventId)).map Entry.row
      ∧ b'.selections
        = b.selections ++ (catalogue.map (Entry.mk eventId)).flatMap (Entry.selections md5) := by
  have hmarkets := foldlM_flatMap (g := Batch.markets) (k := fun m => [marketRow eventId m]) ?_ h
  · have hselections := foldlM_flatMap (g := Batch.selections)
      (k := fun m => Entry.selections md5 ⟨eventId, m⟩) ?_ h
    · rw [hmarkets, hselections, List.map_map, List.flatMap_map, List.map_eq_flatMap]
      exact ⟨rfl, rfl⟩
    · intro c m c' hstep
      obtain ⟨runners, hr, rfl⟩ := collectMarket_ok hstep
      simp [Entry.selections, Entry.runners, hr]
  · intro c m c' hstep
    obtain ⟨runners, _, rfl⟩ := collectMarket_ok hstep
    rfl

/-- What a listed event adds to it. -/
theorem collectEvent_lists {b b' : Batch} {l : Listed}
    (h : collectEvent md5 parseDate b l = .ok b') :
    b'.markets = b.markets ++ l.entries.map Entry.row
      ∧ b'.selections = b.selections ++ l.entries.flatMap (Entry.selections md5) := by
  rcases collectEvent_ok h with ⟨hno, rfl⟩ | ⟨hyes, row, n, _, hn, hmore⟩
  · rw [entries_of_refused hno]
    simp
  · rw [Listed.entries, fetched_of_accepted hyes hn]
    rcases hmore with ⟨hpos, catalogue, hcat, hc⟩ | ⟨hpos, rfl⟩
    · obtain ⟨hmarkets, hselections⟩ := catalogue_lists hc
      rw [if_pos hpos, hcat, Option.getD_some]
      exact ⟨hmarkets, hselections⟩
    · rw [if_neg hpos]
      simp

/-- The markets and selections collected, in order. -/
theorem collect_lists {ls : List Listed} {b : Batch}
    (h : collect md5 parseDate (some ls) = .ok b) :
    b.markets = (processed ls).map Entry.row
      ∧ b.selections = (processed ls).flatMap (Entry.selections md5) := by
  have hmarkets := foldlM_flatMap (g := Batch.markets)
    (k := fun l => l.entries.map Entry.row) (fun _ _ _ hstep => (collectEvent_lists hstep).1) h
  have hselections := foldlM_flatMap (g := Batch.selections)
    (k := fun l => l.entries.flatMap (Entry.selections md5))
    (fun _ _ _ hstep => (collectEvent_lists hstep).2) h
  rw [hmarkets, hselections, processed, List.map_flatMap, List.flatMap_assoc]
  exact ⟨List.nil_append _, List.nil_append _⟩

/-- A run that can log in, collect and import its events completes. -/
theorem night_completes {s : Store} {n : Imports.Night} {t : List Account} {b : Batch}
    {events : List Event} (ht : apiNew md5 same apiAccount n.logon s.accounts = .ok t)
    (hb : collect md5 parseDate (some n.answers) = .ok b)
    (he : Event.importRows s.events b.events = .ok events) :
    ∃ s', Imports.act md5 parseDate same apiAccount s n = some s' := by
  unfold Imports.act
  rw [perform_ok.mpr ⟨t, b, events, ht, hb, he, rfl⟩]
  exact ⟨_, rfl⟩

/-- What the rows of some entries' runners are mapped to. -/
theorem map_selections {β : Type} (md5 : String → String) (f : Selection → β) (xs : List Entry) :
    (xs.flatMap (Entry.selections md5)).map f
      = xs.flatMap (fun x => x.runners.map (fun r => f (selectionRow md5 x.market r))) := by
  rw [List.map_flatMap]
  congr 1
  funext x
  exact List.map_map

/-- **What a run that completes makes of the markets and selections.** -/
theorem night_tables {s s' : Store} {n : Imports.Night}
    (h : Imports.act md5 parseDate same apiAccount s n = some s') :
    s'.markets = Market.validation.importSaved n.ids s.markets
        ((processed n.answers).map Entry.row)
      ∧ s'.selections = Selection.validation.importSaved n.ids' s.selections
        ((processed n.answers).flatMap (Entry.selections md5)) := by
  unfold Imports.act at h
  cases hp : perform md5 parseDate same apiAccount (some n.answers) n.logon n.ids n.ids' s with
  | error x =>
      rw [hp] at h
      exact absurd h (by simp [Except.toOption])
  | ok s'' =>
      rw [hp] at h
      cases h
      obtain ⟨_, b, _, _, hb, _, rfl⟩ := perform_ok.mp hp
      obtain ⟨hmarkets, hselections⟩ := collect_lists hb
      rw [← hmarkets, ← hselections]
      exact ⟨rfl, rfl⟩

/-! ## The key of a selection -/

/-- What is checked of a selection alone. -/
theorem present_selection_iff {x : Selection} : Selection.validation.present x = true ↔
    x.selectionId.isSome = true ∧ presentText (some x.marketId) = true := by
  show Selection.presentFields x = true ↔ _
  rw [Selection.presentFields, Bool.and_eq_true]

/-- What the key of a selection is the digest of. -/
def uniqText (marketId : String) (selectionId : Option Int) : String :=
  marketId ++ (selectionId.map toString).getD ""

/-- Every stored selection has the digest of its two ids. -/
def Digested (md5 : String → String) (t : List (Saved Selection)) : Prop :=
  ∀ y ∈ rows t, y.uniq = md5 (uniqText y.marketId y.selectionId)

theorem uniq_eq {xs : List Entry} {y : Selection} (h : y ∈ xs.flatMap (Entry.selections md5)) :
    y.uniq = md5 (uniqText y.marketId y.selectionId) := by
  obtain ⟨x, _, hy⟩ := List.mem_flatMap.mp h
  obtain ⟨r, _, rfl⟩ := List.mem_map.mp hy
  rfl

theorem digested_importSaved {t : List (Saved Selection)} (h : Digested md5 t) (ids : Nat → Nat)
    (xs : List Entry) : Digested md5
      (Selection.validation.importSaved ids t (xs.flatMap (Entry.selections md5))) := by
  intro y hy
  rw [rows_importSaved] at hy
  rcases Validation.mem_importRows.mp hy with hold | ⟨hnew, _⟩
  · exact h y hold
  · exact uniq_eq hnew

/-- A selection passes exactly if it has both ids, and they run together to a new text. -/
theorem valid_selection_iff (hmd5 : Function.Injective md5) {t : List (Saved Selection)}
    (h : Digested md5 t) {x : Selection} (hx : x.uniq = md5 (uniqText x.marketId x.selectionId)) :
    Selection.validation.valid (rows t) x = true ↔
      (x.selectionId.isSome = true ∧ presentText (some x.marketId) = true)
        ∧ ∀ y ∈ rows t, uniqText y.marketId y.selectionId ≠ uniqText x.marketId x.selectionId := by
  rw [Validation.valid_iff, present_selection_iff]
  refine and_congr_right fun _ => forall₂_congr fun y hy => not_congr ?_
  show y.uniq = x.uniq ↔ _
  rw [h y hy, hx]
  exact hmd5.eq_iff

/-! ## Where a run starts -/

/-- Someone to log in with, and nothing imported. -/
theorem signedUp_init (md5 : String → String) :
    unobserved Imports.Init (⟨signedUp md5, []⟩ : Logged Store Entry) := ⟨⟨rfl, rfl, rfl⟩, rfl⟩

/-- A digest that is one to one, and right on the text of an account and those of runners. -/
def runnerDigests : Equiv.Perm String :=
  (Equiv.swap "anasecretbetfair" "52d3a9883a584339f2d5838047f3e6c7").trans
    ((Equiv.swap "1.1747972" "11cca5382060611dd949a325c6dd6e04").trans
      (Equiv.swap "1.123" "e019ca23aedfa87718492570baac57da"))

end BetterEfisis.Proof

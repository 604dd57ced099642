import BetterEfisis.Lib.Import
import BetterEfisis.Ruby
import Mathlib.Data.List.Sort

/-!
# `Event`

A row of the events table, the ways the workers read it (`find`, the scopes) and
the ways they write it: the bulk import, `save` on a loaded copy, and the class
method `Event.update`.

A loaded copy and the row it came from are different things. `save` writes only
the columns that changed since the copy was loaded, over whatever the row holds
by then, and that is all two workers on one event ever see of each other.
-/

namespace BetterEfisis

open Lib

/-- The texts the workers write to `status`. -/
inductive Status where
  /-- `'not started'` -/
  | notStarted
  /-- `'IN_PLAY'` -/
  | inPlay
  /-- `'ENDED'` -/
  | ended
deriving DecidableEq, Repr

/-- A row of `events`; `none` is a NULL column. `openDate` is in seconds. -/
structure Event where
  id : Int
  name : Option String
  openDate : Option Int
  cc : Option String
  status : Option Status
  monitored : Option Bool
deriving DecidableEq, Repr

namespace Event

/--
`validates_presence_of` for the three columns that have it. The `length: { is: 2 }`
given to the one of `cc` is an option that validation does not know.
-/
def presentFields (e : Event) : Bool :=
  presentText e.name && presentText e.cc && e.openDate.isSome

/-- What a new row is checked for: the presence of its columns and an id no stored row has. -/
def validation : Validation Event Int := ⟨presentFields, Event.id⟩

/--
`Event.import`: no callbacks, the rows that fail the validations dropped. `id` is
the primary key, so two rows of the batch under one id make the insert raise.
-/
def importRows (t batch : List Event) : Except RubyError (List Event) :=
  if ((batch.filter (validation.valid t)).map Event.id).Nodup then
    .ok (validation.importRows t batch)
  else .error .recordNotUnique

/-- `before_save`. -/
def beforeSave (e : Event) : Event := { e with cc := e.cc.map downcase }

/-- The columns in which `cur` differs from `loaded`, written over what the row holds now. -/
def writeChanged (loaded cur row : Event) : Event where
  id := row.id
  name := if cur.name = loaded.name then row.name else cur.name
  openDate := if cur.openDate = loaded.openDate then row.openDate else cur.openDate
  cc := if cur.cc = loaded.cc then row.cc else cur.cc
  status := if cur.status = loaded.status then row.status else cur.status
  monitored := if cur.monitored = loaded.monitored then row.monitored else cur.monitored

/-- The row a `save` of `cur`, loaded as `loaded`, writes where `row` is stored. -/
def saveRow (loaded cur row : Event) : Event :=
  if row.id = loaded.id then writeChanged loaded cur.beforeSave row else row

/--
`save` of a stored event: the validations, then `before_save`, then the write.
The uniqueness of `id` looks for *another* row with the same primary key, so on
a stored event it passes. A failed validation writes nothing.
-/
def save (t : List Event) (loaded cur : Event) : List Event :=
  if cur.presentFields then t.map (saveRow loaded cur) else t

/-- The row under an id. -/
def lookup (t : List Event) (id : Int) : Option Event := t.find? (fun e => decide (e.id = id))

/-- `Event.find`. -/
def find (t : List Event) (id : Int) : Except RubyError Event :=
  match lookup t id with
  | some e => .ok e
  | none => .error .recordNotFound

/--
The method a call of `update` on an event reaches. ActiveRecord's own writes the
attributes it is given; the reader of an association named `update` takes them
for its reload flag and writes nothing.
-/
inductive UpdateMethod where
  | persistence
  | associationReader
deriving DecidableEq, Repr

/-- The second half of `Event.update`: `object.update(attributes)` on the copy `find` loaded. -/
def update (m : UpdateMethod) (t : List Event) (loaded : Event) (attributes : Event → Event) :
    List Event :=
  match m with
  | .persistence => save t loaded (attributes loaded)
  | .associationReader => t

/-! ## Scopes -/

/-- `order(open_date: :asc)`, NULL first. -/
def opensBefore (a b : Event) : Bool :=
  match a.openDate, b.openDate with
  | none, _ => true
  | some _, none => false
  | some x, some y => decide (x ≤ y)

/-- `where.not(status: 'ENDED')`: a NULL status is not different from `'ENDED'` in SQL. -/
def notFinished (t : List Event) : List Event :=
  (t.filter (fun e => e.status.any (fun s => decide (s ≠ .ended)))).insertionSort
    (fun a b => opensBefore a b = true)

/-- A comparison of `open_date` with computed times: false on NULL. -/
def opensIn (p : Int → Bool) (e : Event) : Bool := e.openDate.any p

/-- `starting_now`; `now` is the clock reading behind `10.minutes.from_now`. -/
def startingNow (t : List Event) (now : Int) : List Event :=
  (notFinished t).filter (opensIn (fun d => decide (d ≤ now + 600)))

/-- A scope bounded on both sides, each bound computed from a clock reading of its own. -/
def startingBetween (t : List Event) (lower upper : Int) : List Event :=
  (notFinished t).filter (opensIn (fun d => decide (lower ≤ d) && decide (d < upper)))

/-- `starting_soon`. -/
def startingSoon (t : List Event) (now now' : Int) : List Event :=
  startingBetween t (now + 660) (now' + 7200)

/-- `starting_later`. -/
def startingLater (t : List Event) (now now' : Int) : List Event :=
  startingBetween t (now + 7200) (now' + 18000)

/-- `starting_tomorow`. -/
def startingTomorow (t : List Event) (now now' : Int) : List Event :=
  startingBetween t (now + 18000) (now' + 43200)

/-- `starting_someday`. -/
def startingSomeday (t : List Event) (now : Int) : List Event :=
  (notFinished t).filter (opensIn (fun d => decide (now + 43200 ≤ d)))

/-! ## Reading after writing -/

@[simp] theorem saveRow_id (loaded cur row : Event) : (saveRow loaded cur row).id = row.id := by
  unfold saveRow; split <;> rfl

theorem saveRow_other {loaded cur row : Event} (h : row.id ≠ loaded.id) :
    saveRow loaded cur row = row := by
  unfold saveRow
  rw [if_neg h]

theorem saveRow_status {loaded cur row : Event} (h : row.id = loaded.id) :
    (saveRow loaded cur row).status
      = if cur.status = loaded.status then row.status else cur.status := by
  unfold saveRow
  rw [if_pos h]
  rfl

theorem saveRow_monitored {loaded cur row : Event} (h : row.id = loaded.id) :
    (saveRow loaded cur row).monitored
      = if cur.monitored = loaded.monitored then row.monitored else cur.monitored := by
  unfold saveRow
  rw [if_pos h]
  rfl

theorem save_ids (t : List Event) (loaded cur : Event) :
    (save t loaded cur).map Event.id = t.map Event.id := by
  unfold save
  split
  · simp [List.map_map, Function.comp_def]
  · rfl

theorem update_ids (m : UpdateMethod) (t : List Event) (loaded : Event) (f : Event → Event) :
    (update m t loaded f).map Event.id = t.map Event.id := by
  cases m with
  | persistence => exact save_ids t loaded (f loaded)
  | associationReader => rfl

theorem lookup_map {f : Event → Event} (hf : ∀ e, (f e).id = e.id) (t : List Event) (i : Int) :
    lookup (t.map f) i = (lookup t i).map f := by
  have hsame : (fun e : Event => decide (e.id = i)) ∘ f = fun e => decide (e.id = i) := by
    funext e
    simp only [Function.comp_apply, hf]
  rw [lookup, List.find?_map, hsame, lookup]

/-- What `save` leaves under an id. -/
theorem lookup_save {t : List Event} {loaded cur : Event} (h : cur.presentFields = true) (i : Int) :
    lookup (save t loaded cur) i = (lookup t i).map (saveRow loaded cur) := by
  rw [save, if_pos h, lookup_map (saveRow_id loaded cur)]

/-- What `Event.update` leaves there, where it writes at all. -/
theorem lookup_update {t : List Event} {c : Event} {f : Event → Event}
    (h : (f c).presentFields = true) (i : Int) :
    lookup (update .persistence t c f) i = (lookup t i).map (saveRow c (f c)) := lookup_save h i

theorem lookup_mem {t : List Event} {i : Int} {e : Event} (h : lookup t i = some e) :
    e ∈ t ∧ e.id = i := by
  refine ⟨List.mem_of_find?_eq_some h, ?_⟩
  have := List.find?_some h
  simpa using this

theorem find_eq_ok {t : List Event} {i : Int} {e : Event} :
    find t i = .ok e ↔ lookup t i = some e := by
  unfold find
  cases lookup t i with
  | none => simp
  | some e' => simp

theorem lookup_append_of_some {t t' : List Event} {i : Int} {e : Event}
    (h : lookup t i = some e) : lookup (t ++ t') i = some e := by
  unfold lookup at h ⊢
  rw [List.find?_append, h]
  rfl

/-- An id that is in use finds a row. -/
theorem lookup_isSome {t : List Event} {i : Int} (h : i ∈ t.map Event.id) :
    ∃ e, lookup t i = some e := by
  obtain ⟨e, he, hi⟩ := List.mem_map.mp h
  cases hq : lookup t i with
  | some e' => exact ⟨e', rfl⟩
  | none =>
      unfold lookup at hq
      rw [List.find?_eq_none] at hq
      exact absurd (by simpa using hi) (hq e he)

theorem mem_ids_of_lookup {t : List Event} {i : Int} {e : Event} (h : lookup t i = some e) :
    i ∈ t.map Event.id := by
  obtain ⟨hm, hi⟩ := lookup_mem h
  exact List.mem_map.mpr ⟨e, hm, hi⟩

/-! ## What the writes keep -/

theorem presentFields_beforeSave (e : Event) : e.beforeSave.presentFields = e.presentFields := by
  unfold presentFields beforeSave
  rw [presentText_downcase]

theorem presentFields_writeChanged {loaded cur row : Event} (hc : cur.presentFields = true)
    (hr : row.presentFields = true) : (writeChanged loaded cur row).presentFields = true := by
  unfold presentFields at hc hr ⊢
  simp only [Bool.and_eq_true] at hc hr ⊢
  unfold writeChanged
  refine ⟨⟨?_, ?_⟩, ?_⟩
  · dsimp only; split
    · exact hr.1.1
    · exact hc.1.1
  · dsimp only; split
    · exact hr.1.2
    · exact hc.1.2
  · dsimp only; split
    · exact hr.2
    · exact hc.2

/-- Stored events stay presentable whatever is saved. -/
theorem presentFields_save {t : List Event} (h : ∀ e ∈ t, e.presentFields = true)
    (loaded cur : Event) : ∀ e ∈ save t loaded cur, e.presentFields = true := by
  unfold save
  split
  · rename_i hc
    intro e he
    obtain ⟨row, hrow, rfl⟩ := List.mem_map.mp he
    unfold saveRow
    split
    · exact presentFields_writeChanged (by rw [presentFields_beforeSave]; exact hc) (h row hrow)
    · exact h row hrow
  · exact h

/-! ## The scopes select stored rows -/

theorem mem_notFinished {t : List Event} {e : Event} :
    e ∈ notFinished t ↔ e ∈ t ∧ ∃ s, e.status = some s ∧ s ≠ .ended := by
  unfold notFinished
  rw [List.mem_insertionSort, List.mem_filter, Option.any_eq_true]
  simp

theorem mem_startingNow {t : List Event} {now : Int} {e : Event} (h : e ∈ startingNow t now) :
    e ∈ t ∧ e.status ≠ some .ended := by
  obtain ⟨hm, _⟩ := List.mem_filter.mp h
  obtain ⟨ht, s, hs, hne⟩ := mem_notFinished.mp hm
  refine ⟨ht, ?_⟩
  rw [hs]
  intro he
  exact hne (Option.some.inj he)

end Event

end BetterEfisis

import BetterEfisis.Lib.Import
import BetterEfisis.Ruby

/-!
# The other tables

Rows and validations of `Market`, `Selection`, `Book`, `Runner` and `Update`.
Time stamps are left out, nothing reads them. A NULL column is `none`.
-/

namespace BetterEfisis

open Lib

/-- A row of `markets`. `eventId` is the value as the integer column stores it. -/
structure Market where
  marketId : String
  eventId : Int
  name : Option String
  totalMatched : Option Rat
  status : String
deriving DecidableEq, Repr

/-- `validates_uniqueness_of :market_id`. -/
def Market.validation : Validation Market String := ⟨fun _ => true, Market.marketId⟩

/-- A row of `selections`. -/
structure Selection where
  marketId : String
  selectionId : Option Int
  name : Option String
  handicap : Option Rat
  uniq : String
deriving DecidableEq, Repr

/-- `validates_presence_of` for `selection_id` and `market_id`. -/
def Selection.presentFields (s : Selection) : Bool :=
  s.selectionId.isSome && presentText (some s.marketId)

/-- The presence of both ids, and `validates_uniqueness_of :uniq`. -/
def Selection.validation : Validation Selection String := ⟨Selection.presentFields, Selection.uniq⟩

/-- `Selection.find_by(market_id:, selection_id:)`. -/
def Selection.findBy (t : List (Saved Selection)) (marketId : String) (selectionId : Option Int) :
    Option (Saved Selection) :=
  t.find? (fun s => decide (s.row.marketId = marketId ∧ s.row.selectionId = selectionId))

/-- A `Book` as `parse_runners` builds it: `side` is the text assigned to the column. -/
structure Book where
  price : Rat
  size : Rat
  side : String
  selectionId : Nat
deriving DecidableEq, Repr

/-- A row of `books`: two float columns, and an integer column for `side`. -/
structure StoredBook where
  price : Rat
  size : Rat
  side : Int
  selectionId : Nat
deriving DecidableEq, Repr

/--
The row a book is stored as. `float` is what a float column of the database hands back
for the number assigned: MySQL's `FLOAT` keeps about six digits.
-/
def Book.stored (float : Rat → Rat) (b : Book) : StoredBook :=
  ⟨float b.price, float b.size, toI b.side, b.selectionId⟩

/-- `Book.import`; nothing is validated. -/
def Book.importRows (float : Rat → Rat) (t : List StoredBook) (batch : List Book) :
    List StoredBook :=
  t ++ batch.map (Book.stored float)

/-- A row of `runners`. -/
structure Runner where
  id : Nat
  name : String
deriving DecidableEq, Repr

/-- How the database compares a name column with a text in a query. -/
inductive Collation where
  | binary
  | ignoreCase
deriving DecidableEq, Repr

/-- The comparison itself. -/
def Collation.same (c : Collation) (a b : String) : Bool :=
  match c with
  | .binary => decide (a = b)
  | .ignoreCase => decide (downcase a = downcase b)

/-- `Runner.select(:id).find_by(name: name)`; no stored name is NULL. -/
def Runner.findBy (c : Collation) (t : List Runner) (name : Option String) : Option Runner :=
  t.find? (fun r => name.any (fun n => c.same r.name n))

/--
`Runner.create(name: name).id`. The uniqueness of `name` is validated on the name
as given and by exact comparison, and then `before_save` lower-cases it. An invalid
runner is not stored and has no id; the callback raises on a missing name.
-/
def Runner.create (t : List Runner) (name : Option String) :
    Except RubyError (List Runner × Option Nat) :=
  match name with
  | none => .error .noMethodError
  | some n =>
      if t.any (fun r => decide (r.name = n)) then .ok (t, none)
      else .ok (t ++ [⟨t.length + 1, downcase n⟩], some (t.length + 1))

/-- A look-up that finds a runner finds a stored one whose name compares equal. -/
theorem Runner.findBy_some {c : Collation} {t : List Runner} {name : Option String} {r : Runner}
    (h : Runner.findBy c t name = some r) :
    ∃ n, name = some n ∧ r ∈ t ∧ c.same r.name n = true := by
  have hsat := List.find?_some h
  rw [Option.any_eq_true] at hsat
  obtain ⟨n, hn, hsame⟩ := hsat
  exact ⟨n, hn, List.mem_of_find?_eq_some h, hsame⟩

/-- A name that is not found is not stored, and a runner is created for it. -/
theorem Runner.create_of_not_found {c : Collation} {t : List Runner} {n : String}
    (h : Runner.findBy c t (some n) = none) :
    Runner.create t (some n)
      = .ok (t ++ [⟨t.length + 1, downcase n⟩], some (t.length + 1)) := by
  unfold Runner.findBy at h
  rw [List.find?_eq_none] at h
  refine if_neg ?_
  intro htaken
  obtain ⟨r, hr, hn⟩ := List.any_eq_true.mp htaken
  have hname : r.name = n := of_decide_eq_true hn
  have hdiffers := h r hr
  cases c <;> simp [Collation.same, hname] at hdiffers

/-- A row of `updates`. -/
structure Update where
  matchTime : Option Int
  updateType : Option String
  runnerId : Option Nat
  eventId : Int
deriving DecidableEq, Repr

/-- The stored updates of one event, in the order they were inserted. -/
def Update.ofEvent (t : List Update) (id : Int) : List Update :=
  t.filter (fun u => decide (u.eventId = id))

@[simp] theorem Update.ofEvent_append (t t' : List Update) (id : Int) :
    ofEvent (t ++ t') id = ofEvent t id ++ ofEvent t' id := by
  simp [ofEvent]

end BetterEfisis

import BetterEfisis.Redis.Dict
import BetterEfisis.Lib.Reach

/-!
# Safe iterators (`dict.c`)

A safe iterator goes through the buckets of the first table and then, if the dictionary
is being rehashed, through those of the second. Between two of its steps the caller may
use the dictionary; it may also delete the entry it was just given, since the iterator
has the one after it already. An iterator counts itself in the dictionary with its first
step, and while one is counted no access moves a bucket.

An entry the iterator points to is known by its key. Following a pointer to an entry that
is no longer in its chain, which the source would read from freed memory, gives `none`.
-/

namespace BetterEfisis.Redis

variable {κ ν : Type}

/-- `dictIterator` with `safe` set; `index` is `none` where the source has -1. -/
structure DictIterator (κ : Type) where
  /-- Whether it is in the second table. -/
  table : Bool
  index : Option Nat
  entry : Option κ
  nextEntry : Option κ
  deriving DecidableEq

/-- `dictGetSafeIterator`. -/
def dictGetSafeIterator : DictIterator κ := ⟨false, none, none, none⟩

def Dict.ht (d : Dict κ ν) (table : Bool) : Dictht κ ν := if table then d.ht1 else d.ht0

/-- The key of the first entry of a chain. -/
def firstKey (c : List (DictEntry κ ν)) : Option κ := c.head?.map Sigma.fst

/-- On to the first bucket of a table that has a chain, from place `i` on. -/
def scanBuckets (d : Dict κ ν) (table : Bool) (i : Nat) (saved : Option κ) :
    Option (DictEntry κ ν) × DictIterator κ :=
  match firstChain ((d.ht table).table.drop i) i with
  | some (j, e :: c) => (some e, ⟨table, some j, some e.1, firstKey c⟩)
  | _ => (none, ⟨table, some (max i (d.ht table).size), none, saved⟩)

/-- The same, and on to the second table after the first. -/
def advance (d : Dict κ ν) (table : Bool) (i : Nat) (saved : Option κ) :
    Option (DictEntry κ ν) × DictIterator κ :=
  match scanBuckets d table i saved with
  | (some e, it) => (some e, it)
  | (none, it) => if d.isRehashing && !table then scanBuckets d true 0 saved else (none, it)

/-- `dictNext` where the chain it was in is over. -/
def nextBucket (d : Dict κ ν) (it : DictIterator κ) :
    Option (DictEntry κ ν) × DictIterator κ × Dict κ ν :=
  match it.index with
  | none =>
      let d := if it.table then d else { d with iterators := d.iterators + 1 }
      let (e, it) := advance d it.table 0 it.nextEntry
      (e, it, d)
  | some i =>
      let (e, it) := advance d it.table (i + 1) it.nextEntry
      (e, it, d)

section Keys

variable [DecidableEq κ]

/-- The entry a key is a pointer to, and the one after it. -/
def entryAt (key : κ) : List (DictEntry κ ν) → Option (DictEntry κ ν × Option κ)
  | [] => none
  | e :: c => if key = e.1 then some (e, firstKey c) else entryAt key c

/-- `dictNext`: the entry returned, the iterator and the dictionary after. -/
def dictNext (d : Dict κ ν) (it : DictIterator κ) :
    Option (Option (DictEntry κ ν) × DictIterator κ × Dict κ ν) :=
  match it.entry, it.nextEntry with
  | some _, some key => do
      let i ← it.index
      let c ← (d.ht it.table).table[i]?
      let (e, next) ← entryAt key c
      some (some e, { it with entry := some key, nextEntry := next }, d)
  | _, _ => some (nextBucket d it)

/-- `dictReleaseIterator`. -/
def dictReleaseIterator (d : Dict κ ν) (it : DictIterator κ) : Dict κ ν :=
  if it.index = none ∧ it.table = false then d else { d with iterators := d.iterators - 1 }

/-! ## A loop over a dictionary -/

/-- A loop under way, with the keys it was given and those its body deleted. -/
structure Iteration (κ ν : Type) where
  dict : Dict κ ν
  canResize : Bool
  it : DictIterator κ
  returned : List κ
  deleted : List κ
  ended : Bool
  deriving DecidableEq

/-- What a loop does: it asks for the next entry, or its body uses the dictionary. -/
inductive IterAct (κ ν : Type) where
  | next
  | call (c : DictCall κ ν)

/-- A loop about to begin. -/
def iteration (d : Dict κ ν) (canResize : Bool) : Iteration κ ν :=
  ⟨d, canResize, dictGetSafeIterator, [], [], false⟩

def IterBegins (d : Dict κ ν) (canResize : Bool) (s : Iteration κ ν) : Prop :=
  s = iteration d canResize

/-- The key a call deletes. -/
def DictCall.deletes : DictCall κ ν → List κ
  | .delete key => [key]
  | _ => []

/--
What the body of a loop may do: anything but delete another entry than the one it was
given, empty the dictionary, or move buckets itself.
-/
def iterAllowed (s : Iteration κ ν) : IterAct κ ν → Prop
  | .next => s.ended = false
  | .call (.delete key) => s.ended = false ∧ s.it.entry = some key
  | .call .empty | .call (.rehash _) => False
  | .call _ => s.ended = false

instance (s : Iteration κ ν) (a : IterAct κ ν) : Decidable (iterAllowed s a) :=
  match a with
  | .next => inferInstanceAs (Decidable (s.ended = false))
  | .call (.delete key) => inferInstanceAs (Decidable (s.ended = false ∧ s.it.entry = some key))
  | .call .empty | .call (.rehash _) => inferInstanceAs (Decidable False)
  | .call (.add _ _) | .call (.replace _ _) | .call (.find _) | .call .resize
  | .call (.expand _) | .call .enableResize | .call .disableResize =>
      inferInstanceAs (Decidable (s.ended = false))

def iterStep (hash : κ → UInt32) (s : Iteration κ ν) : IterAct κ ν → Option (Iteration κ ν)
  | .next => do
      let (e, it, d) ← dictNext s.dict s.it
      match e with
      | some e => some { s with dict := d, it := it, returned := s.returned ++ [e.1] }
      | none => some { s with dict := d, it := it, ended := true }
  | .call c => do
      let (_, d, canResize) ← dictCall hash (s.dict, s.canResize) c
      some { s with dict := d, canResize := canResize, deleted := c.deletes ++ s.deleted }

end Keys

end BetterEfisis.Redis

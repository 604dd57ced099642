import BetterEfisis.Lib.Buckets

/-!
# The hash table of the Redis server (`dict.c`)

A dictionary has two tables. Entries go to the first; when it is full a second one is
set up, and from then on every lookup and update also moves one bucket over, until the
first table is empty and the second takes its place. While a safe iterator is under way
nothing is moved.

A function gives `none` where the source would stop: at a failed `assert`, or at a read
or write off the end of a table. A chain is the list of its entries, an empty one is
`NULL`. `hash` is the `hashFunction` of the dictionary's type, `canResize` the global
`dict_can_resize`. The place of a bucket is a natural number, an `int` in the source: the two
are the same for tables of up to 2^31 buckets.
-/

namespace BetterEfisis.Redis

variable {κ ν : Type}

/-- `dictEntry`: a key and its value; `next` is the place in the chain. -/
abbrev DictEntry (κ ν : Type) := Σ _ : κ, ν

/-- `dictht`. -/
structure Dictht (κ ν : Type) where
  table : Lib.Buckets κ ν
  used : Nat
  deriving DecidableEq

namespace Dictht

def size (t : Dictht κ ν) : Nat := t.table.length

def sizemask (t : Dictht κ ν) : Nat := t.size - 1

/-- The bucket of a key. -/
def index (hash : κ → UInt32) (t : Dictht κ ν) (key : κ) : Nat := (hash key).toNat &&& t.sizemask

/-- `_dictReset`. -/
def reset : Dictht κ ν := ⟨[], 0⟩

end Dictht

/-- `dict`; `rehashidx` is `none` where the source has -1. -/
structure Dict (κ ν : Type) where
  ht0 : Dictht κ ν
  ht1 : Dictht κ ν
  rehashidx : Option Nat
  iterators : Nat
  deriving DecidableEq

def DICT_HT_INITIAL_SIZE : Nat := 4

def dict_force_resize_ratio : Nat := 5

def LONG_MAX : Nat := 2 ^ 63 - 1

/-- `dictCreate`. -/
def dictCreate : Dict κ ν := ⟨Dictht.reset, Dictht.reset, none, 0⟩

namespace Dict

/-- `dictIsRehashing`. -/
def isRehashing (d : Dict κ ν) : Bool := d.rehashidx.isSome

/-- `dictSize`. -/
def size (d : Dict κ ν) : Nat := d.ht0.used + d.ht1.used

/-- What is in the tables. -/
def entries (d : Dict κ ν) : List (DictEntry κ ν) := d.ht0.table.flatten ++ d.ht1.table.flatten

end Dict

/-- The loop of `_dictNextPower`: `i` is doubled until it is large enough. -/
def nextPowerLoop (size : Nat) : Nat → Nat → Nat
  | 0, i => i
  | fuel + 1, i => if i ≥ size then i else nextPowerLoop size fuel (i * 2)

/-- `_dictNextPower`; `size` rounds are more than the loop ever takes. -/
def dictNextPower (size : Nat) : Nat :=
  if size ≥ LONG_MAX then LONG_MAX else nextPowerLoop size size DICT_HT_INITIAL_SIZE

/-- `dictExpand`: whether it was done, and the dictionary after. -/
def dictExpand (d : Dict κ ν) (size : Nat) : Bool × Dict κ ν :=
  let n : Dictht κ ν := ⟨List.replicate (dictNextPower size) [], 0⟩
  if d.isRehashing || decide (d.ht0.used > size) then (false, d)
  else if d.ht0.table.isEmpty then (true, { d with ht0 := n })
  else (true, { d with ht1 := n, rehashidx := some 0 })

/-- `dictResize`. -/
def dictResize (canResize : Bool) (d : Dict κ ν) : Bool × Dict κ ν :=
  if !canResize || d.isRehashing then (false, d)
  else dictExpand d (max d.ht0.used DICT_HT_INITIAL_SIZE)

/-- The first bucket with a chain, and its place, from place `i` on. -/
def firstChain {α : Type} : List (List α) → Nat → Option (Nat × List α)
  | [], _ => none
  | [] :: rest, i => firstChain rest (i + 1)
  | (e :: c) :: _, i => some (i, e :: c)

/-- An entry put in front of a chain. -/
def Dictht.link (t : Dictht κ ν) (idx : Nat) (e : DictEntry κ ν) : Option (Dictht κ ν) := do
  let c ← t.table[idx]?
  some { table := t.table.set idx (e :: c), used := t.used + 1 }

/-- The loop of `dictRehash` that moves the entries of a chain to the second table. -/
def moveChain (hash : κ → UInt32) :
    List (DictEntry κ ν) → Dictht κ ν → Dictht κ ν → Option (Dictht κ ν × Dictht κ ν)
  | [], t0, t1 => some (t0, t1)
  | e :: c, t0, t1 => do
      let t1 ← t1.link (t1.index hash e.1) e
      moveChain hash c { t0 with used := t0.used - 1 } t1

/-- `dictRehash`: whether there are buckets left to move, and the dictionary after. -/
def dictRehash (hash : κ → UInt32) : Nat → Dict κ ν → Option (Bool × Dict κ ν)
  | 0, d => some (d.isRehashing, d)
  | n + 1, d =>
    match d.rehashidx with
    | none => some (false, d)
    | some i =>
      if d.ht0.used = 0 then
        some (false, { d with ht0 := d.ht1, ht1 := Dictht.reset, rehashidx := none })
      else if d.ht0.size ≤ i then none
      else do
        let (j, c) ← firstChain (d.ht0.table.drop i) i
        let (t0, t1) ← moveChain hash c d.ht0 d.ht1
        dictRehash hash n { d with
          ht0 := { t0 with table := t0.table.set j [] }, ht1 := t1, rehashidx := some (j + 1) }

/-- `_dictRehashStep`. -/
def dictRehashStep (hash : κ → UInt32) (d : Dict κ ν) : Option (Dict κ ν) :=
  if d.iterators = 0 then (dictRehash hash 1 d).map Prod.snd else some d

/-- `if (dictIsRehashing(d)) _dictRehashStep(d)`, which every access begins with. -/
def rehashOnAccess (hash : κ → UInt32) (d : Dict κ ν) : Option (Dict κ ν) :=
  if d.isRehashing then dictRehashStep hash d else some d

/-- `_dictExpandIfNeeded`. -/
def dictExpandIfNeeded (canResize : Bool) (d : Dict κ ν) : Bool × Dict κ ν :=
  if d.isRehashing then (true, d)
  else if d.ht0.size = 0 then dictExpand d DICT_HT_INITIAL_SIZE
  else if d.ht0.used ≥ d.ht0.size ∧
      (canResize = true ∨ d.ht0.used / d.ht0.size > dict_force_resize_ratio) then
    dictExpand d (d.ht0.used * 2)
  else (true, d)

section Keys

variable [DecidableEq κ]

/-- The loop that looks for a key along a chain. -/
def chainHas (c : List (DictEntry κ ν)) (key : κ) : Bool := c.any fun he => decide (key = he.1)

/--
`_dictKeyIndex`: the bucket for a new entry, or `none` where the source gives -1. Of the
dictionary it may change, it leaves the place of the entry to the table in use.
-/
def dictKeyIndex (hash : κ → UInt32) (canResize : Bool) (d : Dict κ ν) (key : κ) :
    Option (Option Nat × Dict κ ν) :=
  match dictExpandIfNeeded canResize d with
  | (false, d) => some (none, d)
  | (true, d) => do
      let idx := d.ht0.index hash key
      let c ← d.ht0.table[idx]?
      if chainHas c key then some (none, d)
      else if !d.isRehashing then some (some idx, d)
      else do
        let idx := d.ht1.index hash key
        let c ← d.ht1.table[idx]?
        if chainHas c key then some (none, d) else some (some idx, d)

/-- `dictAddRaw`, and `dictSetVal` of the entry it makes: `dictAdd`. -/
def dictAdd (hash : κ → UInt32) (canResize : Bool) (d : Dict κ ν) (key : κ) (val : ν) :
    Option (Bool × Dict κ ν) := do
  let d ← rehashOnAccess hash d
  let (index, d) ← dictKeyIndex hash canResize d key
  match index with
  | none => some (false, d)
  | some idx =>
      if d.isRehashing then do
        let t ← d.ht1.link idx ⟨key, val⟩
        some (true, { d with ht1 := t })
      else do
        let t ← d.ht0.link idx ⟨key, val⟩
        some (true, { d with ht0 := t })

/-- `dictFind`: the value of the entry found, and the dictionary after the rehash step. -/
def dictFind (hash : κ → UInt32) (d : Dict κ ν) (key : κ) : Option (Option ν × Dict κ ν) :=
  if d.ht0.size = 0 then some (none, d)
  else do
    let d ← rehashOnAccess hash d
    let c ← d.ht0.table[d.ht0.index hash key]?
    match c.dlookup key with
    | some v => some (some v, d)
    | none =>
        if !d.isRehashing then some (none, d)
        else do
          let c ← d.ht1.table[d.ht1.index hash key]?
          some (c.dlookup key, d)

/-- `dictSetVal` of the entry `dictFind` finds. -/
def dictSetVal (hash : κ → UInt32) (d : Dict κ ν) (key : κ) (val : ν) : Option (Dict κ ν) := do
  let idx := d.ht0.index hash key
  let c ← d.ht0.table[idx]?
  if chainHas c key then
    some { d with ht0 := { d.ht0 with table := d.ht0.table.set idx (c.kreplace key val) } }
  else do
    let idx := d.ht1.index hash key
    let c ← d.ht1.table[idx]?
    some { d with ht1 := { d.ht1 with table := d.ht1.table.set idx (c.kreplace key val) } }

/-- `dictReplace`. -/
def dictReplace (hash : κ → UInt32) (canResize : Bool) (d : Dict κ ν) (key : κ) (val : ν) :
    Option (Bool × Dict κ ν) := do
  let (added, d) ← dictAdd hash canResize d key val
  if added then some (true, d)
  else do
    let (_, d) ← dictFind hash d key
    let d ← dictSetVal hash d key val
    some (false, d)

/-- `dictReplaceRaw`, and `dictSetVal` of the entry it gives. -/
def dictReplaceRaw (hash : κ → UInt32) (canResize : Bool) (d : Dict κ ν) (key : κ) (val : ν) :
    Option (Dict κ ν) := do
  let (entry, d) ← dictFind hash d key
  match entry with
  | some _ => dictSetVal hash d key val
  | none => do
      let (added, d) ← dictAdd hash canResize d key val
      if added then some d else none

/-- The loop of `dictGenericDelete` over the chain of one table. -/
def Dictht.unlink (hash : κ → UInt32) (t : Dictht κ ν) (key : κ) : Option (Bool × Dictht κ ν) := do
  let idx := t.index hash key
  let c ← t.table[idx]?
  if chainHas c key then
    some (true, { table := t.table.set idx (c.kerase key), used := t.used - 1 })
  else some (false, t)

/-- `dictGenericDelete`: whether there was an entry to delete. -/
def dictGenericDelete (hash : κ → UInt32) (d : Dict κ ν) (key : κ) : Option (Bool × Dict κ ν) :=
  if d.ht0.size = 0 then some (false, d)
  else do
    let d ← rehashOnAccess hash d
    let (found, t) ← d.ht0.unlink hash key
    if found then some (true, { d with ht0 := t })
    else if !d.isRehashing then some (false, d)
    else do
      let (found, t) ← d.ht1.unlink hash key
      some (found, { d with ht1 := t })

end Keys

/-- `dictGetRandomKey`: what the random numbers pick can be any entry there is. -/
def dictGetRandomKey (hash : κ → UInt32) (d : Dict κ ν) (pick : Nat) :
    Option (Option (DictEntry κ ν) × Dict κ ν) :=
  if d.size = 0 then some (none, d)
  else do
    let d ← rehashOnAccess hash d
    let e ← d.entries[pick % d.entries.length]?
    some (some e, d)

/-- `dictRehashMilliseconds`: as many rounds as there is time for, if it takes as many. -/
def dictRehashMilliseconds (hash : κ → UInt32) : Nat → Dict κ ν → Option (Dict κ ν)
  | 0, d => some d
  | rounds + 1, d => do
      let (more, d) ← dictRehash hash 100 d
      if more then dictRehashMilliseconds hash rounds d else some d

/-- `dictEmpty`. -/
def dictEmpty (_ : Dict κ ν) : Dict κ ν := ⟨Dictht.reset, Dictht.reset, none, 0⟩

/-! ## A program that uses a dictionary -/

/-- The calls of `dict.c` that are not about iterators. -/
inductive DictCall (κ ν : Type) where
  | add (key : κ) (val : ν)
  | replace (key : κ) (val : ν)
  | delete (key : κ)
  | find (key : κ)
  | rehash (n : Nat)
  | resize
  | expand (size : Nat)
  | empty
  | enableResize
  | disableResize

/-- What a call tells of the entries. -/
inductive DictReply (ν : Type) where
  | done
  | flag (b : Bool)
  | value (v : Option ν)
  deriving DecidableEq

section Calls

variable [DecidableEq κ]

/-- A call made on a dictionary, with `dict_can_resize` beside it. -/
def dictCall (hash : κ → UInt32) (s : Dict κ ν × Bool) :
    DictCall κ ν → Option (DictReply ν × Dict κ ν × Bool)
  | .add key val => do
      let (b, d) ← dictAdd hash s.2 s.1 key val
      some (.flag b, d, s.2)
  | .replace key val => do
      let (b, d) ← dictReplace hash s.2 s.1 key val
      some (.flag b, d, s.2)
  | .delete key => do
      let (b, d) ← dictGenericDelete hash s.1 key
      some (.flag b, d, s.2)
  | .find key => do
      let (v, d) ← dictFind hash s.1 key
      some (.value v, d, s.2)
  | .rehash n => do
      let (_, d) ← dictRehash hash n s.1
      some (.done, d, s.2)
  | .resize => some (.done, (dictResize s.2 s.1).2, s.2)
  | .expand size => some (.done, (dictExpand s.1 size).2, s.2)
  | .empty => some (.done, dictEmpty s.1, s.2)
  | .enableResize => some (.done, s.1, true)
  | .disableResize => some (.done, s.1, false)

def dictRun (hash : κ → UInt32) :
    Dict κ ν × Bool → List (DictCall κ ν) → Option (List (DictReply ν) × Dict κ ν × Bool)
  | s, [] => some ([], s)
  | s, call :: calls => do
      let (r, s) ← dictCall hash s call
      let (rs, s) ← dictRun hash s calls
      some (r :: rs, s)

/-- The same calls on a finite map. The table and its rehashing are not there. -/
def mapCall (m : Finmap fun _ : κ => ν) : DictCall κ ν → DictReply ν × Finmap fun _ : κ => ν
  | .add key val => (.flag (decide (key ∉ m)), if key ∈ m then m else m.insert key val)
  | .replace key val => (.flag (decide (key ∉ m)), m.insert key val)
  | .delete key => (.flag (decide (key ∈ m)), m.erase key)
  | .find key => (.value (m.lookup key), m)
  | .empty => (.done, ∅)
  | .rehash _ | .resize | .expand _ | .enableResize | .disableResize => (.done, m)

def mapRun (m : Finmap fun _ : κ => ν) :
    List (DictCall κ ν) → List (DictReply ν) × Finmap fun _ : κ => ν
  | [] => ([], m)
  | call :: calls =>
      let (r, m) := mapCall m call
      let (rs, m) := mapRun m calls
      (r :: rs, m)

end Calls

end BetterEfisis.Redis

import BetterEfisis.Redis.Iterator

/-!
# Scanning a dictionary with a cursor (`dictScan`)

A scan holds nothing but a cursor between two calls. Each call returns the entries of the
bucket the cursor is at, and counts the cursor up with its bits reversed. While the
dictionary is being rehashed the cursor is one of the smaller table, and the call goes
through all the buckets of the larger one that the bucket becomes, or came from.
-/

namespace BetterEfisis.Redis

variable {κ ν : Type}

/-- A step of the loop of `rev`: the halves of each block of `2 * s` bits change places. -/
def revStep (x : BitVec 64 × BitVec 64) (s : Nat) : BitVec 64 × BitVec 64 :=
  let mask := x.1 ^^^ (x.1 <<< s)
  (mask, ((x.2 >>> s) &&& mask) ||| ((x.2 <<< s) &&& ~~~mask))

/-- `rev`: `s` is halved from 64 until it is 0. -/
def rev (v : BitVec 64) : BitVec 64 := ([32, 16, 8, 4, 2, 1].foldl revStep (~~~0, v)).2

/-- `sizemask`, as the word it is. -/
def Dictht.mask (t : Dictht κ ν) : BitVec 64 := BitVec.ofNat 64 t.sizemask

/--
The `do` loop over the larger table: the buckets that `v` and the words after it in the
bits of `m1` that are not in `m0` give. It takes no more rounds than there are buckets.
-/
def scanLarger (t1 : Dictht κ ν) (m0 m1 : BitVec 64) :
    Nat → BitVec 64 → Option (List (DictEntry κ ν) × BitVec 64)
  | 0, _ => none
  | fuel + 1, v => do
      let c ← t1.table[(v &&& m1).toNat]?
      let v := (((v ||| m0) + 1) &&& ~~~m0) ||| (v &&& m0)
      if v &&& (m0 ^^^ m1) = 0 then some (c, v)
      else do
        let (es, v) ← scanLarger t1 m0 m1 fuel v
        some (c ++ es, v)

/-- `dictScan`: the entries given to the callback, and the cursor of the next call. -/
def dictScan (d : Dict κ ν) (v : BitVec 64) : Option (List (DictEntry κ ν) × BitVec 64) :=
  if d.size = 0 then some ([], 0)
  else if !d.isRehashing then do
    let m0 := d.ht0.mask
    let c ← d.ht0.table[(v &&& m0).toNat]?
    some (c, rev (rev (v ||| ~~~m0) + 1))
  else do
    -- `t0` is the smaller table, `t1` the larger one
    let (t0, t1) := if d.ht0.size > d.ht1.size then (d.ht1, d.ht0) else (d.ht0, d.ht1)
    let m0 := t0.mask
    let m1 := t1.mask
    let c ← t0.table[(v &&& m0).toNat]?
    let (es, v) ← scanLarger t1 m0 m1 t1.size v
    some (c ++ es, rev (rev (v ||| ~~~m0) + 1))

/-! ## A scan under way -/

/-- A dictionary in use, and the calls of a scan made so far. -/
structure Scanning (κ ν : Type) where
  dict : Dict κ ν
  canResize : Bool
  cursor : BitVec 64
  /-- The keys given to the callback. -/
  emitted : List κ
  /-- Whether the cursor has come back as 0. -/
  done : Bool
  deriving DecidableEq

inductive ScanAct (κ ν : Type) where
  | scan
  | call (c : DictCall κ ν)

def ScanBegins (d : Dict κ ν) (canResize : Bool) (s : Scanning κ ν) : Prop :=
  s = ⟨d, canResize, 0, [], false⟩

/--
A call of `dictScan` with a cursor made for a table that the smaller one now is not more
than halved from.
-/
def cursorFits (d : Dict κ ν) (v : BitVec 64) : Prop :=
  d.isRehashing = true → v &&& (d.ht0.mask ^^^ d.ht1.mask) = 0 ∨
    d.ht0.size = 2 * d.ht1.size ∨ d.ht1.size = 2 * d.ht0.size

instance (d : Dict κ ν) (v : BitVec 64) : Decidable (cursorFits d v) :=
  inferInstanceAs (Decidable (_ → _))

/-- Calls that stay away from the largest tables there can be. -/
def DictCall.small : DictCall κ ν → Prop
  | .expand size => size < LONG_MAX
  | .empty => False
  | _ => True

instance (c : DictCall κ ν) : Decidable c.small :=
  match c with
  | .expand size => inferInstanceAs (Decidable (size < LONG_MAX))
  | .empty => inferInstanceAs (Decidable False)
  | .add _ _ | .replace _ _ | .delete _ | .find _ | .rehash _ | .resize | .enableResize
  | .disableResize => inferInstanceAs (Decidable True)

variable [DecidableEq κ]

/-- Steps that leave a key where it is, the scan being allowed what `fits` says. -/
def scanAllowed (fits : Dict κ ν → BitVec 64 → Prop) (k : κ) (s : Scanning κ ν) :
    ScanAct κ ν → Prop
  | .scan => s.done = false ∧ fits s.dict s.cursor
  | .call c => k ∉ c.deletes ∧ c.small ∧ s.dict.size * 2 < LONG_MAX

instance (fits : Dict κ ν → BitVec 64 → Prop) [∀ d v, Decidable (fits d v)] (k : κ)
    (s : Scanning κ ν) (a : ScanAct κ ν) : Decidable (scanAllowed fits k s a) :=
  match a with
  | .scan => inferInstanceAs (Decidable (s.done = false ∧ fits s.dict s.cursor))
  | .call c => inferInstanceAs (Decidable (k ∉ c.deletes ∧ c.small ∧ _))

def scanStep (hash : κ → UInt32) (s : Scanning κ ν) : ScanAct κ ν → Option (Scanning κ ν)
  | .scan => do
      let (es, v) ← dictScan s.dict s.cursor
      some { s with
        cursor := v, emitted := s.emitted ++ es.map Sigma.fst, done := decide (v = 0) }
  | .call c => do
      let (_, d, canResize) ← dictCall hash (s.dict, s.canResize) c
      some { s with dict := d, canResize := canResize }

end BetterEfisis.Redis

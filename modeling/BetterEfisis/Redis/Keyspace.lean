import BetterEfisis.Redis.Db
import BetterEfisis.Lib.Deadlines
import Mathlib.Data.Finset.Card
import Mathlib.Data.Finset.Dedup

/-!
# The key space a client sees

Here a key has a value and, maybe, a deadline, and every command but two sees the keys whose
deadlines have not passed, and no others (`live`). The two are `DEL` and `PERSIST`, which do
not look at deadlines: to them a key is there until something has removed it, as every
command may do with keys that are gone (`Purged`), and the cron with any whose deadline has
passed (`Sheds`). There are no tables.

`Answers` says what a command is answered, and what it makes of the keys `σ`, when the clock
goes from `t₀` to `t` while it is served. Where the source reads the clock more than once, the
answer may be that of a time in between.
-/

namespace BetterEfisis.Redis

open Lib (live Purged)

/-- To the look-ups a deadline below 0, which only a sum that wraps round can be, is none. -/
instance : Lib.Deadline Int Int where
  holds w t := decide (w < 0 ∨ t ≤ w)
  earlier h hw := by
    rw [decide_eq_true_eq] at hw ⊢
    omega

variable {π : Type}

/-- The values of the keys, and their deadlines. -/
abbrev Space (π : Type) := Lib.Timed Sds (Robj π) Int

/-- A value written, with the time it is to be there. -/
def written (t : Int) (key val : Sds) (ms : Option Int) (σ : Space π) : Space π :=
  Function.update σ key (some (.string val, ms.map fun ms => longLong (t + ms)))

/-- `SET` and its variants. -/
def SetAnswers (σ : Space π) (t₀ t : Int) (σ' : Space π) (r : Reply) (o : SetOptions)
    (key val : Sds) (okReply abortReply : Reply) : Prop :=
  match setMilliseconds o with
  | .error e => r = e ∧ σ' = σ
  | .ok ms =>
      (r = abortReply ∧ σ' = σ ∧
        (o.nx = true ∧ live t σ key ≠ none ∨ o.xx = true ∧ live t σ key = none)) ∨
      (r = okReply ∧ (o.nx = true → live t σ key = none) ∧
        (o.xx = true → live t₀ σ key ≠ none) ∧ σ' = written t key val ms σ)

/-- The deadline `EXPIRE` and its variants give a key, counted from `base`. -/
def deadline (u : ExpireUnit) (amount base : Int) : Int :=
  longLong ((if u.seconds then amount * 1000 else amount) + base)

/-- What is left of a deadline: -1 says that there is none. -/
def ttlAnswer (ms : Bool) (t : Int) (when : Option Int) : Reply :=
  if when.getD (-1) = -1 then .integer (-1)
  else ttlReply ms (max (longLong (when.getD (-1) - t)) 0)

/-- What a command is answered, and what it makes of the keys. -/
def Answers (σ : Space π) (t₀ t : Int) (σ' : Space π) (r : Reply) : Command → Prop
  | .get key => σ' = σ ∧ r = getReply ((live t σ key).map Prod.fst)
  | .set key val opts =>
      match setOptions opts ⟨false, false, none, false⟩ with
      | none => r = Reply.syntaxerr ∧ σ' = σ
      | some o => SetAnswers σ t₀ t σ' r o key val .ok .nullbulk
  | .setnx key val =>
      SetAnswers σ t₀ t σ' r ⟨true, false, none, false⟩ key val Reply.cone Reply.czero
  | .setex ms key expire val =>
      SetAnswers σ t₀ t σ' r ⟨false, false, some expire, ms⟩ key val .ok .nullbulk
  | .getset key val => ∃ t₁, t₀ ≤ t₁ ∧ t₁ ≤ t ∧ r = getReply ((live t₁ σ key).map Prod.fst) ∧
      σ' = if r = Reply.wrongtypeerr then σ else written t key val none σ
  -- whatever its deadline, a key counts that is still in the tables
  | .del keys => r = .integer (keys.toFinset.filter fun k => (σ k).isSome).card ∧
      σ' = fun k => if k ∈ keys then none else σ k
  | .exists key => σ' = σ ∧ r = if (live t σ key).isSome then Reply.cone else Reply.czero
  | .keys pattern => σ' = σ ∧ ∃ bulks, r = .multi bulks ∧ bulks.Nodup ∧
      (∀ k ∈ bulks, keyMatches pattern k = some true ∧ live t₀ σ k ≠ none) ∧
      ∀ k, live t σ k ≠ none → keyMatches pattern k = some true → k ∈ bulks
  | .expire u key param =>
      match getLongLongFromObject param with
      | none => r = Reply.notInteger ∧ σ' = σ
      | some amount =>
          (r = Reply.czero ∧ live t σ key = none ∧ σ' = σ) ∨
          (r = Reply.cone ∧ ∃ v e base, live t₀ σ key = some (v, e) ∧
            (if u.relative then t₀ ≤ base ∧ base ≤ t else base = 0) ∧
            σ' = Function.update σ key
              (if deadline u amount base ≤ t then none
                else some (v, some (deadline u amount base))))
  | .ttl ms key => σ' = σ ∧ ((r = .integer (-2) ∧ live t σ key = none) ∨
      ∃ v e, live t₀ σ key = some (v, e) ∧ r = ttlAnswer ms t e)
  -- here too a key past its deadline may still be found, and then it comes back
  | .persist key =>
      (r = Reply.czero ∧ σ' = σ ∧ ∀ v w, σ key ≠ some (v, some w)) ∨
      (r = Reply.cone ∧ ∃ v w, σ key = some (v, some w) ∧
        σ' = Function.update σ key (some (v, none)))
  | .rename nx key newkey =>
      (r = Reply.sameobjecterr ∧ key = newkey ∧ σ' = σ) ∨
      (r = Reply.nokeyerr ∧ key ≠ newkey ∧ live t σ key = none ∧ σ' = σ) ∨
      (r = Reply.czero ∧ nx = true ∧ key ≠ newkey ∧ live t σ newkey ≠ none ∧ σ' = σ) ∨
      (r = (if nx then Reply.cone else .ok) ∧ key ≠ newkey ∧
        (nx = true → live t σ newkey = none) ∧ ∃ v e, live t₀ σ key = some (v, e) ∧
        σ' = Function.update
          (Function.update σ newkey (some (v, e.filter fun w => decide (w ≠ -1)))) key none)
  | .flushdb => r = .ok ∧ σ' = fun _ => none

/-- Some keys less, whose deadlines have passed. The cron takes one below 0 for one of them. -/
def Sheds (t : Int) (σ σ' : Space π) : Prop :=
  ∀ k, σ' k = σ k ∨ σ' k = none ∧ ∃ v w, σ k = some (v, some w) ∧ w < t

/-- A run as a client sees it. -/
inductive Served : Space π → Int → List (List Nat × ServerEvent) → List (Option Reply) →
    Space π → Int → Prop where
  | nil (σ : Space π) (t : Int) : Served σ t [] [] σ t
  | command {σ σ₁ σ₂ σ₃ : Space π} {t t₁ t₂ : Int} {ticks : List Nat} {c : Command} {r : Reply}
      {events : List (List Nat × ServerEvent)} {replies : List (Option Reply)} :
      t ≤ t₁ → Answers σ t t₁ σ₁ r c → Purged t₁ σ₁ σ₂ → Served σ₂ t₁ events replies σ₃ t₂ →
      Served σ t ((ticks, .command c) :: events) (some r :: replies) σ₃ t₂
  | cron {σ σ₁ σ₂ : Space π} {t t₁ t₂ : Int} {ticks : List Nat} {e : ServerEvent}
      {events : List (List Nat × ServerEvent)} {replies : List (Option Reply)} :
      (∀ c, e ≠ .command c) → t ≤ t₁ → Sheds t₁ σ σ₁ → Served σ₁ t₁ events replies σ₂ t₂ →
      Served σ t ((ticks, e) :: events) (none :: replies) σ₂ t₂

/-- A pattern the matcher decides on the keys there are. -/
def Fitting (s : Server π) : ServerEvent → Prop
  | .command (.keys pattern) => ∀ k ∈ s.dict.entries.keys, (keyMatches pattern k).isSome = true
  | _ => True

/-- The same for all patterns of a run. -/
def Fits (hash : Sds → UInt32) : Server π → List (List Nat × ServerEvent) → Prop
  | _, [] => True
  | s, (ticks, e) :: events => Fitting s e ∧
      match serverStep hash s ticks e with
      | none => True
      | some (_, s') => Fits hash s' events

end BetterEfisis.Redis

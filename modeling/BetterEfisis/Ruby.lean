import Mathlib.Data.List.Basic

/-!
# What the modelled code uses of Ruby

Exceptions, blankness, the two string operations the models call, and the cast
of a string to an integer column.
-/

namespace BetterEfisis

/-- The exceptions the modelled code can raise by itself. -/
inductive RubyError where
  /-- A method called on `nil`. -/
  | noMethodError
  /-- `DateTime.parse` on a text that is not a date, and a text compared with a number. -/
  | argumentError
  /-- `DateTime.parse` on `nil`, and a sum of a text or a number with something else. -/
  | typeError
  /-- `raise "…"`. -/
  | runtimeError (message : String)
  /-- `find` on an id that is not stored. -/
  | recordNotFound
  /-- An insert that violates the primary key. -/
  | recordNotUnique
deriving DecidableEq, Repr

/-- `x!` of a value the code calls a method on: `nil` raises. -/
def notNil {α : Type} : Option α → Except RubyError α
  | some a => .ok a
  | none => .error .noMethodError

@[simp] theorem notNil_some {α : Type} (a : α) : notNil (some a) = .ok a := rfl

@[simp] theorem notNil_none {α : Type} : notNil (none : Option α) = .error .noMethodError := rfl

theorem notNil_eq_ok {α : Type} {x : Option α} {a : α} : notNil x = .ok a ↔ x = some a := by
  cases x with
  | none => simp
  | some b => simp

/-- `[[:space:]]`. -/
def isSpace (c : Char) : Bool :=
  let n := c.toNat
  (9 ≤ n && n ≤ 13) || n == 0x20 || n == 0x85 || n == 0xA0 || n == 0x1680
    || (0x2000 ≤ n && n ≤ 0x200A) || n == 0x2028 || n == 0x2029 || n == 0x202F
    || n == 0x205F || n == 0x3000

/-- `!value.blank?` of a string column: neither `nil` nor only white space. -/
def presentText : Option String → Bool
  | none => false
  | some s => !s.toList.all isSpace

/-- `String#downcase`, which changes ASCII letters only. -/
def downcase (s : String) : String := String.ofList (s.toList.map Char.toLower)

/-- The decimal digits in front of `cs`, read onto `n`. -/
def leadingNat (n : Nat) : List Char → Nat
  | [] => n
  | c :: cs => if c.isDigit then leadingNat (10 * n + (c.toNat - '0'.toNat)) cs else n

/-- `String#to_i`: the leading integer, and 0 where there is none. -/
def toI (s : String) : Int :=
  match s.toList.dropWhile isSpace with
  | '-' :: cs => -(leadingNat 0 cs : Int)
  | '+' :: cs => leadingNat 0 cs
  | cs => leadingNat 0 cs

theorem isSpace_toLower (c : Char) : isSpace c.toLower = isSpace c := by
  unfold Char.toLower
  split
  · rename_i h
    have h1 : 65 ≤ c.val.toNat := h.1
    have h2 : c.val.toNat ≤ 90 := h.2
    have hv : (c.val + ('a'.val - 'A'.val)).toNat = c.val.toNat + 32 := by
      rw [UInt32.toNat_add]
      show (c.val.toNat + 32) % 2 ^ 32 = c.val.toNat + 32
      omega
    simp only [isSpace, Char.toNat, hv]
    have e : ∀ m : Nat, (c.val.toNat + 32 == m) = decide (c.val.toNat + 32 = m) := fun _ => rfl
    have e' : ∀ m : Nat, (c.val.toNat == m) = decide (c.val.toNat = m) := fun _ => rfl
    simp only [e, e', ← Bool.decide_and, ← Bool.decide_or]
    congr 1
    rw [eq_iff_iff]
    omega
  · rfl

theorem toLower_toLower (c : Char) : c.toLower.toLower = c.toLower := by
  by_cases h : c.val ≥ 'A'.val ∧ c.val ≤ 'Z'.val
  · have h1 : 65 ≤ c.val.toNat := h.1
    have h2 : c.val.toNat ≤ 90 := h.2
    have hc : c.toLower.val.toNat = c.val.toNat + 32 := by
      unfold Char.toLower
      rw [dif_pos h]
      show (c.val + ('a'.val - 'A'.val)).toNat = c.val.toNat + 32
      rw [UInt32.toNat_add]
      show (c.val.toNat + 32) % 2 ^ 32 = c.val.toNat + 32
      omega
    have hnot : ¬ (c.toLower.val ≥ 'A'.val ∧ c.toLower.val ≤ 'Z'.val) := by
      intro h'
      have h3 : c.toLower.val.toNat ≤ 90 := h'.2
      omega
    conv_lhs => unfold Char.toLower
    exact dif_neg hnot
  · have hc : c.toLower = c := by
      unfold Char.toLower
      exact dif_neg h
    rw [hc, hc]

theorem downcase_downcase (s : String) : downcase (downcase s) = downcase s := by
  have hfun : Char.toLower ∘ Char.toLower = Char.toLower := funext toLower_toLower
  simp only [downcase, String.toList_ofList, List.map_map, hfun]

/-- Lower-casing a text leaves it as blank as it was. -/
theorem presentText_downcase (t : Option String) :
    presentText (t.map downcase) = presentText t := by
  cases t with
  | none => rfl
  | some s =>
      simp [presentText, downcase, List.all_map, Function.comp_def, isSpace_toLower]

example : toI "27130123" = 27130123 := by decide

end BetterEfisis

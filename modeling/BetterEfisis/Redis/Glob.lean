import Mathlib.Data.List.Infix

/-!
# Glob patterns (`stringmatchlen` of `util.c`)

`stringmatchlen` goes along a pattern and a string; at a `*` it tries the rest of the
pattern at every place of the rest of the string. The model is of the case-sensitive
match, which is the one `KEYS`, `SCAN` and the channel patterns use.

Over it is what a pattern means: `Reads` is the grammar of patterns, `Matches` says which
strings a sequence of tokens is matched by.
-/

namespace BetterEfisis.Redis

/-- A string of the server: bytes, with a 0 after the last. -/
abbrev Sds := List UInt8

/-- A byte as the `char` of the source, which has a sign. -/
def chr (b : UInt8) : Int := b.toInt8.toInt

/-- Whether `c` is in the range two characters of a class give, in either order. -/
def inRange (lo hi c : UInt8) : Bool :=
  decide (min (chr lo) (chr hi) ≤ chr c ∧ chr c ≤ max (chr lo) (chr hi))

/--
The loop over a class: whether `c` is in it, and the pattern after it. A class may go on
to the end of the pattern; with a backslash there the source reads past the end (`none`).
-/
def matchClass (c : UInt8) : Sds → Bool → Option (Bool × Sds)
  | [], m => some (m, [])
  | 92 :: [], _ => none
  | 92 :: b :: p, m => matchClass c p (m || decide (b = c))
  | 93 :: p, m => some (m, p)
  | lo :: 45 :: hi :: p, m => matchClass c p (m || inRange lo hi c)
  | b :: p, m => matchClass c p (m || decide (b = c))

/-- The loop of a `*`: the rest of the pattern tried at every place that has a character. -/
def anySuffix (k : Sds → Option Bool) : Sds → Option Bool
  | [] => some false
  | b :: s => do
      let found ← k (b :: s)
      if found then some true else anySuffix k s

/--
A character of the string passed, and `p` the pattern after it: with the string over, only
stars may follow. If the end of the string was taken for a character, its length is
negative from here on, and what the source then reads is not modelled (`none`).
-/
def passChar (k : Sds → Sds → Option Bool) (p : Sds) : Sds → Option Bool
  | [] => if p.isEmpty then some false else none
  | [_] => some (p.dropWhile fun b => b = 42).isEmpty
  | _ :: s => k p s

/-- The character a pattern begins with, and the pattern after it. -/
def literal (b : UInt8) (p : Sds) : UInt8 × Sds :=
  if b = 92 then
    match p with
    | [] => (92, [])
    | q :: p => (q, p)
  else (b, p)

/-- The rounds of `stringmatchlen`; a round takes a character of the pattern at least. -/
def stringmatchlen : Nat → Sds → Sds → Option Bool
  | 0, _, _ => none
  | _ + 1, [], s => some s.isEmpty
  | fuel + 1, b :: p, s =>
      if b = 42 then
        let p := p.dropWhile fun b => b = 42
        if p.isEmpty then some true else anySuffix (stringmatchlen fuel p) s
      else if b = 63 then
        if s.isEmpty then some false else passChar (stringmatchlen fuel) p s
      else if b = 91 then do
        let neg := decide (p.head? = some 94)
        let (m, p) ← matchClass (s.headD 0) (if neg then p.tail else p) false
        if m = neg then some false else passChar (stringmatchlen fuel) p s
      else
        let (c, p) := literal b p
        if c = s.headD 0 then passChar (stringmatchlen fuel) p s else some false

/-- `stringmatch`, with the lengths of its arguments. -/
def stringmatch (pattern string : Sds) : Option Bool :=
  stringmatchlen (pattern.length + 1) pattern string

/-! ## What a pattern means -/

/-- What a class lists. -/
inductive GlobItem where
  | one (b : UInt8)
  | range (lo hi : UInt8)

inductive GlobToken where
  | star
  | any
  | char (b : UInt8)
  | cls (neg : Bool) (items : List GlobItem)

def GlobItem.has (c : UInt8) : GlobItem → Bool
  | .one b => decide (b = c)
  | .range lo hi => inRange lo hi c

/-- Which strings match. -/
def Matches : List GlobToken → Sds → Prop
  | [], s => s = []
  | .star :: g, s => ∃ t, t <:+ s ∧ Matches g t
  | .any :: g, s => ∃ b t, s = b :: t ∧ Matches g t
  | .char c :: g, s => ∃ t, s = c :: t ∧ Matches g t
  | .cls neg items :: g, s => ∃ b t, s = b :: t ∧ items.any (GlobItem.has b) ≠ neg ∧ Matches g t

/-- How a class is written: what it lists up to its end, and the pattern after it. -/
inductive ReadsClass : Sds → List GlobItem → Sds → Prop where
  | unclosed : ReadsClass [] [] []
  | close (p : Sds) : ReadsClass (93 :: p) [] p
  | escaped {p rest : Sds} {items : List GlobItem} (b : UInt8) :
      ReadsClass p items rest → ReadsClass (92 :: b :: p) (.one b :: items) rest
  | range {p rest : Sds} {items : List GlobItem} {lo : UInt8} (hi : UInt8) :
      lo ≠ 92 → lo ≠ 93 → ReadsClass p items rest →
      ReadsClass (lo :: 45 :: hi :: p) (.range lo hi :: items) rest
  | one {p rest : Sds} {items : List GlobItem} {b : UInt8} :
      b ≠ 92 → b ≠ 93 → (∀ hi q, p ≠ 45 :: hi :: q) → ReadsClass p items rest →
      ReadsClass (b :: p) (.one b :: items) rest

/-- How a pattern is written. -/
inductive Reads : Sds → List GlobToken → Prop where
  | nil : Reads [] []
  | star {p : Sds} {g : List GlobToken} : Reads p g → Reads (42 :: p) (.star :: g)
  | any {p : Sds} {g : List GlobToken} : Reads p g → Reads (63 :: p) (.any :: g)
  | char {p : Sds} {g : List GlobToken} {b : UInt8} :
      b ≠ 42 → b ≠ 63 → b ≠ 91 → b ≠ 92 → Reads p g → Reads (b :: p) (.char b :: g)
  | escaped {p : Sds} {g : List GlobToken} (b : UInt8) :
      Reads p g → Reads (92 :: b :: p) (.char b :: g)
  | backslash : Reads [92] [.char 92]
  | cls {p rest : Sds} {g : List GlobToken} {items : List GlobItem} :
      p.head? ≠ some 94 → ReadsClass p items rest → Reads rest g →
      Reads (91 :: p) (.cls false items :: g)
  | notCls {p rest : Sds} {g : List GlobToken} {items : List GlobItem} :
      ReadsClass p items rest → Reads rest g → Reads (91 :: 94 :: p) (.cls true items :: g)

end BetterEfisis.Redis

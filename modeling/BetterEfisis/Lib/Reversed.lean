import Mathlib.Data.Nat.Bitwise
import Mathlib.Tactic.Ring

/-!
# Counting with the bits reversed

A word read from its highest bit down to its lowest has a place in the order of the
words so read (`place`). Two words agree in their lowest `n` bits if and only if their
places are in the same of the `2 ^ n` intervals of equal length (`low_eq_iff`), and to
count up with all but the lowest `n` bits set is to go on to the next interval
(`place_next`). So a count that looks at one class of words after the other, the classes
being those of the words that agree in their lowest bits, may change how many bits it
looks at from one step to the next and still leave nothing out (`seen_next`).
-/

namespace BetterEfisis.Lib

variable {w n : Nat} {v h : BitVec w}

/-- The mask of the lowest `n` bits. -/
def low (w n : Nat) : BitVec w := BitVec.ofNat w (2 ^ n - 1)

/-- The place of a word in the order of the reversed words. -/
def place (v : BitVec w) : Nat := v.reverse.toNat

/-- Count up with the bits reversed, the bits from `n` on being set. -/
def next (n : Nat) (v : BitVec w) : BitVec w := ((v ||| ~~~low w n).reverse + 1).reverse

theorem getLsbD_low (hn : n ≤ w) (i : Nat) : (low w n).getLsbD i = decide (i < n) := by
  rw [low, BitVec.getLsbD_ofNat, Nat.testBit_two_pow_sub_one]
  by_cases hi : i < n
  · simp [hi, lt_of_lt_of_le hi hn]
  · simp [hi]

theorem testBit_place (v : BitVec w) (i : Nat) : (place v).testBit i = v.getMsbD i := by
  rw [place, BitVec.testBit_toNat, BitVec.getLsbD_reverse]

theorem place_lt (v : BitVec w) : place v < 2 ^ w := v.reverse.isLt

theorem place_zero : place (0 : BitVec w) = 0 := by
  have hrev : (0 : BitVec w).reverse = 0 := BitVec.reverse_eq_zero_iff.mpr rfl
  rw [place, hrev]
  rfl

/-- The bits of an interval. -/
theorem testBit_interval (hn : n ≤ w) (v : BitVec w) (i : Nat) :
    (place v / 2 ^ (w - n)).testBit i = (decide (i < n) && v.getLsbD (n - 1 - i)) := by
  rw [Nat.testBit_div_two_pow, testBit_place, BitVec.getMsbD_eq_getLsbD]
  by_cases hi : i < n
  · rw [show w - 1 - (i + (w - n)) = n - 1 - i by omega]
    simp [hi, show i + (w - n) < w by omega]
  · simp [hi, show ¬ i + (w - n) < w by omega]

theorem low_eq_iff (hn : n ≤ w) :
    h &&& low w n = v &&& low w n ↔ place h / 2 ^ (w - n) = place v / 2 ^ (w - n) := by
  constructor
  · intro heq
    refine Nat.eq_of_testBit_eq fun i => ?_
    rw [testBit_interval hn, testBit_interval hn]
    by_cases hi : i < n
    · have := congrArg (fun x => BitVec.getLsbD x (n - 1 - i)) heq
      simp only [BitVec.getLsbD_and, getLsbD_low hn] at this
      simpa [show n - 1 - i < n by omega, hi] using this
    · simp [hi]
  · intro heq
    refine BitVec.eq_of_getLsbD_eq fun i hi => ?_
    rw [BitVec.getLsbD_and, BitVec.getLsbD_and, getLsbD_low hn]
    by_cases hin : i < n
    · have := congrArg (fun x => Nat.testBit x (n - 1 - i)) heq
      simp only [testBit_interval hn] at this
      simpa [hin, show n - 1 - i < n by omega, show n - 1 - (n - 1 - i) = i by omega] using this
    · simp [hin]

/-- With the bits from `n` on set, a word is the last of its interval. -/
theorem place_or_not_low (hn : n ≤ w) (v : BitVec w) :
    place (v ||| ~~~low w n) = 2 ^ (w - n) * (place v / 2 ^ (w - n)) + (2 ^ (w - n) - 1) := by
  refine Nat.eq_of_testBit_eq fun i => ?_
  rw [Nat.testBit_two_pow_mul_add _ (Nat.sub_lt (Nat.two_pow_pos _) Nat.one_pos), testBit_place,
    Nat.testBit_two_pow_sub_one, BitVec.getMsbD_eq_getLsbD]
  rw [BitVec.getLsbD_or, BitVec.getLsbD_not, getLsbD_low hn]
  by_cases hi : i < w - n
  · simp only [hi, if_true, show i < w by omega, show ¬ w - 1 - i < n by omega,
      show w - 1 - i < w by omega, decide_true, decide_false, Bool.not_false, Bool.and_true,
      Bool.or_true]
  · rw [if_neg hi, testBit_interval hn]
    by_cases hiw : i < w
    · simp only [hiw, show w - 1 - i < n by omega, show i - (w - n) < n by omega,
        show n - 1 - (i - (w - n)) = w - 1 - i by omega, decide_true, Bool.not_true,
        Bool.and_false, Bool.or_false]
    · simp only [hiw, show ¬ i - (w - n) < n by omega, decide_false, Bool.false_and]

/-- **On to the next interval**, and from the last one back to the first. -/
theorem place_next (hn : n ≤ w) (v : BitVec w) :
    place (next n v) = 2 ^ (w - n) * (place v / 2 ^ (w - n) + 1) % 2 ^ w := by
  have hpos := Nat.two_pow_pos (w - n)
  have hor := place_or_not_low hn v
  rw [place] at hor
  have hone : (1 : BitVec w).toNat = 1 % 2 ^ w := BitVec.toNat_ofNat 1 w
  rw [place, next, BitVec.reverse_reverse_eq, BitVec.toNat_add, hor, hone, Nat.add_mod_mod,
    Nat.mul_add_one]
  congr 1
  omega

/--
**A step of the count.** What is left behind when the count goes on, or comes to its end,
are the words left behind before and those of the class looked at.
-/
theorem seen_next (hn : n ≤ w) (hh : next n v = 0 ∨ place h < place (next n v)) :
    place h < place v ∨ h &&& low w n = v &&& low w n := by
  have hpos := Nat.two_pow_pos (w - n)
  have hw : 2 ^ w = 2 ^ (w - n) * 2 ^ n := by rw [← Nat.pow_add]; congr 1; omega
  have hq : place v / 2 ^ (w - n) < 2 ^ n := by
    rw [Nat.div_lt_iff_lt_mul hpos, Nat.mul_comm, ← hw]
    exact place_lt v
  -- no interval after that of `v` is left behind
  have hle : place h / 2 ^ (w - n) ≤ place v / 2 ^ (w - n) := by
    have hnext := place_next hn v
    by_cases hlast : place v / 2 ^ (w - n) + 1 = 2 ^ n
    · have : place h / 2 ^ (w - n) < 2 ^ n := by
        rw [Nat.div_lt_iff_lt_mul hpos, Nat.mul_comm, ← hw]
        exact place_lt h
      omega
    · have hlt : 2 ^ (w - n) * (place v / 2 ^ (w - n) + 1) < 2 ^ w := by
        rw [hw]
        exact Nat.mul_lt_mul_of_pos_left (by omega) hpos
      rw [Nat.mod_eq_of_lt hlt] at hnext
      rcases hh with hzero | hlt'
      · rw [hzero] at hnext
        rw [place_zero] at hnext
        exact absurd hnext (Nat.ne_of_lt (Nat.mul_pos hpos (Nat.succ_pos _)))
      · rw [hnext, Nat.mul_comm, ← Nat.div_lt_iff_lt_mul hpos] at hlt'
        omega
  rcases Nat.lt_or_eq_of_le hle with hlt | heq
  · left
    by_contra hge
    exact absurd (Nat.div_le_div_right (Nat.le_of_not_lt hge)) (Nat.not_le.mpr hlt)
  · exact Or.inr ((low_eq_iff hn).mpr heq)

/-! ## The classes of a finer mask within one of a coarser -/

/-- Count up in the bits from `n` on. -/
def above (n : Nat) (v : BitVec w) : BitVec w :=
  (((v ||| low w n) + 1) &&& ~~~low w n) ||| (v &&& low w n)

theorem toNat_low (hn : n ≤ w) : (low w n).toNat = 2 ^ n - 1 := by
  rw [low, BitVec.toNat_ofNat, Nat.mod_eq_of_lt]
  have := Nat.pow_le_pow_right (by decide : 0 < 2) hn
  have := Nat.two_pow_pos n
  omega

theorem toNat_and_low (hn : n ≤ w) (v : BitVec w) : (v &&& low w n).toNat = v.toNat % 2 ^ n := by
  rw [BitVec.toNat_and, toNat_low hn, Nat.and_two_pow_sub_one_eq_mod]

/-- Counting up leaves the lowest bits alone. -/
theorem above_and_low (v : BitVec w) : above n v &&& low w n = v &&& low w n := by
  refine BitVec.eq_of_getLsbD_eq fun i hi => ?_
  simp only [above, BitVec.getLsbD_and, BitVec.getLsbD_or, BitVec.getLsbD_not]
  cases (low w n).getLsbD i <;> simp

/-- Counting up, of the bits from `n` on. -/
theorem above_div (hn : n ≤ w) (v : BitVec w) :
    (above n v).toNat / 2 ^ n = (v.toNat / 2 ^ n + 1) % 2 ^ (w - n) := by
  have hpos := Nat.two_pow_pos n
  have hw : 2 ^ w = 2 ^ n * 2 ^ (w - n) := by rw [← Nat.pow_add]; congr 1; omega
  have hor : (v ||| low w n).toNat = 2 ^ n * (v.toNat / 2 ^ n) + (2 ^ n - 1) := by
    refine Nat.eq_of_testBit_eq fun i => ?_
    rw [Nat.testBit_two_pow_mul_add _ (Nat.sub_lt hpos Nat.one_pos), BitVec.testBit_toNat,
      BitVec.getLsbD_or, getLsbD_low hn, Nat.testBit_two_pow_sub_one, Nat.testBit_div_two_pow,
      BitVec.testBit_toNat]
    by_cases hi : i < n
    · simp [hi]
    · rw [if_neg hi, Nat.sub_add_cancel (by omega)]
      simp [hi]
  have hsum : (v ||| low w n).toNat + 1 = 2 ^ n * (v.toNat / 2 ^ n + 1) := by
    rw [hor, Nat.mul_add_one]
    omega
  have hx : ((v ||| low w n) + 1).toNat = 2 ^ n * ((v.toNat / 2 ^ n + 1) % 2 ^ (w - n)) := by
    have hone : (1 : BitVec w).toNat = 1 % 2 ^ w := BitVec.toNat_ofNat 1 w
    rw [BitVec.toNat_add, hone, Nat.add_mod_mod, hsum, hw, Nat.mul_mod_mul_left]
  rw [← Nat.mul_div_cancel_left ((v.toNat / 2 ^ n + 1) % 2 ^ (w - n)) hpos, ← hx]
  refine Nat.eq_of_testBit_eq fun i => ?_
  rw [Nat.testBit_div_two_pow, Nat.testBit_div_two_pow, BitVec.testBit_toNat,
    BitVec.testBit_toNat, above]
  by_cases hi : i + n < w
  · simp only [BitVec.getLsbD_or, BitVec.getLsbD_and, BitVec.getLsbD_not, getLsbD_low hn, hi,
      show ¬ i + n < n by omega, decide_true, decide_false, Bool.not_false, Bool.and_true,
      Bool.and_false, Bool.or_false]
  · rw [BitVec.getLsbD_of_ge _ _ (by omega), BitVec.getLsbD_of_ge _ _ (by omega)]

/-- The bits from `n` to `m` are those of the remainder above `n`. -/
theorem between_eq_zero {m : Nat} (hnm : n ≤ m) (hm : m ≤ w) (v : BitVec w) :
    v &&& (low w n ^^^ low w m) = 0 ↔ v.toNat / 2 ^ n % 2 ^ (m - n) = 0 := by
  have hbits : ∀ i, (v.toNat / 2 ^ n % 2 ^ (m - n)).testBit i =
      (decide (i < m - n) && v.getLsbD (i + n)) := by
    intro i
    rw [Nat.testBit_mod_two_pow, Nat.testBit_div_two_pow, BitVec.testBit_toNat]
  constructor
  · intro h
    refine Nat.eq_of_testBit_eq fun i => ?_
    rw [hbits, Nat.zero_testBit]
    by_cases hi : i < m - n
    · have := congrArg (fun x => BitVec.getLsbD x (i + n)) h
      simp only [BitVec.getLsbD_and, BitVec.getLsbD_xor, getLsbD_low (Nat.le_trans hnm hm),
        getLsbD_low hm] at this
      simpa [show ¬ i + n < n by omega, show i + n < m by omega, hi] using this
    · simp [hi]
  · intro h
    refine BitVec.eq_of_getLsbD_eq fun i hi => ?_
    simp only [BitVec.getLsbD_and, BitVec.getLsbD_xor, getLsbD_low (Nat.le_trans hnm hm),
      getLsbD_low hm]
    by_cases him : i < n
    · simp [him, show i < m by omega]
    · by_cases him' : i < m
      · have := hbits (i - n)
        rw [h, Nat.zero_testBit, Nat.sub_add_cancel (by omega)] at this
        simpa [him, him', show i - n < m - n by omega] using this.symm
      · simp [him, him']

/-- One bit more: of two words of a class, the one without the bit comes first. -/
theorem place_lt_of_bit (hn : n < w) (heq : h &&& low w n = v &&& low w n)
    (hh : h.getLsbD n = false) (hv : v.getLsbD n = true) : place h < place v := by
  have hdiv := (low_eq_iff (Nat.le_of_lt hn)).mp heq
  have hpow : 2 ^ (w - n) = 2 ^ (w - (n + 1)) * 2 := by
    rw [← Nat.pow_succ]
    congr 1
    omega
  rw [hpow, ← Nat.div_div_eq_div_mul, ← Nat.div_div_eq_div_mul] at hdiv
  have hbit : ∀ x : BitVec w, (place x / 2 ^ (w - (n + 1)) % 2 = 1) ↔ x.getLsbD n = true := by
    intro x
    have := testBit_interval (Nat.succ_le_of_lt hn) x 0
    rw [Nat.testBit_zero] at this
    simpa using congrArg (· = true) this
  have h0 : ¬ place h / 2 ^ (w - (n + 1)) % 2 = 1 := by rw [hbit h, hh]; simp
  have h1 := (hbit v).mpr hv
  by_contra hge
  have := Nat.div_le_div_right (c := 2 ^ (w - (n + 1))) (Nat.le_of_not_lt hge)
  omega

end BetterEfisis.Lib

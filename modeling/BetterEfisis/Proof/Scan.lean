import BetterEfisis.Proof.Iterator
import BetterEfisis.Lib.Reversed
import BetterEfisis.Redis.Scan

/-!
# What a scan is sure to return

The cursor of a scan stands for a place in the order of the reversed hashes, and what is
before it has been returned (`ScanInv`). A call on one table looks at the whole class of
the cursor, whatever table the cursor was made for. A call on two tables goes through the
larger one from the cursor on and not from the beginning of the class, so it returns the
whole class only where the cursor has none of the bits that the larger table has and the
smaller one does not (`dictScan_spec`), or one bit that puts what is skipped behind it.

A table that shrinks to a quarter while a scan is under way breaks that, and keys that
were there all the time are not returned (`scan_misses`).
-/

namespace BetterEfisis.Redis

variable {κ ν : Type} {hash : κ → UInt32} {d d' : Dict κ ν} {t t' : Dictht κ ν}

/-! ## Reversing the bits -/

theorem swap_bits {mask v : BitVec 64} {s : Nat}
    (hmask : ∀ i < 64, mask.getLsbD i = decide (i &&& s = 0))
    (hs : ∀ i < 64, (i &&& s = 0 → i ^^^ s = s + i) ∧ (i &&& s ≠ 0 → s ≤ i ∧ i ^^^ s = i - s))
    {i : Nat} (hi : i < 64) :
    (((v >>> s) &&& mask) ||| ((v <<< s) &&& ~~~mask)).getLsbD i = v.getLsbD (i ^^^ s) := by
  rw [BitVec.getLsbD_or, BitVec.getLsbD_and, BitVec.getLsbD_and, BitVec.getLsbD_not,
    hmask i hi, BitVec.getLsbD_ushiftRight, BitVec.getLsbD_shiftLeft]
  by_cases h0 : i &&& s = 0
  · simp [h0, hi, (hs i hi).1 h0]
  · obtain ⟨hle, heq⟩ := (hs i hi).2 h0
    simp [h0, hi, heq, hle]

theorem revStep_bits {x : BitVec 64 × BitVec 64} {m d : BitVec 64} {s i : Nat} (hm : x.1 = m)
    (hd : m ^^^ (m <<< s) = d) (hmask : ∀ i < 64, d.getLsbD i = decide (i &&& s = 0))
    (hs : ∀ i < 64, (i &&& s = 0 → i ^^^ s = s + i) ∧ (i &&& s ≠ 0 → s ≤ i ∧ i ^^^ s = i - s))
    (hi : i < 64) :
    (revStep x s).1 = d ∧ (revStep x s).2.getLsbD i = x.2.getLsbD (i ^^^ s) := by
  subst hm hd
  exact ⟨rfl, swap_bits hmask hs hi⟩

/-- Each round exchanges the bits whose places differ in one bit: together they reverse the word. -/
theorem rev_eq (v : BitVec 64) : rev v = v.reverse := by
  refine BitVec.eq_of_getLsbD_eq fun i hi => ?_
  have hx : ∀ {j s : Nat}, j < 64 → s < 64 → j ^^^ s < 64 := by
    intro j s hj hs
    exact Nat.xor_lt_two_pow (n := 6) hj hs
  have h1 := hx hi (by decide : 1 < 64)
  have h2 := hx h1 (by decide : 2 < 64)
  have h4 := hx h2 (by decide : 4 < 64)
  have h8 := hx h4 (by decide : 8 < 64)
  have h16 := hx h8 (by decide : 16 < 64)
  have r32 := revStep_bits (x := (~~~0, v)) (m := ~~~0) (d := 0x00000000ffffffff) (s := 32) rfl
    (by decide) (by decide) (by decide) h16
  have r16 := revStep_bits (d := 0x0000ffff0000ffff) (s := 16) r32.1
    (by decide) (by decide) (by decide) h8
  have r8 := revStep_bits (d := 0x00ff00ff00ff00ff) (s := 8) r16.1
    (by decide) (by decide) (by decide) h4
  have r4 := revStep_bits (d := 0x0f0f0f0f0f0f0f0f) (s := 4) r8.1
    (by decide) (by decide) (by decide) h2
  have r2 := revStep_bits (d := 0x3333333333333333) (s := 2) r4.1
    (by decide) (by decide) (by decide) h1
  have r1 := revStep_bits (d := 0x5555555555555555) (s := 1) r2.1
    (by decide) (by decide) (by decide) hi
  have hmirror : ∀ i < 64, i ^^^ 1 ^^^ 2 ^^^ 4 ^^^ 8 ^^^ 16 ^^^ 32 = 63 - i := by decide
  rw [BitVec.getLsbD_reverse, BitVec.getMsbD_eq_getLsbD]
  calc (rev v).getLsbD i = v.getLsbD (i ^^^ 1 ^^^ 2 ^^^ 4 ^^^ 8 ^^^ 16 ^^^ 32) :=
        r1.2.trans (r2.2.trans (r4.2.trans (r8.2.trans (r16.2.trans r32.2))))
    _ = (decide (i < 64) && v.getLsbD (64 - 1 - i)) := by rw [hmirror i hi]; simp [hi]

/-! ## Tables of a power of two -/

/-- The hash of a key, as the word a cursor is. -/
def word (hash : κ → UInt32) (key : κ) : BitVec 64 := BitVec.ofNat 64 (hash key).toNat

/-- A table with as many buckets as a mask of its own can tell apart. -/
def Sized (n : Nat) (t : Dictht κ ν) : Prop := n ≤ 63 ∧ t.size = 2 ^ n

theorem Sized.le {n : Nat} (h : Sized n t) : n ≤ 64 := Nat.le_succ_of_le h.1

theorem Sized.mask {n : Nat} (h : Sized n t) : t.mask = Lib.low 64 n := by
  rw [Dictht.mask, Dictht.sizemask, h.2, Lib.low]

/-- The bucket a cursor is at. -/
theorem Sized.bucket {n : Nat} (h : Sized n t) (v : BitVec 64) :
    ∃ c, t.table[(v &&& Lib.low 64 n).toNat]? = some c := by
  refine ⟨_, List.getElem?_eq_getElem ?_⟩
  rw [Lib.toNat_and_low h.le]
  show _ < t.size
  rw [h.2]
  exact Nat.mod_lt _ (Nat.two_pow_pos n)

theorem Sized.index {n : Nat} (h : Sized n t) (key : κ) :
    t.index hash key = (word hash key &&& Lib.low 64 n).toNat := by
  have hword : (hash key).toNat % 2 ^ 64 = (hash key).toNat :=
    Nat.mod_eq_of_lt (Nat.lt_trans (hash key).toNat_lt (by decide : 2 ^ 32 < 2 ^ 64))
  rw [Lib.toNat_and_low h.le, word, BitVec.toNat_ofNat, hword, Dictht.index, Dictht.sizemask,
    h.2, Nat.and_two_pow_sub_one_eq_mod]

/-- A key of the table is in the bucket of every cursor of its class. -/
theorem Sized.returned {n : Nat} (h : Sized n t) (hok : TableOk hash t) {key : κ} {v : BitVec 64}
    {c : List (DictEntry κ ν)} (hc : t.table[(v &&& Lib.low 64 n).toNat]? = some c)
    (hk : key ∈ t.table.flatten.keys)
    (hclass : word hash key &&& Lib.low 64 n = v &&& Lib.low 64 n) : key ∈ c.keys := by
  have hindex : t.index hash key = (word hash key &&& Lib.low 64 n).toNat := h.index key
  rw [← hclass, ← hindex] at hc
  exact (hok.filed.mem_keys hc).mp hk

/-- A finer class is that of the coarser mask and of the bits between the two. -/
theorem low_eq_of_between {n m : Nat} (hnm : n ≤ m) (hm : m ≤ 64) {x v : BitVec 64}
    (hlow : x &&& Lib.low 64 n = v &&& Lib.low 64 n)
    (hmid : x.toNat / 2 ^ n % 2 ^ (m - n) = v.toNat / 2 ^ n % 2 ^ (m - n)) :
    x &&& Lib.low 64 m = v &&& Lib.low 64 m := by
  refine BitVec.eq_of_toNat_eq ?_
  have hn := congrArg BitVec.toNat hlow
  rw [Lib.toNat_and_low (Nat.le_trans hnm hm), Lib.toNat_and_low (Nat.le_trans hnm hm)] at hn
  rw [Lib.toNat_and_low hm, Lib.toNat_and_low hm, show 2 ^ m = 2 ^ n * 2 ^ (m - n) by
    rw [← Nat.pow_add]; congr 1; omega, Nat.mod_mul, Nat.mod_mul, hn, hmid]

/-- The bits of `v` between the masks of the two tables. -/
def between (n m : Nat) (v : BitVec 64) : Nat := v.toNat / 2 ^ n % 2 ^ (m - n)

/--
The loop over the larger table ends, keeps the class of the smaller one, and returns what
is in the buckets from that of the cursor on.
-/
theorem scanLarger_spec {n m : Nat} (hs : Sized m t) (hok : TableOk hash t) (hnm : n ≤ m) :
    ∀ (fuel : Nat) (v : BitVec 64), 2 ^ (m - n) ≤ fuel + between n m v →
      ∃ es v', scanLarger t (Lib.low 64 n) (Lib.low 64 m) fuel v = some (es, v') ∧
        v' &&& Lib.low 64 n = v &&& Lib.low 64 n ∧
        ∀ key ∈ t.table.flatten.keys,
          word hash key &&& Lib.low 64 n = v &&& Lib.low 64 n →
          between n m v ≤ between n m (word hash key) → key ∈ es.map Sigma.fst := by
  have hm : m ≤ 64 := hs.le
  have hpos := Nat.two_pow_pos (m - n)
  intro fuel
  induction fuel with
  | zero =>
      intro v hfuel
      have : between n m v < 2 ^ (m - n) := Nat.mod_lt _ hpos
      omega
  | succ fuel ih =>
      intro v hfuel
      obtain ⟨c, hc⟩ := hs.bucket v
      have hlt : between n m v < 2 ^ (m - n) := Nat.mod_lt _ hpos
      -- the bits between the masks, counted up
      have hnext : between n m (Lib.above n v) = (between n m v + 1) % 2 ^ (m - n) := by
        have hdvd : 2 ^ (m - n) ∣ 2 ^ (64 - n) := Nat.pow_dvd_pow 2 (by omega)
        rw [between, Lib.above_div (Nat.le_trans hnm hm), Nat.mod_mod_of_dvd _ hdvd, between,
          Nat.mod_add_mod]
      have hclass := Lib.above_and_low (n := n) v
      have hhere : ∀ key ∈ t.table.flatten.keys,
          word hash key &&& Lib.low 64 n = v &&& Lib.low 64 n →
          between n m (word hash key) = between n m v → key ∈ c.keys := by
        intro key hk hlow hmid
        exact hs.returned hok hc hk (low_eq_of_between hnm hm hlow hmid)
      simp only [scanLarger, hc, Option.bind_eq_bind, Option.bind_some]
      by_cases hstop : Lib.above n v &&& (Lib.low 64 n ^^^ Lib.low 64 m) = 0
      · refine ⟨c, Lib.above n v, if_pos hstop, hclass, fun key hk hlow hle => ?_⟩
        -- it was the last of the class
        rw [Lib.between_eq_zero hnm hm] at hstop
        rw [between] at hnext
        have hlast : between n m v + 1 = 2 ^ (m - n) := by
          by_contra hne
          rw [hstop, Nat.mod_eq_of_lt (by omega)] at hnext
          omega
        have : between n m (word hash key) < 2 ^ (m - n) := Nat.mod_lt _ hpos
        exact hhere key hk hlow (by omega)
      · have hmore : between n m (Lib.above n v) = between n m v + 1 := by
          rw [Lib.between_eq_zero hnm hm] at hstop
          rw [hnext, Nat.mod_eq_of_lt]
          by_contra hge
          have hlast : between n m v + 1 = 2 ^ (m - n) := by omega
          rw [hlast, Nat.mod_self] at hnext
          exact hstop hnext
        obtain ⟨es, v', hrec, hlow', hall⟩ := ih (Lib.above n v) (by omega)
        refine ⟨c ++ es, v', ?_, hlow'.trans hclass, fun key hk hlow hle => ?_⟩
        · rw [show (((v ||| Lib.low 64 n) + 1) &&& ~~~Lib.low 64 n) ||| (v &&& Lib.low 64 n) =
            Lib.above n v from rfl, if_neg hstop, hrec]
          rfl
        · rw [List.map_append, List.mem_append]
          by_cases heq : between n m (word hash key) = between n m v
          · exact Or.inl (hhere key hk hlow heq)
          · exact Or.inr (hall key hk (hlow.trans hclass.symm) (by omega))

/-! ## One call -/

/-- Both tables are of a power of two, where there are any. -/
structure SizedDict (d : Dict κ ν) : Prop where
  first : d.ht0.size ≠ 0 → ∃ n, Sized n d.ht0
  second : d.ht1.size ≠ 0 → ∃ n, Sized n d.ht1

/-- The cursor that a call returns is that of the class it looked at. -/
theorem next_class {n : Nat} {v v' : BitVec 64}
    (h : v' &&& Lib.low 64 n = v &&& Lib.low 64 n) :
    rev (rev (v' ||| ~~~Lib.low 64 n) + 1) = Lib.next n v := by
  have hor : v' ||| ~~~Lib.low 64 n = v ||| ~~~Lib.low 64 n := by
    refine BitVec.eq_of_getLsbD_eq fun i hi => ?_
    have := congrArg (fun x => BitVec.getLsbD x i) h
    simp only [BitVec.getLsbD_and] at this
    rw [BitVec.getLsbD_or, BitVec.getLsbD_or, BitVec.getLsbD_not]
    cases hb : (Lib.low 64 n).getLsbD i <;> simp_all
  rw [rev_eq, rev_eq, hor]
  rfl

/-- A call on a larger and a smaller table returns the keys of the class that it does not skip. -/
theorem scan_two {n m : Nat} {t0 t1 : Dictht κ ν} (h0 : Sized n t0) (h1 : Sized m t1)
    (hok0 : TableOk hash t0) (hok1 : TableOk hash t1) (hnm : n ≤ m) (v : BitVec 64) :
    ∃ c es v', t0.table[(v &&& t0.mask).toNat]? = some c ∧
      scanLarger t1 t0.mask t1.mask t1.size v = some (es, v') ∧
      rev (rev (v' ||| ~~~t0.mask) + 1) = Lib.next n v ∧
      ∀ key, key ∈ t0.table.flatten.keys ∨ key ∈ t1.table.flatten.keys →
        word hash key &&& Lib.low 64 n = v &&& Lib.low 64 n →
        between n m v ≤ between n m (word hash key) ∨ key ∈ t0.table.flatten.keys →
        key ∈ (c ++ es).map Sigma.fst := by
  obtain ⟨c, hc⟩ := h0.bucket v
  have hfuel : 2 ^ (m - n) ≤ t1.size + between n m v := by
    rw [h1.2]
    exact Nat.le_add_right_of_le (Nat.pow_le_pow_right (by decide) (Nat.sub_le m n))
  obtain ⟨es, v', hlarger, hlow, hall⟩ := scanLarger_spec h1 hok1 hnm t1.size v hfuel
  refine ⟨c, es, v', by rw [h0.mask, hc], by rw [h0.mask, h1.mask, hlarger],
    by rw [h0.mask]; exact next_class hlow, fun key hk hclass hle => ?_⟩
  rw [List.map_append, List.mem_append]
  by_cases hk0 : key ∈ t0.table.flatten.keys
  · exact Or.inl (h0.returned hok0 hc hk0 hclass)
  · exact Or.inr (hall key (hk.resolve_left hk0) hclass (hle.resolve_right hk0))

/-- What a call skips was behind the cursor already, where the cursor fits. -/
theorem skipped_behind {n m : Nat} (hnm : n ≤ m) (hm : m ≤ 63) {v x : BitVec 64}
    (hfits : v &&& (Lib.low 64 n ^^^ Lib.low 64 m) = 0 ∨ m ≤ n + 1)
    (hclass : x &&& Lib.low 64 n = v &&& Lib.low 64 n) :
    between n m v ≤ between n m x ∨ Lib.place x < Lib.place v := by
  rcases hfits with hzero | hone
  · rw [Lib.between_eq_zero hnm (Nat.le_succ_of_le hm)] at hzero
    exact Or.inl (by rw [between, hzero]; exact Nat.zero_le _)
  · by_cases hle : between n m v ≤ between n m x
    · exact Or.inl hle
    · -- one bit more, which the cursor has and the key does not
      right
      have hbound : between n m v < 2 ^ (m - n) := Nat.mod_lt _ (Nat.two_pow_pos _)
      obtain rfl : m = n + 1 := by
        by_contra hne
        rw [show m - n = 0 by omega] at hbound
        omega
      have hbit : ∀ y : BitVec 64, between n (n + 1) y = (y.getLsbD n).toNat := by
        intro y
        rw [between, Nat.add_sub_cancel_left, Nat.pow_one, ← BitVec.testBit_toNat,
          Nat.testBit_eq_decide_div_mod_eq]
        have := Nat.mod_lt (y.toNat / 2 ^ n) (by decide : 0 < 2)
        by_cases h1 : y.toNat / 2 ^ n % 2 = 1
        · simp [h1]
        · have h0 : y.toNat / 2 ^ n % 2 = 0 := by omega
          simp [h0]
      rw [hbit, hbit] at hle
      cases hx : x.getLsbD n <;> cases hv : v.getLsbD n <;> simp [hx, hv] at hle
      exact Lib.place_lt_of_bit (by omega) hclass hx hv

/-- **A call of a scan.** What is behind the cursor it returns was behind the one it was given,
or is returned. -/
theorem dictScan_spec (h : DictOk hash d) (hs : SizedDict d) {v : BitVec 64}
    (hfits : cursorFits d v) {key : κ} (hk : key ∈ d.entries.keys) :
    ∃ es v', dictScan d v = some (es, v') ∧
      (v' = 0 ∨ Lib.place (word hash key) < Lib.place v' →
        Lib.place (word hash key) < Lib.place v ∨ key ∈ es.map Sigma.fst) := by
  have hsize : d.size ≠ 0 := by
    rw [Dict.size, h.first.used, h.second.used, ← List.length_append]
    intro hzero
    rw [Dict.entries, List.length_eq_zero_iff.mp hzero] at hk
    simp at hk
  have hmem := mem_entries.mp hk
  unfold dictScan
  rw [if_neg hsize]
  cases hr : d.isRehashing with
  | false =>
      rw [h.one_table hr] at hmem
      have hk0 := hmem.resolve_right (by simp)
      have hne : d.ht0.size ≠ 0 := by
        intro hzero
        rw [h.empty hzero] at hk
        simp at hk
      obtain ⟨n, hn⟩ := hs.first hne
      obtain ⟨c, hc⟩ := hn.bucket v
      rw [hn.mask]
      refine ⟨c, Lib.next n v, ?_, fun hseen => ?_⟩
      · simp only [Bool.not_false, if_true, hc, Option.bind_eq_bind, Option.bind_some,
          next_class (n := n) (v := v) rfl]
      · rcases Lib.seen_next hn.le hseen with hbehind | hclass
        · exact Or.inl hbehind
        · exact Or.inr (hn.returned h.first hc hk0 hclass)
  | true =>
      obtain ⟨hpos0, hpos1⟩ := h.rehashing hr
      obtain ⟨n, hn⟩ := hs.first (by omega)
      obtain ⟨m, hm⟩ := hs.second (by omega)
      have hfits' := hfits hr
      rw [hn.mask, hm.mask, hn.2, hm.2] at hfits'
      have hdouble : ∀ {a b : Nat}, 2 ^ a = 2 * 2 ^ b → a = b + 1 := by
        intro a b hab
        rw [Nat.mul_comm, ← Nat.pow_succ] at hab
        exact Nat.pow_right_injective (le_refl 2) hab
      by_cases hgt : d.ht0.size > d.ht1.size
      · have hmn : m ≤ n := by
          by_contra hlt
          have := Nat.pow_le_pow_right (by decide : 0 < 2) (Nat.le_of_lt (Nat.lt_of_not_le hlt))
          rw [hn.2, hm.2] at hgt
          omega
        obtain ⟨c, es, v', hc, hlarger, hnext, hall⟩ :=
          scan_two hm hn h.second h.first hmn v
        refine ⟨c ++ es, Lib.next m v, ?_, fun hseen => ?_⟩
        · simp only [Bool.not_true, Bool.false_eq_true, if_false, if_pos hgt, hc, hlarger,
            hnext, Option.bind_eq_bind, Option.bind_some]
        · rcases Lib.seen_next hm.le hseen with hbehind | hclass
          · exact Or.inl hbehind
          · have hf : v &&& (Lib.low 64 m ^^^ Lib.low 64 n) = 0 ∨ n ≤ m + 1 := by
              rcases hfits' with hzero | hd | hd
              · exact Or.inl (by rw [BitVec.xor_comm]; exact hzero)
              · have := hdouble hd
                exact Or.inr (by omega)
              · have := hdouble hd
                exact Or.inr (by omega)
            rcases skipped_behind hmn hn.1 hf hclass with hle | hbehind
            · exact Or.inr (hall key hmem.symm hclass (Or.inl hle))
            · exact Or.inl hbehind
      · have hnm : n ≤ m := by
          by_contra hlt
          have := Nat.pow_lt_pow_right (by decide : 1 < 2) (Nat.lt_of_not_le hlt)
          rw [hn.2, hm.2] at hgt
          omega
        obtain ⟨c, es, v', hc, hlarger, hnext, hall⟩ :=
          scan_two hn hm h.first h.second hnm v
        refine ⟨c ++ es, Lib.next n v, ?_, fun hseen => ?_⟩
        · simp only [Bool.not_true, Bool.false_eq_true, if_false, if_neg hgt, hc, hlarger,
            hnext, Option.bind_eq_bind, Option.bind_some]
        · rcases Lib.seen_next hn.le hseen with hbehind | hclass
          · exact Or.inl hbehind
          · have hf : v &&& (Lib.low 64 n ^^^ Lib.low 64 m) = 0 ∨ m ≤ n + 1 := by
              rcases hfits' with hzero | hd | hd
              · exact Or.inl hzero
              · have := hdouble hd
                exact Or.inr (by omega)
              · have := hdouble hd
                exact Or.inr (by omega)
            rcases skipped_behind hnm hm.1 hf hclass with hle | hbehind
            · exact Or.inr (hall key hmem hclass (Or.inl hle))
            · exact Or.inl hbehind

/-! ## The sizes of the tables -/

theorem SizedDict.of_sizes (h : SizedDict d) (h0 : d'.ht0.size = d.ht0.size)
    (h1 : d'.ht1.size = d.ht1.size) : SizedDict d' := by
  refine ⟨fun hne => ?_, fun hne => ?_⟩
  · obtain ⟨n, hn, hsize⟩ := h.first (h0 ▸ hne)
    exact ⟨n, hn, h0.trans hsize⟩
  · obtain ⟨n, hn, hsize⟩ := h.second (h1 ▸ hne)
    exact ⟨n, hn, h1.trans hsize⟩

theorem link_size {idx : Nat} {e : DictEntry κ ν} (h : t.link idx e = some t') :
    t'.size = t.size := by
  obtain ⟨c, -, hc⟩ := Option.bind_eq_some_iff.mp h
  cases hc
  exact List.length_set

theorem moveChain_size {c : List (DictEntry κ ν)} {t0 t1 t0' t1' : Dictht κ ν}
    (h : moveChain hash c t0 t1 = some (t0', t1')) : t0'.size = t0.size ∧ t1'.size = t1.size := by
  induction c generalizing t0 t1 with
  | nil =>
      cases h
      exact ⟨rfl, rfl⟩
  | cons e c ih =>
      obtain ⟨t2, hlink, hmove⟩ := Option.bind_eq_some_iff.mp h
      obtain ⟨h0, h1⟩ := ih hmove
      exact ⟨h0, h1.trans (link_size hlink)⟩

theorem dictRehash_sized {n : Nat} {b : Bool} (hs : SizedDict d)
    (h : dictRehash hash n d = some (b, d')) : SizedDict d' := by
  induction n generalizing d with
  | zero =>
      cases h
      exact hs
  | succ n ih =>
      rw [dictRehash] at h
      split at h
      · cases h
        exact hs
      · split at h
        · cases h
          exact ⟨hs.second, fun hne => absurd rfl hne⟩
        · split at h
          · simp at h
          · obtain ⟨⟨j, c⟩, -, h⟩ := Option.bind_eq_some_iff.mp h
            obtain ⟨⟨t0, t1⟩, hmove, h⟩ := Option.bind_eq_some_iff.mp h
            obtain ⟨h0, h1⟩ := moveChain_size hmove
            refine ih (hs.of_sizes ?_ h1) h
            exact List.length_set.trans h0

theorem rehashOnAccess_sized (hs : SizedDict d) (h : rehashOnAccess hash d = some d') :
    SizedDict d' := by
  unfold rehashOnAccess dictRehashStep at h
  split at h
  · split at h
    · obtain ⟨⟨b, d1⟩, hd1, rfl⟩ := Option.map_eq_some_iff.mp h
      exact dictRehash_sized hs hd1
    · cases h
      exact hs
  · cases h
    exact hs

theorem nextPowerLoop_pow (size : Nat) (hsize : size ≤ 2 ^ 63) :
    ∀ fuel k, k ≤ 63 → ∃ n ≤ 63, nextPowerLoop size fuel (2 ^ k) = 2 ^ n
  | 0, k, hk => ⟨k, hk, rfl⟩
  | fuel + 1, k, hk => by
      rw [nextPowerLoop]
      split
      · exact ⟨k, hk, rfl⟩
      · rename_i hlt
        have hk63 : k ≠ 63 := by
          rintro rfl
          exact hlt hsize
        rw [← Nat.pow_succ]
        exact nextPowerLoop_pow size hsize fuel (k + 1) (by omega)

theorem dictExpand_sized {size : Nat} (hs : SizedDict d) (hsize : size < LONG_MAX) :
    SizedDict (dictExpand d size).2 := by
  obtain ⟨n, hn, hpow⟩ := nextPowerLoop_pow size
    (Nat.le_of_lt (Nat.lt_trans hsize (by decide))) size 2 (by decide)
  have hnew : Sized n (⟨List.replicate (dictNextPower size) [], 0⟩ : Dictht κ ν) := by
    refine ⟨hn, ?_⟩
    rw [Dictht.size, List.length_replicate, dictNextPower, if_neg (Nat.not_le.mpr hsize)]
    exact hpow
  unfold dictExpand
  split
  · exact hs
  · split
    · exact ⟨fun _ => ⟨n, hnew⟩, hs.second⟩
    · exact ⟨hs.first, fun _ => ⟨n, hnew⟩⟩

/-- The number of entries does not depend on the state of the rehashing. -/
theorem Same.size (h : DictOk hash d) (hs : Same hash d d') : d'.size = d.size := by
  have hlen := hs.entries.length_eq
  rw [Dict.entries, Dict.entries, List.length_append, List.length_append] at hlen
  rw [Dict.size, Dict.size, h.first.used, h.second.used, hs.ok.first.used, hs.ok.second.used,
    hlen]

theorem dictResize_sized {c : Bool} (hs : SizedDict d) (hsmall : d.size * 2 < LONG_MAX) :
    SizedDict (dictResize c d).2 := by
  unfold dictResize
  split
  · exact hs
  · refine dictExpand_sized hs ?_
    rw [Dict.size] at hsmall
    have : DICT_HT_INITIAL_SIZE < LONG_MAX := by decide
    omega

theorem dictExpandIfNeeded_sized {c : Bool} (hs : SizedDict d) (hsmall : d.size * 2 < LONG_MAX) :
    SizedDict (dictExpandIfNeeded c d).2 := by
  unfold dictExpandIfNeeded
  split
  · exact hs
  · split
    · exact dictExpand_sized hs (by decide)
    · split
      · refine dictExpand_sized hs ?_
        rw [Dict.size] at hsmall
        omega
      · exact hs

section Keys

variable [DecidableEq κ] {key : κ} {val : ν}

theorem dictKeyIndex_sized {c : Bool} {r : Option Nat} (hs : SizedDict d)
    (hsmall : d.size * 2 < LONG_MAX) (h : dictKeyIndex hash c d key = some (r, d')) :
    SizedDict d' := by
  have hexp := dictExpandIfNeeded_sized (c := c) hs hsmall
  unfold dictKeyIndex at h
  split at h
  · rename_i heq
    rw [heq] at hexp
    cases h
    exact hexp
  · rename_i d1 heq
    rw [heq] at hexp
    have hd' : d' = d1 := by
      obtain ⟨b, -, h⟩ := Option.bind_eq_some_iff.mp h
      split at h
      · cases h; rfl
      · split at h
        · cases h; rfl
        · obtain ⟨b1, -, h⟩ := Option.bind_eq_some_iff.mp h
          split at h <;> cases h <;> rfl
    exact hd' ▸ hexp

theorem dictAdd_sized {c b : Bool} (hok : DictOk hash d) (hs : SizedDict d)
    (hsmall : d.size * 2 < LONG_MAX) (h : dictAdd hash c d key val = some (b, d')) :
    SizedDict d' := by
  obtain ⟨d1, hd1, h⟩ := Option.bind_eq_some_iff.mp h
  obtain ⟨⟨r, d2⟩, hd2, h⟩ := Option.bind_eq_some_iff.mp h
  obtain ⟨d1', hd1', hsame⟩ := rehashOnAccess_spec hok
  rw [hd1] at hd1'
  cases hd1'
  have hs2 := dictKeyIndex_sized (rehashOnAccess_sized hs hd1)
    (by rw [hsame.size hok]; exact hsmall) hd2
  cases r with
  | none =>
      cases h
      exact hs2
  | some idx =>
      simp only at h
      split at h
      · obtain ⟨t, ht, h⟩ := Option.bind_eq_some_iff.mp h
        cases h
        exact hs2.of_sizes rfl (link_size ht)
      · obtain ⟨t, ht, h⟩ := Option.bind_eq_some_iff.mp h
        cases h
        exact hs2.of_sizes (link_size ht) rfl

theorem dictFind_sized {r : Option ν} (hs : SizedDict d)
    (h : dictFind hash d key = some (r, d')) : SizedDict d' := by
  unfold dictFind at h
  split at h
  · cases h
    exact hs
  · obtain ⟨d1, hd1, h⟩ := Option.bind_eq_some_iff.mp h
    obtain ⟨c, -, h⟩ := Option.bind_eq_some_iff.mp h
    have hs1 := rehashOnAccess_sized hs hd1
    split at h
    · cases h
      exact hs1
    · split at h
      · cases h
        exact hs1
      · obtain ⟨c1, -, h⟩ := Option.bind_eq_some_iff.mp h
        cases h
        exact hs1

theorem dictSetVal_sized (hs : SizedDict d) (h : dictSetVal hash d key val = some d') :
    SizedDict d' := by
  obtain ⟨c, -, h⟩ := Option.bind_eq_some_iff.mp h
  split at h
  · cases h
    exact hs.of_sizes List.length_set rfl
  · obtain ⟨c1, -, h⟩ := Option.bind_eq_some_iff.mp h
    cases h
    exact hs.of_sizes rfl List.length_set

theorem unlink_size {b : Bool} (h : t.unlink hash key = some (b, t')) : t'.size = t.size := by
  obtain ⟨c, -, h⟩ := Option.bind_eq_some_iff.mp h
  split at h
  · cases h
    exact List.length_set
  · cases h
    rfl

theorem dictDelete_sized {b : Bool} (hs : SizedDict d)
    (h : dictGenericDelete hash d key = some (b, d')) : SizedDict d' := by
  unfold dictGenericDelete at h
  split at h
  · cases h
    exact hs
  · obtain ⟨d1, hd1, h⟩ := Option.bind_eq_some_iff.mp h
    obtain ⟨⟨found, t⟩, ht, h⟩ := Option.bind_eq_some_iff.mp h
    have hs1 := rehashOnAccess_sized hs hd1
    dsimp only at h
    split at h
    · cases h
      exact hs1.of_sizes (unlink_size ht) rfl
    · split at h
      · cases h
        exact hs1
      · obtain ⟨⟨found1, t1⟩, ht1, h⟩ := Option.bind_eq_some_iff.mp h
        cases h
        exact hs1.of_sizes rfl (unlink_size ht1)

/-- A call keeps the tables of a power of two. -/
theorem dictCall_sized {c c' : Bool} {call : DictCall κ ν} {r : DictReply ν}
    (hok : DictOk hash d) (hs : SizedDict d) (hsmall : d.size * 2 < LONG_MAX) (hc : call.small)
    (h : dictCall hash (d, c) call = some (r, d', c')) : SizedDict d' := by
  cases call with
  | add key val =>
      obtain ⟨⟨b, d1⟩, hd1, h⟩ := Option.bind_eq_some_iff.mp h
      cases h
      exact dictAdd_sized hok hs hsmall hd1
  | replace key val =>
      obtain ⟨⟨b, d1⟩, hd1, h⟩ := Option.bind_eq_some_iff.mp h
      cases h
      obtain ⟨⟨b1, d2⟩, hd2, h⟩ := Option.bind_eq_some_iff.mp hd1
      have hs2 := dictAdd_sized hok hs hsmall hd2
      dsimp only at h
      split at h
      · cases h
        exact hs2
      · obtain ⟨⟨v, d3⟩, hd3, h⟩ := Option.bind_eq_some_iff.mp h
        obtain ⟨d4, hd4, h⟩ := Option.bind_eq_some_iff.mp h
        cases h
        exact dictSetVal_sized (dictFind_sized hs2 hd3) hd4
  | delete key =>
      obtain ⟨⟨b, d1⟩, hd1, h⟩ := Option.bind_eq_some_iff.mp h
      cases h
      exact dictDelete_sized hs hd1
  | find key =>
      obtain ⟨⟨b, d1⟩, hd1, h⟩ := Option.bind_eq_some_iff.mp h
      cases h
      exact dictFind_sized hs hd1
  | rehash n =>
      obtain ⟨⟨b, d1⟩, hd1, h⟩ := Option.bind_eq_some_iff.mp h
      cases h
      exact dictRehash_sized hs hd1
  | resize =>
      cases h
      exact dictResize_sized hs hsmall
  | expand size =>
      cases h
      exact dictExpand_sized hs hc
  | empty => exact absurd hc id
  | enableResize | disableResize =>
      cases h
      exact hs

/-! ## Runs -/

/-- **What a scan has returned** of a key that stays: it has, if the cursor is past it. -/
structure ScanInv (hash : κ → UInt32) (key : κ) (s : Scanning κ ν) : Prop where
  ok : DictOk hash s.dict
  sized : SizedDict s.dict
  there : key ∈ s.dict.entries.keys
  passed : s.done = true ∨ Lib.place (word hash key) < Lib.place s.cursor → key ∈ s.emitted

theorem scanInv_scan {s : Scanning κ ν} (h : ScanInv hash key s)
    (hfits : cursorFits s.dict s.cursor) :
    ∃ s', scanStep hash s .scan = some s' ∧ ScanInv hash key s' := by
  obtain ⟨es, v', hscan, hseen⟩ := dictScan_spec h.ok h.sized hfits h.there
  simp only [scanStep, hscan, Option.bind_eq_bind, Option.bind_some]
  refine ⟨_, rfl, h.ok, h.sized, h.there, fun hpast => ?_⟩
  simp only [decide_eq_true_eq] at hpast
  rw [List.mem_append]
  rcases hseen hpast with hbehind | hnow
  · exact Or.inl (h.passed (Or.inr hbehind))
  · exact Or.inr hnow

theorem scanInv_call {s : Scanning κ ν} (h : ScanInv hash key s) {call : DictCall κ ν}
    (hdel : key ∉ call.deletes) (hsmall : call.small) (hfew : s.dict.size * 2 < LONG_MAX) :
    ∃ s', scanStep hash s (.call call) = some s' ∧ ScanInv hash key s' := by
  have hempty : call ≠ .empty := by
    rintro rfl
    exact hsmall
  obtain ⟨m, hl⟩ := Lib.lists_of_nodup h.ok.nodup
  obtain ⟨d', c', hcall, hok, -⟩ := dictCall_refines (c := s.canResize) ⟨h.ok, hl⟩ call
  simp only [scanStep, hcall, Option.bind_eq_bind, Option.bind_some]
  refine ⟨_, rfl, hok, dictCall_sized h.ok h.sized hfew hsmall hcall,
    dictCall_keeps h.ok hempty hcall h.there hdel, h.passed⟩

theorem scanInv_reachable (h : DictOk hash d) (hs : SizedDict d) (hk : key ∈ d.entries.keys)
    {c : Bool} {s : Scanning κ ν}
    (hr : Lib.Reachable (scanStep hash) (scanAllowed cursorFits key) (ScanBegins d c) s) :
    ScanInv hash key s := by
  refine hr.invariant ?_ ?_
  · rintro s rfl
    refine ⟨h, hs, hk, ?_⟩
    -- nothing is behind the cursor 0
    rintro (hdone | hlt)
    · simp at hdone
    · rw [show Lib.place (0 : BitVec 64) = 0 from Lib.place_zero] at hlt
      exact absurd hlt (Nat.not_lt_zero _)
  · intro s a s' hinv ha hstep
    cases a with
    | scan =>
        obtain ⟨s'', hs'', hinv'⟩ := scanInv_scan hinv ha.2
        rw [hstep] at hs''
        cases hs''
        exact hinv'
    | call c =>
        obtain ⟨s'', hs'', hinv'⟩ := scanInv_call hinv ha.1 ha.2.1 ha.2.2
        rw [hstep] at hs''
        cases hs''
        exact hinv'

/--
**A scan returns every key that is there from its beginning to its end.** Between two of
its calls any other calls may be made, and buckets moved from table to table. What a call
on two tables asks of the cursor is that the larger has no more than one bit that the
smaller one has not, or that the cursor has none of these.
-/
theorem scan_complete (h : DictOk hash d) (hs : SizedDict d) (hk : key ∈ d.entries.keys)
    {c : Bool} {s : Scanning κ ν}
    (hr : Lib.Reachable (scanStep hash) (scanAllowed cursorFits key) (ScanBegins d c) s) :
    (s.done = true → key ∈ s.emitted) ∧
      ∀ a, scanAllowed cursorFits key s a → ∃ s', scanStep hash s a = some s' := by
  have hinv := scanInv_reachable h hs hk hr
  refine ⟨fun hdone => hinv.passed (Or.inl hdone), fun a ha => ?_⟩
  cases a with
  | scan =>
      obtain ⟨s', hs', -⟩ := scanInv_scan hinv ha.2
      exact ⟨s', hs'⟩
  | call c =>
      obtain ⟨s', hs', -⟩ := scanInv_call hinv ha.1 ha.2.1 ha.2.2
      exact ⟨s', hs'⟩

end Keys

/-- Three keys in sixteen buckets. -/
def sixteen : Dict Nat String where
  ht0 :=
    ⟨[[⟨0, "a"⟩], [], [], [], [⟨4, "b"⟩], [], [], [], [], [], [], [], [], [⟨13, "c"⟩], [], []], 3⟩
  ht1 := Dictht.reset
  rehashidx := none
  iterators := 0

theorem dictOk_sixteen : DictOk (fun k => UInt32.ofNat k) sixteen := by
  have hrun : (dictRun (fun k => UInt32.ofNat k) (dictCreate, true)
      [.expand 16, .add 0 "a", .add 4 "b", .add 13 "c"]).map Prod.snd =
        some (sixteen, true) := by decide
  exact dictOk_of_run hrun

theorem sized_sixteen : SizedDict sixteen :=
  ⟨fun _ => ⟨4, by decide, rfl⟩, fun hne => absurd rfl hne⟩

/-- A scan in the middle of which the table is set to grow, and a bucket is moved. -/
def grows : List (ScanAct Nat String) :=
  [.scan, .call (.expand 32), .call (.rehash 1)] ++ List.replicate 15 .scan

theorem scan_complete_grows : ∃ s, Lib.Reachable (scanStep fun k => UInt32.ofNat k)
    (scanAllowed cursorFits 4) (ScanBegins sixteen true) s ∧ s.dict.isRehashing = true ∧
      s.done = true ∧ 4 ∈ s.emitted := by
  obtain ⟨s, hr, hrehash, hdone⟩ := Lib.reachable_of_run (scanStep fun k => UInt32.ofNat k)
    (scanAllowed cursorFits 4) grows (fun s => s.dict.isRehashing = true ∧ s.done = true)
    (show ScanBegins sixteen true _ from rfl) (by decide +kernel)
  exact ⟨s, hr, hrehash, hdone,
    (scan_complete dictOk_sixteen sized_sixteen (by decide) hr).1 hdone⟩

/-- A scan in the middle of which the table is set to shrink to a quarter. -/
def shrinks : List (ScanAct Nat String) := [.scan, .call .resize] ++ List.replicate 4 .scan

/--
The cursor after bucket 0 of sixteen is 8. With four buckets in the other table the next
call goes through 8 and 12 of the larger one and is done with their class: 4 is left out.
-/
theorem scan_misses : ∃ s, Lib.Reachable (scanStep fun k => UInt32.ofNat k)
    (scanAllowed (fun _ _ => True) 4) (ScanBegins sixteen true) s ∧
      s.done = true ∧ 4 ∈ s.dict.entries.keys ∧ 4 ∉ s.emitted :=
  Lib.reachable_of_run (scanStep fun k => UInt32.ofNat k) (scanAllowed (fun _ _ => True) 4)
    shrinks (fun s => s.done = true ∧ 4 ∈ s.dict.entries.keys ∧ 4 ∉ s.emitted)
    (show ScanBegins sixteen true _ from rfl) (by decide +kernel)

end BetterEfisis.Redis

import Mathlib.Data.List.Basic

/-!
# Form data

How a body of type `application/x-www-form-urlencoded` is read: it is split at `&`, and
each piece at its first `=`, and then `+` stands for a space and a `%` with two
hexadecimal digits for a byte. A `%` without them stands for itself.

What is written into such a body as it is comes out of it as it was only if it has none
of these in it (`fields_eq_iff`).
-/

namespace BetterEfisis.Lib

/-- The text in UTF-8. -/
def bytes (s : String) : List UInt8 := s.toByteArray.data.toList

/-- `&` -/
def ampersand : UInt8 := 38

/-- `=` -/
def equals : UInt8 := 61

/-- A hexadecimal digit. -/
def hexValue (b : UInt8) : Option UInt8 :=
  if 48 ≤ b ∧ b ≤ 57 then some (b - 48)
  else if 65 ≤ b ∧ b ≤ 70 then some (b - 55)
  else if 97 ≤ b ∧ b ≤ 102 then some (b - 87)
  else none

/-- The byte that `%` and two digits stand for. -/
def escape (a h l : UInt8) : Option UInt8 :=
  if a = 37 then (hexValue h).bind (fun x => (hexValue l).map (fun y => 16 * x + y)) else none

/-- `+` is a space. -/
def plain (a : UInt8) : UInt8 := if a = 43 then 32 else a

/-- The bytes a value stands for. -/
def unescape : List UInt8 → List UInt8
  | [] => []
  | [a] => [plain a]
  | [a, b] => [plain a, plain b]
  -- only a `%` with two digits behind it is an escape
  | a :: h :: l :: rest =>
      match escape a h l with
      | some b => b :: unescape rest
      | none => plain a :: unescape (h :: l :: rest)

/-- A piece, split at its first `=`. -/
def readField (piece : List UInt8) : List UInt8 × List UInt8 :=
  (unescape (piece.takeWhile (· != equals)), unescape (piece.dropWhile (· != equals)).tail)

/-- The fields of a body. -/
def fields (body : List UInt8) : List (List UInt8 × List UInt8) :=
  (body.splitOn ampersand).map readField

/-! ## Texts and their bytes -/

theorem bytes_append (s t : String) : bytes (s ++ t) = bytes s ++ bytes t := by
  unfold bytes
  rw [String.toByteArray_append]
  simp

theorem bytes_inj {s t : String} : bytes s = bytes t ↔ s = t := by
  unfold bytes
  rw [Array.toList_inj, ← ByteArray.ext_iff, String.toByteArray_inj]

theorem bytes_eq_flatMap (s : String) : bytes s = s.toList.flatMap String.utf8EncodeChar := by
  rw [bytes, ← String.utf8Encode_toList, List.utf8Encode, List.toList_data_toByteArray]

/-- An ASCII character is one byte, which no other character begins with. -/
theorem encode_ascii {c : Char} (hc : c.val.toNat ≤ 127) :
    String.utf8EncodeChar c = [UInt8.ofNat c.val.toNat] :=
  if_pos hc

theorem encode_head {c : Char} (hc : c.val.toNat ≤ 127) (d : Char) :
    ∃ b l, String.utf8EncodeChar d = b :: l ∧ (b = UInt8.ofNat c.val.toNat → d = c ∧ l = []) := by
  have htwo : ∀ n : Nat, 128 ≤ n → n < 256 → UInt8.ofNat n ≠ UInt8.ofNat c.val.toNat := by
    intro n hlow hhigh he
    have := congrArg UInt8.toNat he
    rw [UInt8.toNat_ofNat', UInt8.toNat_ofNat'] at this
    omega
  unfold String.utf8EncodeChar
  dsimp only
  split
  · refine ⟨_, _, rfl, fun he => ⟨?_, rfl⟩⟩
    have := congrArg UInt8.toNat he
    rw [UInt8.toNat_ofNat', UInt8.toNat_ofNat'] at this
    exact Char.ext (UInt32.toNat_inj.mp (by omega))
  · split
    · exact ⟨_, _, rfl, fun he => absurd he (htwo _ (by omega) (by omega))⟩
    · split
      · exact ⟨_, _, rfl, fun he => absurd he (htwo _ (by omega) (by omega))⟩
      · exact ⟨_, _, rfl, fun he => absurd he (htwo _ (by omega) (by omega))⟩

theorem flatMap_encode_prefix {cs : List Char} (hcs : ∀ c ∈ cs, c.val.toNat ≤ 127)
    (ds : List Char) :
    cs.flatMap String.utf8EncodeChar <+: ds.flatMap String.utf8EncodeChar ↔ cs <+: ds := by
  induction cs generalizing ds with
  | nil => simp
  | cons c cs ih =>
      have hc := hcs c List.mem_cons_self
      have hrest := fun ds => ih (fun x hx => hcs x (List.mem_cons_of_mem _ hx)) ds
      rw [List.flatMap_cons, encode_ascii hc]
      cases ds with
      | nil => simp
      | cons d ds =>
          obtain ⟨b, l, hd, hb⟩ := encode_head hc d
          rw [List.flatMap_cons, hd, List.cons_append, List.cons_append, List.cons_prefix_cons,
            List.cons_prefix_cons]
          constructor
          · rintro ⟨he, hpre⟩
            obtain ⟨rfl, rfl⟩ := hb he.symm
            exact ⟨rfl, (hrest ds).mp hpre⟩
          · rintro ⟨rfl, hpre⟩
            rw [encode_ascii hc] at hd
            cases hd
            exact ⟨rfl, (hrest ds).mpr hpre⟩

/-- A text of ASCII characters begins another if its bytes do. -/
theorem bytes_prefix {s t : String} (hs : ∀ c ∈ s.toList, c.val.toNat ≤ 127) :
    bytes s <+: bytes t ↔ s.toList <+: t.toList := by
  rw [bytes_eq_flatMap, bytes_eq_flatMap]
  exact flatMap_encode_prefix hs t.toList

/-! ## What a value stands for -/

theorem length_unescape_le (bs : List UInt8) : (unescape bs).length ≤ bs.length := by
  fun_induction unescape bs with
  | case1 => exact Nat.le_refl _
  | case2 a => exact Nat.le_refl _
  | case3 a b => exact Nat.le_refl _
  | case4 a h l rest b hb ih =>
      simp only [List.length_cons] at ih ⊢
      omega
  | case5 a h l rest hb ih =>
      simp only [List.length_cons] at ih ⊢
      omega

/-- Nothing in the value stands for something else. -/
structure Literal (bs : List UInt8) : Prop where
  plus : 43 ∉ bs
  percent : ∀ x h l y, bs = x ++ 37 :: h :: l :: y → hexValue h = none ∨ hexValue l = none

theorem plain_eq_self_iff {a : UInt8} : plain a = a ↔ a ≠ 43 := by
  unfold plain
  split
  · rename_i h
    rw [h]
    decide
  · rename_i h
    simp [h]

theorem literal_nil : Literal [] :=
  ⟨List.not_mem_nil, fun x h l y hbs => by simp at hbs⟩

theorem literal_cons {a : UInt8} {bs : List UInt8} :
    Literal (a :: bs) ↔ a ≠ 43
      ∧ (∀ h l y, bs = h :: l :: y → a = 37 → hexValue h = none ∨ hexValue l = none)
      ∧ Literal bs := by
  constructor
  · intro hlit
    have hplus := hlit.plus
    rw [List.mem_cons, not_or] at hplus
    refine ⟨Ne.symm hplus.1, ?_, hplus.2, ?_⟩
    · intro h l y hbs ha
      exact hlit.percent [] h l y (by rw [ha, hbs]; rfl)
    · intro x h l y hbs
      exact hlit.percent (a :: x) h l y (by rw [hbs]; rfl)
  · intro hall
    obtain ⟨ha, hfirst, hlit⟩ := hall
    refine ⟨?_, ?_⟩
    · rw [List.mem_cons, not_or]
      exact ⟨Ne.symm ha, hlit.plus⟩
    · intro x h l y hbs
      cases x with
      | nil =>
          cases hbs
          exact hfirst h l y rfl rfl
      | cons b x =>
          cases hbs
          exact hlit.percent x h l y rfl

theorem escape_eq_none_iff {a h l : UInt8} :
    escape a h l = none ↔ (a = 37 → hexValue h = none ∨ hexValue l = none) := by
  unfold escape
  split
  · rename_i ha
    cases hexValue h <;> cases hexValue l <;> simp [ha]
  · rename_i ha
    simp [ha]

/-- **A value stands for itself exactly if nothing in it stands for something else.** -/
theorem unescape_eq_self_iff {bs : List UInt8} : unescape bs = bs ↔ Literal bs := by
  fun_induction unescape bs with
  | case1 => exact iff_of_true rfl literal_nil
  | case2 a =>
      rw [literal_cons, ← plain_eq_self_iff]
      simp [literal_nil]
  | case3 a b =>
      rw [literal_cons, literal_cons, ← plain_eq_self_iff, ← plain_eq_self_iff]
      simp [literal_nil]
  | case4 a h l rest b hb ih =>
      -- an escape makes the value shorter
      refine iff_of_false ?_ ?_
      · intro heq
        have hlen := congrArg List.length heq
        have hle := length_unescape_le rest
        simp only [List.length_cons] at hlen
        omega
      · intro hlit
        have hnone := (literal_cons.mp hlit).2.1 h l rest rfl
        rw [escape_eq_none_iff.mpr hnone] at hb
        exact absurd hb (by simp)
  | case5 a h l rest hb ih =>
      rw [literal_cons, ← ih, List.cons.injEq, plain_eq_self_iff]
      have hfirst := escape_eq_none_iff.mp hb
      constructor
      · intro hall
        refine ⟨hall.1, ?_, hall.2⟩
        intro h' l' y hbs ha
        cases hbs
        exact hfirst ha
      · intro hall
        exact ⟨hall.1, hall.2.2⟩

/-! ## What a body is split into -/

theorem splitOn_eq_singleton_iff {a : UInt8} {xs s : List UInt8} :
    xs.splitOn a = [s] ↔ a ∉ xs ∧ xs = s := by
  constructor
  · intro h
    constructor
    · intro ha
      obtain ⟨l, r, rfl⟩ := List.append_of_mem ha
      rw [List.splitOn_append_cons_self] at h
      have hl := List.length_pos_iff.mpr (List.splitOn_ne_nil a l)
      have hr := List.length_pos_iff.mpr (List.splitOn_ne_nil a r)
      have hlen := congrArg List.length h
      rw [List.length_append, List.length_singleton] at hlen
      omega
    · have hback : [a].intercalate (xs.splitOn a) = xs := List.intercalate_splitOn a
      rw [h] at hback
      simpa using hback.symm
  · intro h
    obtain ⟨ha, rfl⟩ := h
    exact List.splitOn_eq_singleton ha

/-- A body with a separator is two pieces where there is no other. -/
theorem splitOn_eq_pair_iff {a : UInt8} {x y s t : List UInt8} :
    (x ++ a :: y).splitOn a = [s, t] ↔ (a ∉ x ∧ x = s) ∧ a ∉ y ∧ y = t := by
  rw [List.splitOn_append_cons_self, ← splitOn_eq_singleton_iff, ← splitOn_eq_singleton_iff]
  constructor
  · intro h
    -- either side has a piece, so neither has a second one
    obtain ⟨s', ss, hx⟩ := List.exists_cons_of_ne_nil (List.splitOn_ne_nil a x)
    obtain ⟨t', ts, hy⟩ := List.exists_cons_of_ne_nil (List.splitOn_ne_nil a y)
    rw [hx, hy] at h ⊢
    have hlen := congrArg List.length h
    simp only [List.length_append, List.length_cons, List.length_nil] at hlen
    have hss : ss = [] := List.length_eq_zero_iff.mp (by omega)
    have hts : ts = [] := List.length_eq_zero_iff.mp (by omega)
    subst hss
    subst hts
    simpa using h
  · intro h
    rw [h.1, h.2]
    rfl

/-- A key that is written as it is. -/
structure Key (k : List UInt8) : Prop where
  ampersand : ampersand ∉ k
  equals : equals ∉ k
  literal : Literal k

theorem readField_eq {k v : List UInt8} (h : Key k) :
    readField (k ++ equals :: v) = (k, unescape v) := by
  have hk : ∀ b ∈ k, (b != equals) = true := by
    intro b hb
    rw [bne_iff_ne]
    intro heq
    rw [heq] at hb
    exact h.equals hb
  unfold readField
  rw [List.takeWhile_append_of_pos hk, List.dropWhile_append_of_pos hk]
  simp [unescape_eq_self_iff.mpr h.literal]

/-- A value that comes out of a body as it is written into it. -/
structure Verbatim (v : List UInt8) : Prop extends Literal v where
  ampersand : ampersand ∉ v

/-- The separators of a piece are those of its value. -/
theorem ampersand_piece_iff {k v : List UInt8} (hk : Key k) :
    ampersand ∉ k ++ equals :: v ↔ ampersand ∉ v := by
  have hne : ampersand ≠ equals := by decide
  simp [hk.ampersand, hne]

/-- **Two fields written as they are come out so exactly if their values are verbatim.** -/
theorem fields_eq_iff {k k' u v : List UInt8} (hk : Key k) (hk' : Key k') :
    fields ((k ++ equals :: u) ++ ampersand :: (k' ++ equals :: v)) = [(k, u), (k', v)]
      ↔ Verbatim u ∧ Verbatim v := by
  have hvalue : ∀ {k v : List UInt8}, Key k →
      (readField (k ++ equals :: v) = (k, v) ↔ Literal v) := by
    intro k v hk
    rw [readField_eq hk, Prod.mk.injEq, unescape_eq_self_iff]
    simp
  unfold fields
  constructor
  · intro h
    obtain ⟨s, ss, hpieces, hs, h⟩ := List.map_eq_cons_iff.mp h
    obtain ⟨t, ts, rfl, ht, h⟩ := List.map_eq_cons_iff.mp h
    rw [List.map_eq_nil_iff.mp h] at hpieces
    obtain ⟨⟨hu, rfl⟩, hv, rfl⟩ := splitOn_eq_pair_iff.mp hpieces
    exact ⟨⟨(hvalue hk).mp hs, (ampersand_piece_iff hk).mp hu⟩,
      ⟨(hvalue hk').mp ht, (ampersand_piece_iff hk').mp hv⟩⟩
  · intro h
    obtain ⟨hu, hv⟩ := h
    rw [splitOn_eq_pair_iff.mpr ⟨⟨(ampersand_piece_iff hk).mpr hu.ampersand, rfl⟩,
      (ampersand_piece_iff hk').mpr hv.ampersand, rfl⟩]
    simp only [List.map_cons, List.map_nil, (hvalue hk).mpr hu.toLiteral,
      (hvalue hk').mpr hv.toLiteral]

/-- And no other values written as they are make the same body. -/
theorem body_inj {k k' u v u' v' : List UInt8} (hk : Key k) (hk' : Key k') (hu : Verbatim u)
    (hv : Verbatim v) (h : (k ++ equals :: u') ++ ampersand :: (k' ++ equals :: v')
      = (k ++ equals :: u) ++ ampersand :: (k' ++ equals :: v)) : u' = u ∧ v' = v := by
  have hpieces : ((k ++ equals :: u) ++ ampersand :: (k' ++ equals :: v)).splitOn ampersand
      = [k ++ equals :: u, k' ++ equals :: v] :=
    splitOn_eq_pair_iff.mpr ⟨⟨(ampersand_piece_iff hk).mpr hu.ampersand, rfl⟩,
      (ampersand_piece_iff hk').mpr hv.ampersand, rfl⟩
  rw [← h] at hpieces
  obtain ⟨⟨_, hu'⟩, _, hv'⟩ := splitOn_eq_pair_iff.mp hpieces
  exact ⟨(List.cons.inj (List.append_cancel_left hu')).2,
    (List.cons.inj (List.append_cancel_left hv')).2⟩

end BetterEfisis.Lib

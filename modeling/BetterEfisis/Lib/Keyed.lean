import BetterEfisis.Lib.Import
import BetterEfisis.Lib.Sidekiq

/-!
# Tables with a key

`Keyed key t`: no two rows of `t` have the same `key`. The three ways a table
changes are described by what they ask of the key: a row added at the end
(`keyed_snoc`), a row replaced at its place (`keyed_set`), a batch added at the
end (`keyed_append`).

A validated insert may check another key than the one that identifies a row. It
keeps the table keyed if that one is computed from this one (`keyed_importRows`),
and it loses rows where different rows are given the same (`allStored_iff`).

Where rows are written over and none is deleted, each is still at its place, and has
become what the writes make of it (`Evolves`).
-/

namespace BetterEfisis.Lib

variable {α κ κ' : Type} {key : α → κ} {t t' : List α} {a b : α} {i : Nat}

/-- No two rows of the table have the same key. -/
def Keyed (key : α → κ) (t : List α) : Prop := (t.map key).Nodup

instance [DecidableEq κ] (key : α → κ) (t : List α) : Decidable (Keyed key t) :=
  inferInstanceAs (Decidable (List.Nodup _))

/-- Two places with the same key are one. -/
theorem keyed_iff :
    Keyed key t ↔ ∀ (i j : Nat) (a b : α), t[i]? = some a → t[j]? = some b →
      key a = key b → i = j := by
  unfold Keyed
  rw [List.nodup_iff_injective_getElem]
  constructor
  · intro h i j a b hi hj hk
    obtain ⟨hil, rfl⟩ := List.getElem?_eq_some_iff.mp hi
    obtain ⟨hjl, rfl⟩ := List.getElem?_eq_some_iff.mp hj
    have heq := @h ⟨i, by simpa using hil⟩ ⟨j, by simpa using hjl⟩ (by simpa using hk)
    exact congrArg Fin.val heq
  · intro h i j hij
    have hi : i.val < t.length := by simpa using i.isLt
    have hj : j.val < t.length := by simpa using j.isLt
    exact Fin.ext (h i j _ _ (List.getElem?_eq_getElem hi) (List.getElem?_eq_getElem hj)
      (by simpa using hij))

theorem keyed_nil : Keyed key ([] : List α) := List.nodup_nil

theorem keyed_append :
    Keyed key (t ++ t') ↔ Keyed key t ∧ Keyed key t' ∧ ∀ a ∈ t, ∀ b ∈ t', key a ≠ key b := by
  unfold Keyed
  rw [List.map_append, List.nodup_append]
  simp

theorem keyed_snoc : Keyed key (t ++ [a]) ↔ Keyed key t ∧ ∀ b ∈ t, key b ≠ key a := by
  rw [keyed_append]
  simp [Keyed]

/-- The row at place `i` replaced by one whose key no other place has. -/
theorem keyed_set (h : Keyed key t) (hi : t[i]? = some a) :
    Keyed key (t.set i b) ↔ ∀ (j : Nat) (c : α), t[j]? = some c → j ≠ i → key c ≠ key b := by
  rw [keyed_iff] at h ⊢
  constructor
  · intro hset j c hj hne hk
    have hj' : (t.set i b)[j]? = some c := by rw [List.getElem?_set_ne (Ne.symm hne), hj]
    exact hne (hset j i c b hj' (getElem?_set_here hi) hk)
  · intro hfree k l c d hk hl hkey
    rcases getElem?_set_cases hk with ⟨rfl, rfl⟩ | ⟨hki, hk'⟩
    · rcases getElem?_set_cases hl with ⟨rfl, _⟩ | ⟨hli, hl'⟩
      · rfl
      · exact absurd hkey.symm (hfree l d hl' hli)
    · rcases getElem?_set_cases hl with ⟨rfl, rfl⟩ | ⟨_, hl'⟩
      · exact absurd hkey (hfree k c hk' hki)
      · exact h k l c d hk' hl' hkey

/-- A key that tells apart all that another key does is a key where that one is. -/
theorem Keyed.of_coarser {key' : α → κ'} (h : Keyed key t)
    (hle : ∀ a ∈ t, ∀ b ∈ t, key' a = key' b → key a = key b) : Keyed key' t := by
  rw [keyed_iff] at h ⊢
  intro i j a b hi hj hk
  exact h i j a b hi hj (hle a (List.mem_of_getElem? hi) b (List.mem_of_getElem? hj) hk)

/-- Under distinct keys, a selection of rows is known by their keys. -/
theorem filter_eq_of_keys {p q : α → Bool} (h : Keyed key t)
    (hk : (t.filter p).map key = (t.filter q).map key) : ∀ a ∈ t, p a = q a := by
  have half : ∀ {p q : α → Bool}, (t.filter p).map key = (t.filter q).map key →
      ∀ a ∈ t, p a = true → q a = true := by
    intro p q hk a ha hp
    have hmem : key a ∈ (t.filter q).map key := by
      rw [← hk]
      exact List.mem_map_of_mem (List.mem_filter.mpr ⟨ha, hp⟩)
    obtain ⟨b, hb, hkey⟩ := List.mem_map.mp hmem
    obtain ⟨hbt, hq⟩ := List.mem_filter.mp hb
    rw [List.inj_on_of_nodup_map h ha hbt hkey.symm]
    exact hq
  intro a ha
  rw [Bool.eq_iff_iff]
  exact ⟨half hk a ha, half hk.symm a ha⟩

/-! ## Validated inserts -/

section Insert

variable [DecidableEq κ'] {V : Validation α κ'} {batch : List α}

/-- An insert whose checked key is computed from the key of the table. -/
theorem keyed_importRows (h : Keyed key t) (hb : Keyed key batch)
    (hcheck : ∀ a ∈ t, ∀ b ∈ batch, key a = key b → V.key a = V.key b) :
    Keyed key (V.importRows t batch) := by
  refine keyed_append.mpr ⟨h, (List.filter_sublist.map key).nodup hb, ?_⟩
  intro a ha b hb' hk
  obtain ⟨hmem, hvalid⟩ := List.mem_filter.mp hb'
  exact (Validation.valid_iff.mp hvalid).2 a ha (hcheck a ha b hmem hk)

/-- **Every row of a batch is stored afterwards if and only if each was stored or is valid.** -/
theorem allStored_iff (hb : Keyed key batch) :
    (∀ b ∈ batch, ∃ a ∈ V.importRows t batch, key a = key b) ↔
      ∀ b ∈ batch, (∃ a ∈ t, key a = key b) ∨ V.valid t b = true := by
  constructor
  · intro h b hmem
    obtain ⟨a, ha, hk⟩ := h b hmem
    rcases Validation.mem_importRows.mp ha with hold | ⟨hnew, hvalid⟩
    · exact Or.inl ⟨a, hold, hk⟩
    · -- the row found is the row itself
      have hab : a = b := List.inj_on_of_nodup_map hb hnew hmem hk
      exact Or.inr (hab ▸ hvalid)
  · intro h b hmem
    rcases h b hmem with ⟨a, ha, hk⟩ | hvalid
    · exact ⟨a, Validation.mem_importRows.mpr (Or.inl ha), hk⟩
    · exact ⟨b, Validation.mem_importRows.mpr (Or.inr ⟨hmem, hvalid⟩), rfl⟩

/-- A key of the rows of a table with generated ids. -/
theorem keyed_rows {t : List (Saved α)} :
    Keyed key (rows t) ↔ Keyed (fun a : Saved α => key a.row) t := by
  unfold Keyed rows
  rw [List.map_map]
  rfl

end Insert

/-! ## Several queries over one table -/

section Queries

variable {ι : Type} [DecidableEq κ]

/-- A query selects a row of a keyed table once, or not at all. -/
theorem Keyed.count_filter (h : Keyed key t) (ha : a ∈ t) (p : α → Bool) :
    ((t.filter p).map key).count (key a) = if p a = true then 1 else 0 := by
  have hnd : ((t.filter p).map key).Nodup := (List.filter_sublist.map key).nodup h
  by_cases hp : p a = true
  · rw [if_pos hp]
    exact List.count_eq_one_of_mem hnd (List.mem_map_of_mem (List.mem_filter.mpr ⟨ha, hp⟩))
  · rw [if_neg hp]
    refine List.count_eq_zero_of_not_mem ?_
    intro hmem
    obtain ⟨b, hb, hk⟩ := List.mem_map.mp hmem
    obtain ⟨hbt, hpb⟩ := List.mem_filter.mp hb
    -- the row found under the key is the row itself
    have hba : b = a := List.inj_on_of_nodup_map h hbt ha hk
    exact hp (hba ▸ hpb)

/-- Several queries select it as often as there are queries that it meets. -/
theorem Keyed.count_flatMap (h : Keyed key t) (ha : a ∈ t) (p : ι → α → Bool) (qs : List ι) :
    (qs.flatMap (fun q => (t.filter (p q)).map key)).count (key a)
      = qs.countP (fun q => p q a) := by
  induction qs with
  | nil => rfl
  | cons q qs ih =>
      rw [List.flatMap_cons, List.count_append, ih, h.count_filter ha, List.countP_cons]
      omega

end Queries

/-! ## Rows that keep their places -/

/-- Every row is still at its place, and has become what `R` allows. -/
def Evolves (R : α → α → Prop) (t t' : List α) : Prop :=
  ∀ (i : Nat) (a : α), t[i]? = some a → ∃ a', t'[i]? = some a' ∧ R a a'

section Evolves

variable {R : α → α → Prop}

theorem Evolves.refl (hR : ∀ a, R a a) (t : List α) : Evolves R t t :=
  fun _ a ha => ⟨a, ha, hR a⟩

theorem Evolves.trans {t'' : List α} (hR : ∀ {a b c}, R a b → R b c → R a c)
    (h : Evolves R t t') (h' : Evolves R t' t'') : Evolves R t t'' := by
  intro i a ha
  obtain ⟨a', ha', hr⟩ := h i a ha
  obtain ⟨a'', ha'', hr'⟩ := h' i a' ha'
  exact ⟨a'', ha'', hR hr hr'⟩

/-- Rows are added at the end. -/
theorem Evolves.append (hR : ∀ a, R a a) (t t' : List α) : Evolves R t (t ++ t') := by
  intro i a ha
  refine ⟨a, ?_, hR a⟩
  rw [List.getElem?_append_left (List.getElem?_eq_some_iff.mp ha).1, ha]

/-- A row is written over. -/
theorem Evolves.set (hR : ∀ a, R a a) (hi : t[i]? = some a) (hab : R a b) :
    Evolves R t (t.set i b) := by
  intro j c hj
  by_cases hji : j = i
  · subst hji
    rw [hi] at hj
    cases hj
    exact ⟨b, getElem?_set_here hi, hab⟩
  · exact ⟨c, by rw [List.getElem?_set_ne (Ne.symm hji), hj], hR c⟩

/-- All rows are written over. -/
theorem Evolves.map {f : α → α} (h : ∀ a ∈ t, R a (f a)) : Evolves R t (t.map f) := by
  intro i a ha
  exact ⟨f a, by rw [List.getElem?_map, ha]; rfl, h a (List.mem_of_getElem? ha)⟩

end Evolves

end BetterEfisis.Lib

import Mathlib.Data.List.Sigma
import Mathlib.Data.Finmap

/-!
# Tables of buckets

Entries with a key, kept in buckets. `Filed idx t`: every entry of the table `t` is in
the bucket `idx` gives its key. What a table holds is the concatenation of its buckets,
so a change to one bucket is a change to that list, at one place: an entry put in front
of its bucket is one entry more (`flatten_push`), and what a search finds, removes or
overwrites in the one bucket of a key is what a search of the whole table does
(`dlookup_flatten`, `flatten_kerase`, `flatten_kreplace`).
-/

namespace BetterEfisis.Lib

variable {κ ν α : Type} {idx : κ → Nat} {i : Nat}

/-- Buckets of entries, each a key and a value. -/
abbrev Buckets (κ ν : Type) := List (List (Σ _ : κ, ν))

/-- Every entry is in the bucket of its key. -/
def Filed (idx : κ → Nat) (t : Buckets κ ν) : Prop :=
  ∀ (i : Nat) (c : List (Σ _ : κ, ν)), t[i]? = some c → ∀ e ∈ c, idx e.1 = i

/-- The place a bucket is at cuts the table in two. -/
theorem split_at {t : List α} {c : α} (h : t[i]? = some c) :
    ∃ l r, t = l ++ c :: r ∧ l.length = i ∧ ∀ x, t.set i x = l ++ x :: r := by
  obtain ⟨hi, rfl⟩ := List.getElem?_eq_some_iff.mp h
  refine ⟨t.take i, t.drop (i + 1), ?_, ?_, ?_⟩
  · rw [List.getElem_cons_drop, List.take_append_drop]
  · rw [List.length_take]
    omega
  · intro x
    rw [List.set_eq_take_append_cons_drop, if_pos hi]

/-- Buckets with nothing in them hold nothing. -/
theorem flatten_eq_nil {t : List (List α)}
    (h : ∀ (i : Nat) (c : List α), t[i]? = some c → c = []) : t.flatten = [] := by
  rw [List.flatten_eq_nil_iff]
  intro c hc
  obtain ⟨i, hi⟩ := List.mem_iff_getElem?.mp hc
  exact h i c hi

/-- One entry more. -/
theorem flatten_push {t : List (List α)} {c : List α} (h : t[i]? = some c) (e : α) :
    (t.set i (e :: c)).flatten.Perm (e :: t.flatten) := by
  obtain ⟨l, r, rfl, -, hset⟩ := split_at h
  rw [hset]
  simp only [List.flatten_append, List.flatten_cons, List.cons_append]
  exact List.perm_middle

/-- A bucket emptied, and its entries kept aside. -/
theorem flatten_clear {t : List (List α)} {c : List α} (h : t[i]? = some c) :
    t.flatten.Perm (c ++ (t.set i []).flatten) := by
  obtain ⟨l, r, rfl, -, hset⟩ := split_at h
  rw [hset]
  simp only [List.flatten_append, List.flatten_cons, List.nil_append]
  rw [← List.append_assoc, ← List.append_assoc]
  exact List.Perm.append_right _ List.perm_append_comm

theorem filed_replicate (idx : κ → Nat) (n : Nat) :
    Filed idx (List.replicate n [] : Buckets κ ν) := by
  intro i c hc e he
  obtain ⟨-, rfl⟩ := List.mem_replicate.mp (List.mem_of_getElem? hc)
  simp at he

theorem filed_nil (idx : κ → Nat) : Filed idx ([] : Buckets κ ν) := by
  intro i c hc
  simp at hc

/-- A bucket replaced by one that is filed as well. -/
theorem Filed.set {t : Buckets κ ν} {c : List (Σ _ : κ, ν)} (h : Filed idx t)
    (hc : ∀ e ∈ c, idx e.1 = i) : Filed idx (t.set i c) := by
  intro j c' hj e he
  by_cases hij : i = j
  · subst hij
    rw [List.getElem?_set_self'] at hj
    cases hti : t[i]? with
    | none => rw [hti] at hj; simp at hj
    | some c₀ =>
        rw [hti] at hj
        obtain rfl : c = c' := by simpa using hj
        exact hc e he
  · rw [List.getElem?_set_ne hij] at hj
    exact h j c' hj e he

theorem Filed.push {t : Buckets κ ν} {c : List (Σ _ : κ, ν)} {e : Σ _ : κ, ν} (h : Filed idx t)
    (hc : t[i]? = some c) (he : idx e.1 = i) : Filed idx (t.set i (e :: c)) := by
  refine h.set ?_
  intro e' he'
  rcases List.mem_cons.mp he' with rfl | he'
  · exact he
  · exact h i c hc e' he'

/-- A bucket replaced by one with no other keys. -/
theorem Filed.set_keys {t : Buckets κ ν} {c c' : List (Σ _ : κ, ν)} (h : Filed idx t)
    (hc : t[i]? = some c) (hk : c'.keys ⊆ c.keys) : Filed idx (t.set i c') := by
  refine h.set fun e he => ?_
  obtain ⟨v, hv⟩ := List.mem_keys.mp (hk (List.mem_keys_of_mem he))
  exact h i c hc ⟨e.1, v⟩ hv

/-- A key is in no bucket but its own. -/
theorem Filed.mem_keys {t : Buckets κ ν} {k : κ} {c : List (Σ _ : κ, ν)} (h : Filed idx t)
    (hc : t[idx k]? = some c) : k ∈ t.flatten.keys ↔ k ∈ c.keys := by
  constructor
  · intro hk
    obtain ⟨v, hv⟩ := List.mem_keys.mp hk
    obtain ⟨c', hc', hv'⟩ := List.mem_flatten.mp hv
    obtain ⟨j, hj⟩ := List.mem_iff_getElem?.mp hc'
    obtain rfl : idx k = j := h j c' hj _ hv'
    rw [hc] at hj
    cases hj
    exact List.mem_keys_of_mem hv'
  · intro hk
    obtain ⟨v, hv⟩ := List.mem_keys.mp hk
    exact List.mem_keys_of_mem (List.mem_flatten.mpr ⟨c, List.mem_of_getElem? hc, hv⟩)

/-- The buckets before that of a key do not have it. -/
theorem Filed.notMem_left {l r : Buckets κ ν} {c : List (Σ _ : κ, ν)} {k : κ}
    (h : Filed idx (l ++ c :: r)) (hl : l.length = idx k) : k ∉ l.flatten.keys := by
  intro hk
  obtain ⟨v, hv⟩ := List.mem_keys.mp hk
  obtain ⟨c', hc', hv'⟩ := List.mem_flatten.mp hv
  obtain ⟨j, hj⟩ := List.mem_iff_getElem?.mp hc'
  have hjl := (List.getElem?_eq_some_iff.mp hj).1
  have := h j c' (by rw [List.getElem?_append_left hjl, hj]) _ hv'
  simp only at this
  omega

/-! ## Tables that differ in some keys only -/

/-- Bucket by bucket, the keys that `p` asks about are the same, in the same order. -/
def Alike (p : κ → Bool) (t t' : Buckets κ ν) : Prop :=
  ∀ j : Nat, (t'[j]?.getD []).keys.filter p = (t[j]?.getD []).keys.filter p

theorem Alike.refl (p : κ → Bool) (t : Buckets κ ν) : Alike p t t := fun _ => rfl

theorem Alike.trans {p : κ → Bool} {t t' t'' : Buckets κ ν} (h : Alike p t t')
    (h' : Alike p t' t'') : Alike p t t'' := fun j => (h' j).trans (h j)

theorem Alike.set {p : κ → Bool} {t : Buckets κ ν} {c c' : List (Σ _ : κ, ν)}
    (hc : t[i]? = some c) (hk : c'.keys.filter p = c.keys.filter p) : Alike p t (t.set i c') := by
  intro j
  by_cases hij : i = j
  · subst hij
    rw [List.getElem?_set_self (List.getElem?_eq_some_iff.mp hc).1, hc]
    exact hk
  · rw [List.getElem?_set_ne hij]

/-- No table and an empty one. -/
theorem alike_replicate (p : κ → Bool) (n : Nat) :
    Alike p ([] : Buckets κ ν) (List.replicate n []) := by
  intro j
  rw [List.getElem?_replicate]
  split <;> rfl

/-- The keys from a bucket on. -/
theorem mem_keys_drop {t : Buckets κ ν} {k : κ} :
    k ∈ (t.drop i).flatten.keys ↔ ∃ j, i ≤ j ∧ k ∈ (t[j]?.getD []).keys := by
  constructor
  · intro hk
    obtain ⟨v, hv⟩ := List.mem_keys.mp hk
    obtain ⟨c, hc, hvc⟩ := List.mem_flatten.mp hv
    obtain ⟨j, hj⟩ := List.mem_iff_getElem?.mp hc
    rw [List.getElem?_drop] at hj
    refine ⟨i + j, by omega, ?_⟩
    rw [hj]
    exact List.mem_keys_of_mem hvc
  · rintro ⟨j, hij, hk⟩
    cases hj : t[j]? with
    | none => rw [hj] at hk; simp at hk
    | some c =>
        rw [hj] at hk
        obtain ⟨v, hv⟩ := List.mem_keys.mp hk
        refine List.mem_keys.mpr ⟨v, List.mem_flatten.mpr ⟨c, ?_, hv⟩⟩
        refine List.mem_iff_getElem?.mpr ⟨j - i, ?_⟩
        rw [List.getElem?_drop, Nat.add_sub_cancel' hij, hj]

section Search

variable [DecidableEq κ] {t : Buckets κ ν} {k : κ} {c : List (Σ _ : κ, ν)}

/-- What a bucket holds of its key, the table does. -/
theorem dlookup_flatten (h : Filed idx t) (hc : t[idx k]? = some c) :
    t.flatten.dlookup k = c.dlookup k := by
  cases hd : c.dlookup k with
  | none =>
      rw [List.dlookup_eq_none] at hd ⊢
      rwa [h.mem_keys hc]
  | some v =>
      obtain ⟨l, r, rfl, hl, -⟩ := split_at hc
      have hleft : l.flatten.dlookup k = none := List.dlookup_eq_none.mpr (h.notMem_left hl)
      rw [List.flatten_append, List.flatten_cons, List.dlookup_append, List.dlookup_append,
        hleft, hd]
      rfl

/-- A key removed from its bucket is removed from the table. -/
theorem flatten_kerase (h : Filed idx t) (hc : t[idx k]? = some c) (hk : k ∈ c.keys) :
    (t.set (idx k) (c.kerase k)).flatten = t.flatten.kerase k := by
  obtain ⟨l, r, rfl, hl, hset⟩ := split_at hc
  have hleft := h.notMem_left hl
  rw [hset, List.flatten_append, List.flatten_cons, List.flatten_append, List.flatten_cons,
    List.kerase_append_right hleft, List.kerase_append_left hk]

theorem kreplace_cons (e : Σ _ : κ, ν) (l : List (Σ _ : κ, ν)) (k : κ) (v : ν) :
    (e :: l).kreplace k v = if k = e.1 then ⟨k, v⟩ :: l else e :: l.kreplace k v := by
  unfold List.kreplace
  rw [List.lookmap_cons]
  by_cases h : k = e.1 <;> simp [h]

theorem kreplace_append_left {l r : List (Σ _ : κ, ν)} (hk : k ∈ l.keys) (v : ν) :
    (l ++ r).kreplace k v = l.kreplace k v ++ r := by
  induction l with
  | nil => simp at hk
  | cons e l ih =>
      rw [List.cons_append, kreplace_cons, kreplace_cons]
      by_cases he : k = e.1
      · rw [if_pos he, if_pos he, List.cons_append]
      · have hl : k ∈ l.keys := (List.mem_cons.mp hk).resolve_left he
        rw [if_neg he, if_neg he, ih hl, List.cons_append]

theorem kreplace_append_right {l r : List (Σ _ : κ, ν)} (hk : k ∉ l.keys) (v : ν) :
    (l ++ r).kreplace k v = l ++ r.kreplace k v := by
  induction l with
  | nil => rfl
  | cons e l ih =>
      rw [List.keys_cons, List.mem_cons, not_or] at hk
      rw [List.cons_append, kreplace_cons, if_neg hk.1, ih hk.2, List.cons_append]

/-- A value set in the bucket of its key is set in the table. -/
theorem flatten_kreplace (h : Filed idx t) (hc : t[idx k]? = some c) (hk : k ∈ c.keys) (v : ν) :
    (t.set (idx k) (c.kreplace k v)).flatten = t.flatten.kreplace k v := by
  obtain ⟨l, r, rfl, hl, hset⟩ := split_at hc
  have hleft := h.notMem_left hl
  rw [hset, List.flatten_append, List.flatten_cons, List.flatten_append, List.flatten_cons,
    kreplace_append_right hleft, kreplace_append_left hk]

/-- A key removed is one entry less. -/
theorem length_kerase {l : List (Σ _ : κ, ν)} (hk : k ∈ l.keys) :
    (l.kerase k).length + 1 = l.length := by
  obtain ⟨v, l₁, l₂, -, rfl, hl⟩ := List.exists_of_kerase hk
  rw [hl, List.length_append, List.length_append, List.length_cons]
  omega

/-- A value set is the old entry removed and a new one put in. -/
theorem kreplace_perm {l : List (Σ _ : κ, ν)} (hk : k ∈ l.keys) (v : ν) :
    (l.kreplace k v).Perm (l.kinsert k v) := by
  rw [List.kinsert_def]
  induction l with
  | nil => simp at hk
  | cons e l ih =>
      rw [kreplace_cons]
      by_cases he : k = e.1
      · rw [if_pos he, List.kerase_cons_eq he]
      · have hl : k ∈ l.keys := (List.mem_cons.mp hk).resolve_left he
        rw [if_neg he, List.kerase_cons_ne he]
        exact ((ih hl).cons e).trans (List.Perm.swap _ _ _)

end Search

/-! ## The map a list of entries is -/

section Map

variable {l l' : List (Σ _ : κ, ν)} {m : Finmap fun _ : κ => ν}

/-- The entries of the map, in some order. -/
def Lists (l : List (Σ _ : κ, ν)) (m : Finmap fun _ : κ => ν) : Prop := (l : Multiset _) = m.entries

theorem lists_nil : Lists ([] : List (Σ _ : κ, ν)) ∅ := rfl

theorem Lists.nodup (h : Lists l m) : l.NodupKeys := by
  have := m.nodupKeys
  rwa [← h, Multiset.coe_nodupKeys] at this

theorem Lists.perm (h : Lists l m) (hp : l'.Perm l) : Lists l' m :=
  (Multiset.coe_eq_coe.mpr hp).trans h

/-- A list with no key twice lists a map. -/
theorem lists_of_nodup (h : l.NodupKeys) : ∃ m, Lists l m :=
  ⟨⟨l, Multiset.coe_nodupKeys.mpr h⟩, rfl⟩

theorem Lists.mem (h : Lists l m) {k : κ} : k ∈ m ↔ k ∈ l.keys := by
  rw [Finmap.mem_def, ← h, Multiset.coe_keys, Multiset.mem_coe]

theorem Lists.card (h : Lists l m) : m.keys.card = l.length := by
  have : m.keys.val = ((l.keys : List κ) : Multiset κ) := by
    rw [← Multiset.coe_keys, h]
    rfl
  rw [Finset.card_def, this, Multiset.coe_card, List.keys, List.length_map]

/-- The lists of a map are the orders of its entries. -/
theorem Lists.exists_alist (h : Lists l m) : ∃ a : AList fun _ : κ => ν, m = a.toFinmap ∧
    a.entries.Perm l := by
  refine ⟨⟨l, h.nodup⟩, Finmap.ext ?_, List.Perm.refl _⟩
  exact h.symm

variable [DecidableEq κ]

theorem Lists.lookup (h : Lists l m) (k : κ) : m.lookup k = l.dlookup k := by
  obtain ⟨a, rfl, hp⟩ := h.exists_alist
  rw [Finmap.lookup_toFinmap, AList.lookup]
  exact List.perm_dlookup k a.nodupKeys hp

theorem Lists.insert (h : Lists l m) (k : κ) (v : ν) : Lists (l.kinsert k v) (m.insert k v) := by
  obtain ⟨a, rfl, hp⟩ := h.exists_alist
  rw [Finmap.insert_toFinmap]
  exact Multiset.coe_eq_coe.mpr (List.Perm.kinsert h.nodup hp.symm)

theorem Lists.erase (h : Lists l m) (k : κ) : Lists (l.kerase k) (m.erase k) := by
  obtain ⟨a, rfl, hp⟩ := h.exists_alist
  rw [Finmap.erase_toFinmap]
  exact Multiset.coe_eq_coe.mpr (List.Perm.kerase h.nodup hp.symm)

end Map

end BetterEfisis.Lib

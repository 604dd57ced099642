import BetterEfisis.Proof.DictMap
import BetterEfisis.Redis.Iterator

/-!
# A safe iterator returns every key once

What an iterator is still going to return is a list of keys (`pending`): the rest of its
chain from the entry it has saved, the buckets after, the second table. A step takes the
first of them. What the body of the loop does to a key changes the list in that key only
(`pending_frame`), because while the iterator is counted no bucket is moved.
-/

namespace BetterEfisis.Redis

variable {κ ν : Type} {hash : κ → UInt32} {d d' : Dict κ ν} {it it' : DictIterator κ}

/-! ## Buckets in order -/

theorem firstChain_flatten {α : Type} {t : List (List α)} {i j : Nat} {c : List α}
    (h : firstChain (t.drop i) i = some (j, c)) :
    t[j]? = some c ∧ c ≠ [] ∧ (t.drop i).flatten = c ++ (t.drop (j + 1)).flatten := by
  obtain ⟨hne, m, rfl, hm, hempty⟩ := firstChain_some h
  have hj : t[i + m]? = some c := by rwa [List.getElem?_drop] at hm
  refine ⟨hj, hne, ?_⟩
  obtain ⟨l, r, hlr, hlen, -⟩ := Lib.split_at hm
  have hnil : l.flatten = [] := by
    refine Lib.flatten_eq_nil fun k b hb => ?_
    have hk := (List.getElem?_eq_some_iff.mp hb).1
    have := hempty k (by omega)
    rw [hlr, List.getElem?_append_left hk, hb] at this
    simpa using this
  have hr : t.drop (i + m + 1) = r := by
    rw [Nat.add_assoc, ← List.drop_drop, hlr]
    simp [← hlen]
  rw [hr, hlr, List.flatten_append, hnil, List.flatten_cons, List.nil_append]

/-- A bucket and those after it. -/
theorem flatten_drop {α : Type} (t : List (List α)) (i : Nat) :
    t[i]?.getD [] ++ (t.drop (i + 1)).flatten = (t.drop i).flatten := by
  by_cases hi : i < t.length
  · rw [List.drop_eq_getElem_cons hi, List.flatten_cons, List.getElem?_eq_getElem hi]
    rfl
  · rw [List.getElem?_eq_none (by omega), List.drop_eq_nil_of_le (by omega),
      List.drop_eq_nil_of_le (by omega)]
    rfl

/-- The table an iterator is in and those it has yet to come to. -/
theorem ht_sublist (d : Dict κ ν) (table : Bool) :
    ((d.ht table).table.flatten.keys ++
      (if table then [] else d.ht1.table.flatten.keys)).Sublist d.entries.keys := by
  rw [entries_keys]
  cases table with
  | false => exact List.Sublist.refl _
  | true =>
      simp only [Dict.ht, if_true, List.append_nil]
      exact List.sublist_append_right _ _

/-- A chain of either table: no key twice, and all of it in the dictionary. -/
theorem DictOk.chain (h : DictOk hash d) {table : Bool} {i : Nat} {c : List (DictEntry κ ν)}
    (hc : (d.ht table).table[i]? = some c) : c.NodupKeys ∧ ∀ e ∈ c, e ∈ d.entries := by
  have hsub := List.sublist_flatten_of_mem (List.mem_of_getElem? hc)
  refine ⟨List.Nodup.sublist ?_ h.nodup, fun e he => ?_⟩
  · refine List.Sublist.trans ?_ (ht_sublist d table)
    exact (hsub.map _).trans (List.sublist_append_left _ _)
  · cases table with
    | false => exact List.mem_append_left _ (hsub.subset he)
    | true => exact List.mem_append_right _ (hsub.subset he)

/-- The pointer an iterator saves is to another entry of the chain. -/
theorem firstKey_spec {l c : List (DictEntry κ ν)} {e : DictEntry κ ν}
    (h : (l ++ e :: c).NodupKeys) {k : κ} (hk : firstKey c = some k) :
    k ≠ e.1 ∧ k ∈ (l ++ e :: c).keys := by
  cases c with
  | nil => simp [firstKey] at hk
  | cons f c =>
      obtain rfl : f.1 = k := by simpa [firstKey] using hk
      have hne := (List.nodupKeys_cons.mp (List.nodupKeys_middle.mp h)).1
      refine ⟨fun hfe => hne ?_, by simp [List.keys]⟩
      simp [List.keys, hfe]

theorem mem_iff_of_filter {l l' : List κ} {p : κ → Bool} (h : l'.filter p = l.filter p) {k : κ}
    (hk : p k = true) : k ∈ l' ↔ k ∈ l := by
  have : k ∈ l'.filter p ↔ k ∈ l.filter p := by rw [h]
  simpa [List.mem_filter, hk] using this

theorem alike_drop {t t' : Lib.Buckets κ ν} {p : κ → Bool} (h : Lib.Alike p t t') {k : κ}
    (hk : p k = true) (i : Nat) :
    k ∈ (t'.drop i).flatten.keys ↔ k ∈ (t.drop i).flatten.keys := by
  rw [Lib.mem_keys_drop, Lib.mem_keys_drop]
  exact exists_congr fun j => and_congr_right fun _ => mem_iff_of_filter (h j) hk

theorem Frame.ht {p : κ → Bool} (h : Frame p d d') (table : Bool) :
    Lib.Alike p (d.ht table).table (d'.ht table).table := by
  cases table with
  | false => exact h.first
  | true => exact h.second

/-- An iterator between two steps: not begun, or on an entry, with a pointer to another. -/
inductive Aimed (d : Dict κ ν) : DictIterator κ → Prop where
  | fresh : Aimed d dictGetSafeIterator
  | on {table : Bool} {i : Nat} {k : κ} {next : Option κ} :
      0 < d.iterators → (table = true → d.isRehashing = true) →
      (∀ k', next = some k' → k' ≠ k ∧ k' ∈ ((d.ht table).table[i]?.getD []).keys) →
      Aimed d ⟨table, some i, some k, next⟩

theorem aimed_frame {p : κ → Bool} {table : Bool} {i : Nat} {k : κ} {next : Option κ}
    (h : Frame p d d') (hit : d'.iterators = d.iterators)
    (hnext : ∀ k, next = some k → p k = true) (ha : Aimed d ⟨table, some i, some k, next⟩) :
    Aimed d' ⟨table, some i, some k, next⟩ := by
  cases ha with
  | on hpos ht hn =>
      refine Aimed.on (hit ▸ hpos) (fun htrue => h.rehashing (ht htrue)) fun k' hk' => ?_
      obtain ⟨hne, hmem⟩ := hn k' hk'
      exact ⟨hne, (mem_iff_of_filter (h.ht table i) (hnext k' hk')).mpr hmem⟩

/-! ## What is still to come -/

section Keys

variable [DecidableEq κ]

/-- The keys of a chain from a saved pointer on. -/
def restOf (ks : List κ) : Option κ → List κ
  | none => []
  | some k => ks.dropWhile fun x => x ≠ k

theorem restOf_append {l r : List κ} {k : κ} (hk : k ∉ l) :
    restOf (l ++ k :: r) (some k) = k :: r := by
  simp only [restOf]
  induction l with
  | nil => simp
  | cons x l ih =>
      rw [List.mem_cons, not_or] at hk
      rw [List.cons_append, List.dropWhile_cons_of_pos (by simpa using Ne.symm hk.1), ih hk.2]

theorem restOf_sublist (ks : List κ) (next : Option κ) : (restOf ks next).Sublist ks := by
  cases next with
  | none => exact List.nil_sublist _
  | some k => exact List.dropWhile_sublist _

/-- Keys that are not asked about, other than the saved one, do not matter. -/
theorem restOf_filter (p : κ → Bool) (ks : List κ) (next : Option κ)
    (hp : ∀ k, next = some k → p k = true) :
    (restOf ks next).filter p = restOf (ks.filter p) next := by
  cases next with
  | none => rfl
  | some k =>
      have hk := hp k rfl
      simp only [restOf]
      induction ks with
      | nil => rfl
      | cons x ks ih =>
          by_cases hx : x = k
          · subst hx
            simp [List.filter_cons_of_pos hk]
          · by_cases hpx : p x = true
            · rw [List.dropWhile_cons_of_pos (by simpa using hx), ih,
                List.filter_cons_of_pos hpx, List.dropWhile_cons_of_pos (by simpa using hx)]
            · rw [List.dropWhile_cons_of_pos (by simpa using hx), ih,
                List.filter_cons_of_neg hpx]

/-- What follows the first of the pending entries of a chain. -/
theorem restOf_next {l c : List (DictEntry κ ν)} {e : DictEntry κ ν}
    (h : (l ++ e :: c).NodupKeys) :
    restOf (l ++ e :: c).keys (firstKey c) = c.keys := by
  cases c with
  | nil => rfl
  | cons f c =>
      have hkeys : (l ++ e :: f :: c).keys = (l ++ [e]).keys ++ f.1 :: c.keys := by
        simp [List.keys]
      have hf : f.1 ∉ (l ++ [e]).keys := by
        have hnodup : ((l ++ [e]).keys ++ f.1 :: c.keys).Nodup := hkeys ▸ h
        rw [List.nodup_append] at hnodup
        exact fun hmem => hnodup.2.2 _ hmem _ List.mem_cons_self rfl
      rw [hkeys]
      exact restOf_append hf

theorem entryAt_append {l c : List (DictEntry κ ν)} {e : DictEntry κ ν} (hl : e.1 ∉ l.keys) :
    entryAt e.1 (l ++ e :: c) = some (e, firstKey c) := by
  induction l with
  | nil => rw [List.nil_append, entryAt, if_pos rfl]
  | cons f l ih =>
      rw [List.keys_cons, List.mem_cons, not_or] at hl
      rw [List.cons_append, entryAt, if_neg hl.1, ih hl.2]

/-- **What an iterator is still going to return**, in its order. -/
def pending (d : Dict κ ν) (it : DictIterator κ) : List κ :=
  match it.index with
  | none => d.entries.keys
  | some i =>
      restOf ((d.ht it.table).table[i]?.getD []).keys it.nextEntry ++
        ((d.ht it.table).table.drop (i + 1)).flatten.keys ++
        (if it.table then [] else d.ht1.table.flatten.keys)

theorem pending_sublist (d : Dict κ ν) (it : DictIterator κ) :
    (pending d it).Sublist d.entries.keys := by
  unfold pending
  cases it.index with
  | none => exact List.Sublist.refl _
  | some i =>
      refine List.Sublist.trans ?_ (ht_sublist d it.table)
      refine List.Sublist.append_right ?_ _
      refine ((restOf_sublist _ _).append_right _).trans ?_
      rw [← List.keys_append, flatten_drop]
      exact ((List.drop_sublist i _).flatten).map _

theorem pending_nodup (h : DictOk hash d) (it : DictIterator κ) : (pending d it).Nodup :=
  List.Nodup.sublist (pending_sublist d it) h.nodup

/-- On to the next bucket: the first of the keys left, or there are none left in the table. -/
theorem scanBuckets_spec (h : DictOk hash d) (table : Bool) (i : Nat) (saved : Option κ) :
    (∃ e it', scanBuckets d table i saved = (some e, it') ∧ e ∈ d.entries ∧
      ((d.ht table).table.drop i).flatten.keys ++
        (if table then [] else d.ht1.table.flatten.keys) = e.1 :: pending d it' ∧
      (0 < d.iterators → (table = true → d.isRehashing = true) → Aimed d it')) ∨
    (∃ it', scanBuckets d table i saved = (none, it')) ∧
      ((d.ht table).table.drop i).flatten.keys = [] := by
  unfold scanBuckets
  cases hf : firstChain ((d.ht table).table.drop i) i with
  | none =>
      refine Or.inr ⟨⟨_, rfl⟩, ?_⟩
      rw [firstChain_none.mp hf]
      rfl
  | some r =>
      obtain ⟨j, c⟩ := r
      obtain ⟨hj, hne, hflat⟩ := firstChain_flatten hf
      obtain ⟨e, c, rfl⟩ := List.exists_cons_of_ne_nil hne
      obtain ⟨hnodup, hin⟩ := h.chain hj
      refine Or.inl ⟨e, _, rfl, hin e List.mem_cons_self, ?_, fun hit ht => Aimed.on hit ht ?_⟩
      · have hrest := restOf_next (l := []) hnodup
        rw [List.nil_append, List.keys_cons] at hrest
        simp only [pending, hj, Option.getD_some]
        rw [hflat, List.keys_append, List.keys_cons, List.cons_append, List.cons_append, hrest]
      · intro k' hk'
        rw [hj, Option.getD_some]
        exact firstKey_spec (l := []) hnodup hk'

theorem advance_spec (h : DictOk hash d) (hit : 0 < d.iterators) (table : Bool)
    (ht : table = true → d.isRehashing = true) (i : Nat) (saved : Option κ) :
    ∃ r it', advance d table i saved = (r, it') ∧
      (∀ e, r = some e → e ∈ d.entries ∧ Aimed d it' ∧
        ((d.ht table).table.drop i).flatten.keys ++
          (if table then [] else d.ht1.table.flatten.keys) = e.1 :: pending d it') ∧
      (r = none → ((d.ht table).table.drop i).flatten.keys ++
        (if table then [] else d.ht1.table.flatten.keys) = []) := by
  unfold advance
  rcases scanBuckets_spec h table i saved with ⟨e, it', hs, he, hp, ha⟩ | ⟨⟨it', hs⟩, hnil⟩
  · rw [hs]
    refine ⟨some e, it', rfl, ?_, by simp⟩
    rintro e' ⟨rfl⟩
    exact ⟨he, ha hit ht, hp⟩
  · rw [hs, hnil]
    cases table with
    | true => exact ⟨none, it', by simp, by simp, by simp⟩
    | false =>
        cases hr : d.isRehashing with
        | false => exact ⟨none, it', by simp, by simp, fun _ => by simp [h.one_table hr]⟩
        | true =>
            -- nothing left in the first table: on with the second
            rcases scanBuckets_spec h true 0 saved with ⟨e, it', hs, he, hp, ha⟩ | ⟨⟨it', hs⟩, hnil⟩
            · refine ⟨some e, it', by simp [hs], ?_, by simp⟩
              rintro e' ⟨rfl⟩
              exact ⟨he, ha hit fun _ => hr, by simpa [Dict.ht] using hp⟩
            · exact ⟨none, it', by simp [hs], by simp, fun _ => by simpa [Dict.ht] using hnil⟩

/-- **A step of an iterator** returns the first of the keys still to come, if there is one. -/
theorem dictNext_spec (h : DictOk hash d) (ha : Aimed d it) :
    ∃ r it' d', dictNext d it = some (r, it', d') ∧ DictOk hash d' ∧ d'.entries = d.entries ∧
      (∀ e, r = some e → e ∈ d.entries ∧ Aimed d' it' ∧ pending d it = e.1 :: pending d' it') ∧
      (r = none → pending d it = []) := by
  cases ha with
  | fresh =>
      let d1 := { d with iterators := d.iterators + 1 }
      have hok : DictOk hash d1 := ⟨h.first, h.second, h.nodup, h.idle, h.ready, h.moved⟩
      obtain ⟨r, it', hadv, hsome, hnone⟩ :=
        advance_spec hok (Nat.succ_pos _) false (by simp) 0 none
      have hpend : pending d dictGetSafeIterator = ((d1.ht false).table.drop 0).flatten.keys ++
          (if false then [] else d1.ht1.table.flatten.keys) := entries_keys d
      refine ⟨r, it', d1, ?_, hok, rfl, ?_, ?_⟩
      · show some ((advance d1 false 0 none).1, (advance d1 false 0 none).2, d1) = _
        rw [hadv]
      · rw [hpend]
        exact hsome
      · rw [hpend]
        exact hnone
  | @on table i k next hit ht hnext =>
      cases next with
      | none =>
          obtain ⟨r, it', hadv, hsome, hnone⟩ := advance_spec h hit table ht (i + 1) none
          have hpend : pending d ⟨table, some i, some k, none⟩ =
              ((d.ht table).table.drop (i + 1)).flatten.keys ++
                (if table then [] else d.ht1.table.flatten.keys) := rfl
          refine ⟨r, it', d, ?_, h, rfl, ?_, ?_⟩
          · show some (nextBucket d ⟨table, some i, some k, none⟩) = _
            simp only [nextBucket]
            rw [hadv]
          · rw [hpend]
            exact hsome
          · rw [hpend]
            exact hnone
      | some key =>
          obtain ⟨-, hmem⟩ := hnext key rfl
          cases hc : (d.ht table).table[i]? with
          | none => simp [hc] at hmem
          | some c =>
              rw [hc, Option.getD_some] at hmem
              obtain ⟨e, he, rfl⟩ := List.mem_map.mp hmem
              obtain ⟨l, r, rfl⟩ := List.append_of_mem he
              obtain ⟨hnodup, hin⟩ := h.chain hc
              have hmid := List.nodupKeys_middle.mp hnodup
              have hl : e.1 ∉ l.keys := by
                have := (List.nodupKeys_cons.mp hmid).1
                rw [List.keys_append, List.mem_append, not_or] at this
                exact this.1
              refine ⟨some e, ⟨table, some i, some e.1, firstKey r⟩, d, ?_, h, rfl, ?_, by simp⟩
              · simp only [dictNext, hc, Option.bind_eq_bind, Option.bind_some, entryAt_append hl]
              · rintro e' ⟨rfl⟩
                refine ⟨hin e he, Aimed.on hit ht ?_, ?_⟩
                · intro k' hk'
                  rw [hc, Option.getD_some]
                  exact firstKey_spec hnodup hk'
                · simp only [pending, hc, Option.getD_some]
                  rw [restOf_next hnodup]
                  rw [show (l ++ e :: r).keys = l.keys ++ e.1 :: r.keys from by simp [List.keys],
                    restOf_append hl]
                  simp

/-! ## What the body of the loop does to it -/

/-- Of the keys asked about, an iterator under way will return the same. -/
theorem pending_frame {p : κ → Bool} {table : Bool} {i : Nat} {entry next : Option κ}
    (h : Frame p d d') (hnext : ∀ k, next = some k → p k = true) {k : κ} (hk : p k = true) :
    k ∈ pending d' ⟨table, some i, entry, next⟩ ↔ k ∈ pending d ⟨table, some i, entry, next⟩ := by
  have hrest : k ∈ restOf ((d'.ht table).table[i]?.getD []).keys next ↔
      k ∈ restOf ((d.ht table).table[i]?.getD []).keys next := by
    refine mem_iff_of_filter ?_ hk
    rw [restOf_filter p _ _ hnext, restOf_filter p _ _ hnext, h.ht table i]
  have hsecond := alike_drop h.second hk 0
  rw [List.drop_zero, List.drop_zero] at hsecond
  simp only [pending, List.mem_append, hrest, alike_drop (h.ht table) hk (i + 1)]
  cases table with
  | false => simp [hsecond]
  | true => simp

/-- The key a call may add or remove. -/
def touched (d : Dict κ ν) : DictCall κ ν → Option κ
  | .add key _ | .replace key _ => if key ∈ d.entries.keys then none else some key
  | .delete key => some key
  | _ => none

/-- A call made while an iterator is counted changes no bucket but in the key it is about. -/
theorem dictCall_frame (h : DictOk hash d) (hit : 0 < d.iterators) {c c' : Bool}
    {call : DictCall κ ν} {r : DictReply ν}
    (hmoves : ∀ n, call ≠ .rehash n) (hempty : call ≠ .empty)
    (hcall : dictCall hash (d, c) call = some (r, d', c')) :
    d'.iterators = d.iterators ∧
      ∀ p, (∀ key, touched d call = some key → p key = false) → Frame p d d' := by
  cases call with
  | add key val =>
      obtain ⟨d1, hd1, -, hi, -, -, -, hframe⟩ := dictAdd_spec h c key val
      rw [dictCall, hd1] at hcall
      cases hcall
      exact ⟨hi, fun p hp => hframe hit p fun hout => hp key (if_neg hout)⟩
  | replace key val =>
      obtain ⟨d1, hd1, -, hi, -, hframe⟩ := dictReplace_spec h c key val
      rw [dictCall, hd1] at hcall
      cases hcall
      exact ⟨hi, fun p hp => hframe hit p fun hout => hp key (if_neg hout)⟩
  | delete key =>
      obtain ⟨d1, hd1, -, hi, -, hframe⟩ := dictDelete_spec h key
      rw [dictCall, hd1] at hcall
      cases hcall
      exact ⟨hi, fun p hp => hframe hit p (hp key rfl)⟩
  | find key =>
      obtain ⟨d1, hd1, -, hstill⟩ := dictFind_spec h key
      rw [dictCall, hd1] at hcall
      cases hcall
      rw [hstill hit]
      exact ⟨rfl, fun p _ => Frame.refl p d⟩
  | rehash n => exact absurd rfl (hmoves n)
  | resize =>
      cases hcall
      exact ⟨(dictResize_same h c).iterators, fun p _ => dictResize_frame h c p⟩
  | expand size =>
      cases hcall
      exact ⟨(dictExpand_same h size).iterators, fun p _ => dictExpand_frame h size p⟩
  | empty => exact absurd rfl hempty
  | enableResize =>
      cases hcall
      exact ⟨rfl, fun p _ => Frame.refl p d⟩
  | disableResize =>
      cases hcall
      exact ⟨rfl, fun p _ => Frame.refl p d⟩

/-- A call keeps the keys it does not delete. -/
theorem dictCall_keeps (h : DictOk hash d) {c c' : Bool} {call : DictCall κ ν} {r : DictReply ν}
    (hempty : call ≠ .empty) (hcall : dictCall hash (d, c) call = some (r, d', c')) {k : κ}
    (hk : k ∈ d.entries.keys) (hdel : k ∉ call.deletes) : k ∈ d'.entries.keys := by
  obtain ⟨m, hl⟩ := Lib.lists_of_nodup h.nodup
  obtain ⟨d1, c1, hcall', -, hl'⟩ := dictCall_refines (c := c) ⟨h, hl⟩ call
  rw [hcall] at hcall'
  cases hcall'
  rw [← hl.mem] at hk
  rw [← hl'.mem]
  cases call with
  | add key val =>
      simp only [mapCall]
      split
      · exact hk
      · exact Finmap.mem_insert.mpr (Or.inr hk)
  | replace key val => exact Finmap.mem_insert.mpr (Or.inr hk)
  | delete key =>
      have hne : k ≠ key := by simpa [DictCall.deletes] using hdel
      exact Finmap.mem_erase.mpr ⟨hne, hk⟩
  | empty => exact absurd rfl hempty
  | _ => exact hk

theorem touched_ne {call : DictCall κ ν} {k : κ} (hk : k ∈ d.entries.keys)
    (hdel : k ∉ call.deletes) : touched d call ≠ some k := by
  cases call with
  | add key val | replace key val =>
      simp only [touched]
      split
      · simp
      · rename_i hout
        rintro ⟨rfl⟩
        exact hout hk
  | delete key =>
      rintro ⟨rfl⟩
      exact hdel (by simp [DictCall.deletes])
  | _ => simp [touched]

/-- **The body of the loop** leaves the iterator where it is, and to return what it would have. -/
theorem body_step (h : DictOk hash d) (ha : Aimed d it) {c c' : Bool} {call : DictCall κ ν}
    {r : DictReply ν} (hmoves : ∀ n, call ≠ .rehash n) (hempty : call ≠ .empty)
    (hdel : ∀ key ∈ call.deletes, it.entry = some key)
    (hcall : dictCall hash (d, c) call = some (r, d', c')) :
    Aimed d' it ∧ ∀ k ∈ d.entries.keys, k ∉ call.deletes →
      (k ∈ pending d' it ↔ k ∈ pending d it) := by
  cases ha with
  | fresh =>
      refine ⟨Aimed.fresh, fun k hk hkd => ?_⟩
      exact iff_of_true (dictCall_keeps h hempty hcall hk hkd) hk
  | @on table i k next hit ht hnext =>
      obtain ⟨hi, hframe⟩ := dictCall_frame h hit hmoves hempty hcall
      have hf := hframe (fun x => decide (touched d call ≠ some x))
        (fun key hkey => by simp [hkey])
      have hsaved : ∀ k', next = some k' → decide (touched d call ≠ some k') = true := by
        intro k' hk'
        obtain ⟨hne, hmem⟩ := hnext k' hk'
        refine decide_eq_true (touched_ne ?_ fun hdk => ?_)
        · cases hc : (d.ht table).table[i]? with
          | none => simp [hc] at hmem
          | some b =>
              rw [hc, Option.getD_some] at hmem
              obtain ⟨e, he, rfl⟩ := List.mem_map.mp hmem
              exact List.mem_keys_of_mem ((h.chain hc).2 e he)
        · exact hne (Option.some.inj (hdel k' hdk)).symm
      refine ⟨aimed_frame hf hi hsaved (Aimed.on hit ht hnext), fun k' hk' hkd => ?_⟩
      exact pending_frame hf hsaved (decide_eq_true (touched_ne hk' hkd))

/-! ## The loop -/

/-- **The invariant of a loop** over what was `d₀` when it began. -/
structure IterInv (hash : κ → UInt32) (d₀ : Dict κ ν) (s : Iteration κ ν) : Prop where
  ok : DictOk hash s.dict
  aimed : s.ended = false → Aimed s.dict s.it
  once : ∀ k ∉ s.deleted, s.returned.count k ≤ 1
  kept : ∀ k ∈ s.returned, k ∉ s.deleted → k ∈ s.dict.entries.keys
  apart : s.ended = false → ∀ k ∈ s.returned, k ∉ s.deleted → k ∉ pending s.dict s.it
  met : ∀ k ∈ d₀.entries.keys, k ∉ s.deleted →
    k ∈ s.returned ∨ s.ended = false ∧ k ∈ pending s.dict s.it

theorem iterInv_begin (h : DictOk hash d) (c : Bool) : IterInv hash d (iteration d c) where
  ok := h
  aimed := fun _ => Aimed.fresh
  once := by simp [iteration]
  kept := by simp [iteration]
  apart := by simp [iteration]
  met := fun k hk _ => Or.inr ⟨rfl, hk⟩

theorem iterInv_next {d₀ : Dict κ ν} {s : Iteration κ ν} (h : IterInv hash d₀ s)
    (hended : s.ended = false) : ∃ s', iterStep hash s .next = some s' ∧ IterInv hash d₀ s' := by
  obtain ⟨r, it', d', hnext, hok, hentries, hsome, hnone⟩ := dictNext_spec h.ok (h.aimed hended)
  simp only [iterStep, hnext, Option.bind_eq_bind, Option.bind_some]
  cases r with
  | none =>
      have hpend := hnone rfl
      refine ⟨_, rfl, hok, by simp, h.once, ?_, by simp, ?_⟩
      · rw [hentries]
        exact h.kept
      · intro k hk hkd
        rcases h.met k hk hkd with hr | ⟨-, hp⟩
        · exact Or.inl hr
        · rw [hpend] at hp
          simp at hp
  | some e =>
      obtain ⟨hin, haimed, hpend⟩ := hsome e rfl
      have hnodup := pending_nodup h.ok s.it
      rw [hpend, List.nodup_cons] at hnodup
      have hfirst : e.1 ∈ pending s.dict s.it := by rw [hpend]; exact List.mem_cons_self
      refine ⟨_, rfl, hok, fun _ => haimed, ?_, ?_, ?_, ?_⟩
      · intro k hk
        rw [List.count_append, List.count_singleton]
        by_cases hke : k = e.1
        · subst hke
          have : e.1 ∉ s.returned := fun hr => h.apart hended _ hr hk hfirst
          rw [List.count_eq_zero_of_not_mem this]
          simp
        · rw [if_neg (by simpa using Ne.symm hke)]
          exact h.once k hk
      · intro k hk hkd
        simp only at hk ⊢
        rw [hentries]
        rcases List.mem_append.mp hk with hr | hke
        · exact h.kept k hr hkd
        · rw [List.mem_singleton.mp hke]
          exact List.mem_keys_of_mem hin
      · intro _ k hk hkd
        rcases List.mem_append.mp hk with hr | hke
        · have := h.apart hended k hr hkd
          rw [hpend, List.mem_cons, not_or] at this
          exact this.2
        · rw [List.mem_singleton.mp hke]
          exact hnodup.1
      · intro k hk hkd
        rcases h.met k hk hkd with hr | ⟨-, hp⟩
        · exact Or.inl (List.mem_append_left _ hr)
        · rw [hpend] at hp
          rcases List.mem_cons.mp hp with rfl | hp
          · exact Or.inl (List.mem_append_right _ List.mem_cons_self)
          · exact Or.inr ⟨hended, hp⟩

theorem iterInv_call {d₀ : Dict κ ν} {s : Iteration κ ν} (h : IterInv hash d₀ s)
    {call : DictCall κ ν} (ha : iterAllowed s (.call call)) :
    ∃ s', iterStep hash s (.call call) = some s' ∧ IterInv hash d₀ s' := by
  have hended : s.ended = false := by
    cases call <;> simp_all [iterAllowed]
  have hmoves : ∀ n, call ≠ .rehash n := by
    rintro n rfl
    exact ha
  have hempty : call ≠ .empty := by
    rintro rfl
    exact ha
  have hdel : ∀ key ∈ call.deletes, s.it.entry = some key := by
    intro key hkey
    cases call <;> simp_all [DictCall.deletes, iterAllowed]
  obtain ⟨m, hl⟩ := Lib.lists_of_nodup h.ok.nodup
  obtain ⟨d', c', hcall, hok, -⟩ := dictCall_refines (c := s.canResize) ⟨h.ok, hl⟩ call
  obtain ⟨haimed, hpend⟩ := body_step h.ok (h.aimed hended) hmoves hempty hdel hcall
  simp only [iterStep, hcall, Option.bind_eq_bind, Option.bind_some]
  have hgone : ∀ {k}, k ∉ call.deletes ++ s.deleted → k ∉ call.deletes ∧ k ∉ s.deleted := by
    intro k hk
    rwa [List.mem_append, not_or] at hk
  refine ⟨_, rfl, hok, fun _ => haimed, fun k hk => h.once k (hgone hk).2, ?_, ?_, ?_⟩
  · intro k hk hkd
    exact dictCall_keeps h.ok hempty hcall (h.kept k hk (hgone hkd).2) (hgone hkd).1
  · intro _ k hk hkd
    rw [hpend k (h.kept k hk (hgone hkd).2) (hgone hkd).1]
    exact h.apart hended k hk (hgone hkd).2
  · intro k hk hkd
    rcases h.met k hk (hgone hkd).2 with hr | ⟨-, hp⟩
    · exact Or.inl hr
    · refine Or.inr ⟨hended, ?_⟩
      exact (hpend k ((pending_sublist _ _).subset hp) (hgone hkd).1).mpr hp

/-- Whatever a loop may do, it can, and keeps the invariant. -/
theorem iterInv_step {d₀ : Dict κ ν} {s : Iteration κ ν} (h : IterInv hash d₀ s)
    {a : IterAct κ ν} (ha : iterAllowed s a) :
    ∃ s', iterStep hash s a = some s' ∧ IterInv hash d₀ s' := by
  cases a with
  | next => exact iterInv_next h ha
  | call c => exact iterInv_call h ha

theorem iterInv_reachable (h : DictOk hash d) {c : Bool} {s : Iteration κ ν}
    (hr : Lib.Reachable (iterStep hash) iterAllowed (IterBegins d c) s) :
    IterInv hash d s := by
  refine hr.invariant ?_ ?_
  · rintro s rfl
    exact iterInv_begin h c
  · intro s a s' hinv ha hs
    obtain ⟨s'', hs', hinv'⟩ := iterInv_step hinv ha
    rw [hs] at hs'
    cases hs'
    exact hinv'

/--
**A safe iterator returns every key exactly once**, whatever the body of the loop does to
the dictionary between two steps. A key that was there at the beginning and is not
deleted has been returned once when the loop is over; no key is returned twice unless it
was deleted; what was returned is still there unless it was deleted. No step reads freed
memory or off a table, and none of the assertions fails.
-/
theorem iterator_exactly_once (h : DictOk hash d) {c : Bool} {s : Iteration κ ν}
    (hr : Lib.Reachable (iterStep hash) iterAllowed (IterBegins d c) s) :
    (s.ended = true → ∀ k ∈ d.entries.keys, k ∉ s.deleted → s.returned.count k = 1) ∧
    (∀ k ∉ s.deleted, s.returned.count k ≤ 1) ∧
    (∀ k ∈ s.returned, k ∉ s.deleted → k ∈ s.dict.entries.keys) ∧
    ∀ a, iterAllowed s a → ∃ s', iterStep hash s a = some s' := by
  have hinv := iterInv_reachable h hr
  refine ⟨fun hended k hk hkd => ?_, hinv.once, hinv.kept, fun a ha => ?_⟩
  · have hin : k ∈ s.returned := by
      rcases hinv.met k hk hkd with hin | ⟨hnot, -⟩
      · exact hin
      · rw [hended] at hnot
        simp at hnot
    have hpos := List.count_pos_iff.mpr hin
    have := hinv.once k hkd
    omega
  · obtain ⟨s', hs, -⟩ := iterInv_step hinv ha
    exact ⟨s', hs⟩

end Keys

/-- Five keys, the last of them added when the table was full: the first bucket is still to move. -/
def fiveRehashing : Dict Nat String where
  ht0 := ⟨[[⟨4, "c"⟩], [⟨5, "b"⟩, ⟨1, "a"⟩], [⟨2, "d"⟩], []], 4⟩
  ht1 := ⟨[[], [], [], [⟨3, "e"⟩], [], [], [], []], 1⟩
  rehashidx := some 0
  iterators := 0

theorem dictOk_fiveRehashing : DictOk (fun k => UInt32.ofNat k) fiveRehashing := by
  have hrun : (dictRun (fun k => UInt32.ofNat k) (dictCreate, true)
      [.add 1 "a", .add 5 "b", .add 4 "c", .add 2 "d", .add 3 "e"]).map Prod.snd =
        some (fiveRehashing, true) := by decide
  exact dictOk_of_run hrun

/-- A loop that deletes the first key it is given and adds one that the second table gets. -/
def deletesFirst : List (IterAct Nat String) :=
  [.next, .call (.delete 4), .call (.add 8 "f"), .next, .next, .next, .next, .next, .next]

theorem iterator_exactly_once_fiveRehashing :
    ∃ s, Lib.Reachable (iterStep fun k => UInt32.ofNat k) iterAllowed
        (IterBegins fiveRehashing true) s ∧
      s.returned = [4, 5, 1, 2, 8, 3] ∧ s.deleted = [4] ∧ s.ended = true ∧
      ∀ k ∈ fiveRehashing.entries.keys, k ∉ s.deleted → s.returned.count k = 1 := by
  obtain ⟨s, hr, hret, hdel, hended⟩ := Lib.reachable_of_run
    (iterStep fun k => UInt32.ofNat k) iterAllowed deletesFirst
    (fun s => s.returned = [4, 5, 1, 2, 8, 3] ∧ s.deleted = [4] ∧ s.ended = true)
    (show IterBegins fiveRehashing true _ from rfl) (by decide)
  exact ⟨s, hr, hret, hdel, hended,
    (iterator_exactly_once dictOk_fiveRehashing hr).1 hended⟩

end BetterEfisis.Redis

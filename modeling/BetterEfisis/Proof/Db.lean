import BetterEfisis.Proof.DictMap
import BetterEfisis.Redis.Keyspace

/-!
# A database is a map whose keys have an end

`Keeps s σ`: the two dictionaries of a server hold the values and the deadlines of `σ`.
Each function over a database does to `σ` what it is for; looking at a key may remove it
(`settle`), which from then on makes no difference (`Lib.live_settle`).
-/

namespace BetterEfisis.Redis

open Lib (live settle)

/-! ## A dictionary by its lookups -/

section Holds

variable {κ ν : Type} [DecidableEq κ] {hash : κ → UInt32} {d d' : Dict κ ν} {m : κ → Option ν}
  {n : Nat}

/-- The dictionary has the values of `m`, and `n` iterators are under way. -/
structure Holds (hash : κ → UInt32) (d : Dict κ ν) (m : κ → Option ν) (n : Nat) : Prop where
  ok : DictOk hash d
  get : ∀ k, d.entries.dlookup k = m k
  iterators : d.iterators = n

theorem holds_create : Holds hash (dictCreate : Dict κ ν) (fun _ => none) 0 :=
  ⟨dictOk_create, fun _ => rfl, rfl⟩

theorem Holds.mem (h : Holds hash d m n) {key : κ} :
    key ∈ d.entries.keys ↔ (m key).isSome = true := by
  rw [← h.get, List.dlookup_isSome]

theorem Holds.perm (h : Holds hash d m n) (hok : DictOk hash d') (hp : d'.entries.Perm d.entries)
    (hi : d'.iterators = d.iterators) : Holds hash d' m n :=
  ⟨hok, fun k => by rw [List.perm_dlookup k hok.nodup hp, h.get], hi.trans h.iterators⟩

theorem Holds.same (h : Holds hash d m n) (hs : Same hash d d') : Holds hash d' m n :=
  h.perm hs.ok hs.entries hs.iterators

/-- No entries counted, no entries. -/
theorem Holds.empty (h : Holds hash d m n) (hs : d.size = 0) (k : κ) : m k = none := by
  have hnil : d.entries = [] := by
    rw [← List.length_eq_zero_iff, Dict.entries, List.length_append, ← h.ok.first.used,
      ← h.ok.second.used]
    exact hs
  rw [← h.get, hnil]
  rfl

theorem Holds.find (h : Holds hash d m n) (key : κ) :
    ∃ d', dictFind hash d key = some (m key, d') ∧ Holds hash d' m n ∧ (0 < n → d' = d) := by
  obtain ⟨d', hd', hsame, hstill⟩ := dictFind_spec h.ok key
  rw [h.get] at hd'
  exact ⟨d', hd', h.same hsame, fun hn => hstill (h.iterators ▸ hn)⟩

theorem Holds.add (h : Holds hash d m n) (canResize : Bool) {key : κ} (hk : m key = none)
    (val : ν) : ∃ d', dictAdd hash canResize d key val = some (true, d') ∧
      Holds hash d' (Function.update m key (some val)) n := by
  have hout : key ∉ d.entries.keys := by
    rw [h.mem, hk]
    simp
  obtain ⟨d', hd', hok, hi, -, -, hnew, -⟩ := dictAdd_spec h.ok canResize key val
  refine ⟨d', by rw [hd']; simp [hout], hok, fun k => ?_, hi.trans h.iterators⟩
  rw [List.perm_dlookup k hok.nodup (hnew hout)]
  by_cases hkk : k = key
  · rw [hkk, List.dlookup_cons_eq, Function.update_self]
  · rw [List.dlookup_cons_ne d.entries (⟨key, val⟩ : DictEntry κ ν) hkk, h.get,
      Function.update_of_ne hkk]

theorem Holds.replace (h : Holds hash d m n) (canResize : Bool) (key : κ) (val : ν) :
    ∃ b d', dictReplace hash canResize d key val = some (b, d') ∧
      Holds hash d' (Function.update m key (some val)) n := by
  obtain ⟨d', hd', hok, hi, hperm, -⟩ := dictReplace_spec h.ok canResize key val
  refine ⟨_, d', hd', hok, fun k => ?_, hi.trans h.iterators⟩
  rw [List.perm_dlookup k hok.nodup hperm]
  by_cases hkk : k = key
  · rw [hkk, List.dlookup_kinsert, Function.update_self]
  · rw [List.dlookup_kinsert_ne hkk, h.get, Function.update_of_ne hkk]

theorem Holds.delete (h : Holds hash d m n) (key : κ) :
    ∃ d', dictGenericDelete hash d key = some ((m key).isSome, d') ∧
      Holds hash d' (Function.update m key none) n := by
  obtain ⟨d', hd', hok, hi, hperm, -⟩ := dictDelete_spec h.ok key
  refine ⟨d', ?_, hok, fun k => ?_, hi.trans h.iterators⟩
  · rw [hd']
    congr 2
    rw [Bool.eq_iff_iff, decide_eq_true_iff, h.mem]
  · rw [List.perm_dlookup k hok.nodup hperm]
    by_cases hkk : k = key
    · rw [hkk, List.dlookup_kerase key h.ok.nodup, Function.update_self]
    · rw [List.dlookup_kerase_ne hkk, h.get, Function.update_of_ne hkk]

/-- A key that is there, overwritten without asking. -/
theorem Holds.setVal (h : Holds hash d m n) {key : κ} (hk : (m key).isSome = true) (val : ν) :
    ∃ d', dictSetVal hash d key val = some d' ∧
      Holds hash d' (Function.update m key (some val)) n := by
  have hin := h.mem.mpr hk
  obtain ⟨d', hd', hok, hi, hentries, -⟩ := dictSetVal_spec h.ok hin val
  refine ⟨d', hd', hok, fun k => ?_, hi.trans h.iterators⟩
  rw [hentries, List.perm_dlookup k ((List.kreplace_nodupKeys key val).mpr h.ok.nodup)
    (Lib.kreplace_perm hin val)]
  by_cases hkk : k = key
  · rw [hkk, List.dlookup_kinsert, Function.update_self]
  · rw [List.dlookup_kinsert_ne hkk, h.get, Function.update_of_ne hkk]

theorem Holds.replaceRaw (h : Holds hash d m n) (canResize : Bool) (key : κ) (val : ν) :
    ∃ d', dictReplaceRaw hash canResize d key val = some d' ∧
      Holds hash d' (Function.update m key (some val)) n := by
  obtain ⟨d1, hd1, h1, -⟩ := h.find key
  unfold dictReplaceRaw
  simp only [hd1, Option.bind_eq_bind, Option.bind_some]
  cases hk : m key with
  | some v => exact h1.setVal (by rw [hk]; rfl) val
  | none =>
      obtain ⟨d2, hd2, h2⟩ := h1.add canResize hk val
      exact ⟨d2, by simp [hd2], h2⟩

theorem Holds.randomKey (h : Holds hash d m n) (pick : Nat) :
    ∃ e d', dictGetRandomKey hash d pick = some (e, d') ∧ Holds hash d' m n ∧
      ∀ e', e = some e' → m e'.1 = some e'.2 := by
  unfold dictGetRandomKey
  by_cases hs : d.size = 0
  · exact ⟨none, d, by rw [if_pos hs], h, by simp⟩
  · obtain ⟨d1, hd1, hsame⟩ := rehashOnAccess_spec h.ok
    have h1 := h.same hsame
    have hlen : 0 < d1.entries.length := by
      rw [hsame.entries.length_eq, Dict.entries, List.length_append, ← h.ok.first.used,
        ← h.ok.second.used]
      exact Nat.pos_of_ne_zero hs
    have hlt := Nat.mod_lt pick hlen
    refine ⟨some (d1.entries.get ⟨_, hlt⟩), d1, ?_, h1, ?_⟩
    · rw [if_neg hs]
      simp [hd1, List.getElem?_eq_getElem hlt]
    · rintro e ⟨rfl⟩
      rw [← h1.get]
      exact List.mem_dlookup h1.ok.nodup (List.getElem_mem hlt)

theorem Holds.rehashMilliseconds (h : Holds hash d m n) (rounds : Nat) :
    ∃ d', dictRehashMilliseconds hash rounds d = some d' ∧ Holds hash d' m n := by
  induction rounds generalizing d with
  | zero => exact ⟨d, rfl, h⟩
  | succ rounds ih =>
      obtain ⟨b, d1, hd1, hsame⟩ :
          ∃ b d1, dictRehash hash 100 d = some (b, d1) ∧ Same hash d d1 := by
        obtain ⟨d1, hd1, hsame⟩ := dictRehash_spec h.ok 100
        exact ⟨_, d1, hd1, hsame⟩
      have h1 := h.same hsame
      rw [dictRehashMilliseconds, hd1]
      cases b with
      | false => exact ⟨d1, rfl, h1⟩
      | true => exact ih h1

end Holds

/-! ## The functions over a database -/

section Db

variable {π : Type} {hash : Sds → UInt32} {s : Server π} {σ : Space π} {n : Nat} {key : Sds}

/-- A master's database holds `σ`, and `n` iterators go over its keys. -/
structure Keeps (hash : Sds → UInt32) (s : Server π) (σ : Space π) (n : Nat) : Prop where
  dict : Holds hash s.dict (fun k => (σ k).map Prod.fst) n
  expires : Holds hash s.expires (fun k => (σ k).bind Prod.snd) 0
  loading : s.loading = false
  masterhost : s.masterhost = false

theorem Keeps.set_dict (h : Keeps hash s σ n) {d : Dict Sds (Robj π)}
    (hd : Holds hash d (fun k => (σ k).map Prod.fst) n) : Keeps hash { s with dict := d } σ n :=
  ⟨hd, h.expires, h.loading, h.masterhost⟩

theorem Keeps.set_expires (h : Keeps hash s σ n) {d : Dict Sds Int}
    (hd : Holds hash d (fun k => (σ k).bind Prod.snd) 0) :
    Keeps hash { s with expires := d } σ n :=
  ⟨h.dict, hd, h.loading, h.masterhost⟩

/-- Both dictionaries changed in one key. -/
theorem Keeps.update (h : Keeps hash s σ n) {d : Dict Sds (Robj π)} {x : Dict Sds Int}
    {e : Option (Robj π × Option Int)}
    (hd : Holds hash d (Function.update (fun k => (σ k).map Prod.fst) key (e.map Prod.fst)) n)
    (hx : Holds hash x (Function.update (fun k => (σ k).bind Prod.snd) key (e.bind Prod.snd)) 0) :
    Keeps hash { s with dict := d, expires := x } (Function.update σ key e) n where
  dict := by
    have : (fun k => (Function.update σ key e k).map Prod.fst) =
        Function.update (fun k => (σ k).map Prod.fst) key (e.map Prod.fst) :=
      Function.comp_update (Option.map Prod.fst) σ key e
    rw [this]
    exact hd
  expires := by
    have : (fun k => (Function.update σ key e k).bind Prod.snd) =
        Function.update (fun k => (σ k).bind Prod.snd) key (e.bind Prod.snd) :=
      Function.comp_update (fun o : Option (Robj π × Option Int) => o.bind Prod.snd) σ key e
    rw [this]
    exact hx
  loading := h.loading
  masterhost := h.masterhost

theorem mstime_spec (h : Keeps hash s σ n) :
    (mstime s).1 = (mstime s).2.now ∧ s.now ≤ (mstime s).2.now ∧ Keeps hash (mstime s).2 σ n ∧
      (mstime s).2.dict = s.dict ∧ (mstime s).2.canResize = s.canResize := by
  unfold mstime
  split
  · exact ⟨rfl, le_refl _, h, rfl, rfl⟩
  · exact ⟨rfl, Nat.le_add_right _ _, ⟨h.dict, h.expires, h.loading, h.masterhost⟩,
      rfl, rfl⟩

theorem lookupKey_spec (h : Keeps hash s σ n) (key : Sds) :
    ∃ s', lookupKey hash s key = some ((σ key).map Prod.fst, s') ∧ Keeps hash s' σ n ∧
      s'.now = s.now := by
  obtain ⟨d, hd, hholds, -⟩ := h.dict.find key
  exact ⟨_, by simp [lookupKey, hd], h.set_dict hholds, rfl⟩

/-- The deadline of a key that has one is found, with the key, in both dictionaries. -/
theorem getExpire_spec (h : Keeps hash s σ n) (key : Sds) :
    ∃ s', getExpire hash s key = some (((σ key).bind Prod.snd).getD (-1), s') ∧
      Keeps hash s' σ n ∧ s'.now = s.now ∧ s'.canResize = s.canResize ∧
      (0 < n → s'.dict = s.dict) := by
  unfold getExpire
  by_cases hs : s.expires.size = 0
  · refine ⟨s, ?_, h, rfl, rfl, fun _ => rfl⟩
    rw [if_pos hs, h.expires.empty hs]
    rfl
  · obtain ⟨x, hx, hholds, -⟩ := h.expires.find key
    simp only [if_neg hs, hx, Option.bind_eq_bind, Option.bind_some]
    cases hw : (σ key).bind Prod.snd with
    | none => exact ⟨_, rfl, h.set_expires hholds, rfl, rfl, fun _ => rfl⟩
    | some w =>
        obtain ⟨d, hd, hdict, hstill⟩ := h.dict.find key
        obtain ⟨e, he, -⟩ := Option.bind_eq_some_iff.mp hw
        refine ⟨_, by simp [hd, he], (h.set_dict hdict).set_expires hholds, rfl, rfl, hstill⟩

theorem dbDelete_spec (h : Keeps hash s σ n) (key : Sds) :
    ∃ s', dbDelete hash s key = some ((σ key).isSome, s') ∧
      Keeps hash s' (Function.update σ key none) n ∧ s'.now = s.now ∧
      s'.canResize = s.canResize ∧
      dictGenericDelete hash s.dict key = some ((σ key).isSome, s'.dict) := by
  obtain ⟨d, hd, hdict⟩ := h.dict.delete key
  simp only [Option.isSome_map] at hd
  unfold dbDelete
  by_cases hs : s.expires.size > 0
  · obtain ⟨x, hx, hexpires⟩ := h.expires.delete key
    exact ⟨{ s with dict := d, expires := x }, by simp [hs, hx, hd],
      h.update hdict hexpires, rfl, rfl, hd⟩
  · have hnone := h.expires.empty (Nat.eq_zero_of_not_pos hs)
    refine ⟨{ s with dict := d }, by simp [hs, hd], h.update hdict ?_, rfl, rfl, hd⟩
    rw [Option.bind_none, Function.update_eq_self_iff.mpr (hnone key).symm]
    exact h.expires

/-- A key without a deadline is there at any time. -/
theorem live_undated (h : (σ key).bind Prod.snd = none) (t : Int) : live t σ key = σ key := by
  cases he : σ key with
  | none => exact Lib.live_none he t
  | some e =>
      rw [he, Option.bind_some] at h
      rw [live, he, Option.filter_some, Lib.inTime, h]
      rfl

theorem live_dated {v : Robj π} {w : Int} (h : σ key = some (v, some w)) (t : Int) :
    live t σ key = if w < 0 ∨ t ≤ w then some (v, some w) else none := by
  rw [live, h, Option.filter_some]
  simp [Lib.inTime, Lib.Deadline.holds]

/-- **A key is removed once its deadline has passed**, and not before. -/
theorem expireIfNeeded_spec (h : Keeps hash s σ n) (key : Sds) :
    ∃ r s', expireIfNeeded hash s key = some (r, s') ∧
      Keeps hash s' (settle (s'.now : Int) key σ) n ∧
      s.now ≤ s'.now ∧ (r = true ↔ σ key ≠ none ∧ live (s'.now : Int) σ key = none) ∧
      s'.canResize = s.canResize ∧
      (0 < n → (r = false ∧ s'.dict = s.dict) ∨
        (r = true ∧ dictGenericDelete hash s.dict key = some (true, s'.dict))) := by
  obtain ⟨s1, hs1, h1, hnow1, hcan1, hstill1⟩ := getExpire_spec h key
  unfold expireIfNeeded
  simp only [hs1, Option.bind_eq_bind, Option.bind_some]
  -- a key that is still there is left alone
  have stays : ∀ {s' : Server π}, live (s'.now : Int) σ key = σ key → Keeps hash s' σ n →
      Keeps hash s' (settle (s'.now : Int) key σ) n := by
    intro s' hlive h'
    rw [settle, hlive, Function.update_eq_self]
    exact h'
  cases hw : (σ key).bind Prod.snd with
  | none =>
      have hlive := live_undated hw (s1.now : Int)
      exact ⟨false, s1, by simp, stays hlive h1, hnow1.ge, by simp [hlive], hcan1,
        fun hn => Or.inl ⟨rfl, hstill1 hn⟩⟩
  | some w =>
      obtain ⟨⟨v, e⟩, he, rfl⟩ := Option.bind_eq_some_iff.mp hw
      rw [Option.getD_some]
      by_cases hneg : w < 0
      · have hlive : live (s1.now : Int) σ key = σ key := by
          rw [live_dated he, if_pos (Or.inl hneg), he]
        exact ⟨false, s1, by rw [if_pos hneg], stays hlive h1, hnow1.ge, by simp [hlive], hcan1,
          fun hn => Or.inl ⟨rfl, hstill1 hn⟩⟩
      obtain ⟨hread, hle, h2, hdict2, hcan2⟩ := mstime_spec h1
      simp only [if_neg hneg, h1.loading, hread, h2.masterhost, Bool.false_eq_true, if_false]
      by_cases hdue : ((mstime s1).2.now : Int) ≤ w
      · have hlive : live ((mstime s1).2.now : Int) σ key = σ key := by
          rw [live_dated he, if_pos (Or.inr hdue), he]
        exact ⟨false, (mstime s1).2, by rw [if_pos hdue], stays hlive h2, by omega,
          by simp [hlive], hcan2.trans hcan1, fun hn => Or.inl ⟨rfl, hdict2.trans (hstill1 hn)⟩⟩
      · have hlive : live ((mstime s1).2.now : Int) σ key = none := by
          rw [live_dated he, if_neg (by omega)]
        obtain ⟨s3, hs3, h3, hnow3, hcan3, hdel3⟩ := dbDelete_spec h2 key
        rw [he, Option.isSome_some] at hs3 hdel3
        refine ⟨true, s3, by rw [if_neg hdue, hs3], ?_, by omega, by simp [hnow3, hlive, he],
          hcan3.trans (hcan2.trans hcan1), fun hn => Or.inr ⟨rfl, ?_⟩⟩
        · rw [settle, hnow3, hlive]
          exact h3
        · rw [← hstill1 hn, ← hdict2]
          exact hdel3

theorem lookupKeyWrite_spec (h : Keeps hash s σ n) (key : Sds) :
    ∃ s', lookupKeyWrite hash s key = some ((live (s'.now : Int) σ key).map Prod.fst, s') ∧
      Keeps hash s' (settle (s'.now : Int) key σ) n ∧ s.now ≤ s'.now := by
  obtain ⟨r, s1, hs1, h1, hle, -⟩ := expireIfNeeded_spec h key
  obtain ⟨s2, hs2, h2, hnow⟩ := lookupKey_spec h1 key
  rw [Lib.settle_self] at hs2
  refine ⟨s2, ?_, ?_, by omega⟩
  · simp only [lookupKeyWrite, hs1, hs2, Option.bind_eq_bind, Option.bind_some, hnow]
  · rw [hnow]
    exact h2

theorem dbAdd_spec (h : Keeps hash s σ n) (hk : σ key = none) (val : Robj π) :
    ∃ s', dbAdd hash s key val = some s' ∧
      Keeps hash s' (Function.update σ key (some (val, none))) n ∧ s'.now = s.now := by
  obtain ⟨d, hd, hdict⟩ := h.dict.add s.canResize (by rw [hk]; rfl) val
  refine ⟨{ s with dict := d }, by simp [dbAdd, hd], h.update hdict ?_, rfl⟩
  have hsame : (σ key).bind Prod.snd = none := by rw [hk]; rfl
  rw [Option.bind_some, Function.update_eq_self_iff.mpr hsame.symm]
  exact h.expires

theorem dbOverwrite_spec (h : Keeps hash s σ n) {v : Robj π} {w : Option Int}
    (hk : σ key = some (v, w)) (val : Robj π) :
    ∃ s', dbOverwrite hash s key val = some s' ∧
      Keeps hash s' (Function.update σ key (some (val, w))) n ∧ s'.now = s.now := by
  obtain ⟨d1, hd1, h1, -⟩ := h.dict.find key
  obtain ⟨b, d2, hd2, h2⟩ := h1.replace s.canResize key val
  refine ⟨{ s with dict := d2 }, by simp [dbOverwrite, hd1, hk, hd2], h.update h2 ?_, rfl⟩
  have hsame : (σ key).bind Prod.snd = w := by rw [hk]; rfl
  rw [Option.bind_some, Function.update_eq_self_iff.mpr hsame.symm]
  exact h.expires

theorem removeExpire_spec (h : Keeps hash s σ n) {v : Robj π} {w : Option Int}
    (hk : σ key = some (v, w)) :
    ∃ s', removeExpire hash s key = some (w.isSome, s') ∧
      Keeps hash s' (Function.update σ key (some (v, none))) n ∧ s'.now = s.now := by
  obtain ⟨d, hd, hdict, -⟩ := h.dict.find key
  obtain ⟨x, hx, hexpires⟩ := h.expires.delete key
  refine ⟨{ s with dict := d, expires := x }, ?_, h.update ?_ hexpires, rfl⟩
  · simp [removeExpire, hd, hk, hx]
  · have hsame : (σ key).map Prod.fst = some v := by rw [hk]; rfl
    rw [Option.map_some, Function.update_eq_self_iff.mpr hsame.symm]
    exact hdict

theorem setExpire_spec (h : Keeps hash s σ n) {v : Robj π} {w : Option Int}
    (hk : σ key = some (v, w)) (when : Int) :
    ∃ s', setExpire hash s key when = some s' ∧
      Keeps hash s' (Function.update σ key (some (v, some when))) n ∧ s'.now = s.now := by
  obtain ⟨d, hd, hdict, -⟩ := h.dict.find key
  obtain ⟨x, hx, hexpires⟩ := h.expires.replaceRaw s.canResize key when
  refine ⟨{ s with dict := d, expires := x }, ?_, h.update ?_ hexpires, rfl⟩
  · simp [setExpire, hd, hk, hx]
  · have hsame : (σ key).map Prod.fst = some v := by rw [hk]; rfl
    rw [Option.map_some, Function.update_eq_self_iff.mpr hsame.symm]
    exact hdict

/-- A key set is there, and has no deadline. -/
theorem setKey_spec (h : Keeps hash s σ n) (key : Sds) (val : Robj π) :
    ∃ s', setKey hash s key val = some s' ∧
      Keeps hash s' (Function.update σ key (some (val, none))) n ∧ s.now ≤ s'.now := by
  obtain ⟨s1, hs1, h1, hle⟩ := lookupKeyWrite_spec h key
  unfold setKey
  simp only [hs1, Option.bind_eq_bind, Option.bind_some]
  cases he : live (s1.now : Int) σ key with
  | none =>
      obtain ⟨s2, hs2, h2, hnow2⟩ := dbAdd_spec h1 (by rw [Lib.settle_self, he]) val
      obtain ⟨s3, hs3, h3, hnow3⟩ := removeExpire_spec h2 (Function.update_self ..)
      refine ⟨s3, by simp [hs2, hs3], ?_, by omega⟩
      rwa [Function.update_idem, Lib.update_settle] at h3
  | some e =>
      obtain ⟨v, w⟩ := e
      obtain ⟨s2, hs2, h2, hnow2⟩ := dbOverwrite_spec h1 (by rw [Lib.settle_self, he]) val
      obtain ⟨s3, hs3, h3, hnow3⟩ := removeExpire_spec h2 (Function.update_self ..)
      refine ⟨s3, by simp [hs2, hs3], ?_, by omega⟩
      rwa [Function.update_idem, Lib.update_settle] at h3

end Db

end BetterEfisis.Redis

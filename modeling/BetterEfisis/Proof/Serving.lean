import BetterEfisis.Proof.Keys

/-!
# What a client sees of the server

Every command, from any state of the two dictionaries, is answered as one on a key space
in which keys are gone at their deadlines (`call_answers`); keys that are gone may be
removed as it is served, and by the cron. So is every run (`serverRun_served`).
-/

namespace BetterEfisis.Redis

open Lib (live settle Purged)

variable {π : Type} {hash : Sds → UInt32} {s : Server π} {σ : Space π} {key : Sds}

/--
A result in which the time, what was made of the keys and the reply are as `P` says; keys
that are gone may have been removed besides.
-/
def Meets (hash : Sds → UInt32) (s : Server π) (P : Int → Space π → Reply → Prop)
    (result : Option (Reply × Server π)) : Prop :=
  ∃ r s' σ' σ'', result = some (r, s') ∧ Keeps hash s' σ'' 0 ∧ s.now ≤ s'.now ∧
    P s'.now σ' r ∧ Purged (s'.now : Int) σ' σ''

/-- A key looked at does not look different. -/
theorem live_looked {t₁ t : Nat} (h : t₁ ≤ t) (key : Sds) (σ : Space π) :
    live (t : Int) (settle (t₁ : Int) key σ) = live (t : Int) σ :=
  Lib.live_settle (by omega) key σ

/-- It may have been removed, if it is gone. -/
theorem purged_looked {t₁ t : Nat} (h : t₁ ≤ t) (key : Sds) (σ : Space π) :
    Purged (t : Int) σ (settle (t₁ : Int) key σ) :=
  (Lib.purged_settle (t₁ : Int) key σ).trans (Purged.refl _ _) (by omega)

theorem there_before {t₀ t : Nat} (h : t₀ ≤ t) {e : Robj π × Option Int}
    (he : live (t : Int) σ key = some e) : live (t₀ : Int) σ key = some e :=
  Lib.live_of_later (by omega) he

theorem gone_after {t₀ t : Nat} (h : t₀ ≤ t) (hn : live (t₀ : Int) σ key = none) :
    live (t : Int) σ key = none :=
  Lib.live_none_of_earlier (by omega) hn

/-! ## `GET` and `SET` -/

theorem get_answers (h : Keeps hash s σ 0) (key : Sds) :
    Meets hash s (fun t σ' r => Answers σ s.now t σ' r (.get key))
      (getGenericCommand hash s key) := by
  obtain ⟨s1, hs1, h1, hle⟩ := lookupKeyWrite_spec h key
  exact ⟨getReply ((live (s1.now : Int) σ key).map Prod.fst), s1, σ, _,
    by simp [getGenericCommand, hs1], h1, hle, ⟨rfl, rfl⟩, purged_looked le_rfl key σ⟩

/--
Whether `NX` or `XX` keep the key from being set, at the time it is decided. The key may have
been removed, which what is then written under it makes up for.
-/
theorem setAborts_spec (h : Keeps hash s σ 0) (o : SetOptions) (key : Sds) :
    ∃ b s' σ', setAborts hash s o key = some (b, s') ∧ Keeps hash s' σ' 0 ∧ s.now ≤ s'.now ∧
      Purged (s'.now : Int) σ σ' ∧ (∀ e, Function.update σ' key e = Function.update σ key e) ∧
      (b = true → o.nx = true ∧ live (s'.now : Int) σ key ≠ none ∨
        o.xx = true ∧ live (s'.now : Int) σ key = none) ∧
      (b = false → (o.nx = true → live (s'.now : Int) σ key = none) ∧
        (o.xx = true → live (s'.now : Int) σ key ≠ none)) := by
  have hlooked := fun (t : Int) e => Lib.update_settle t key σ e
  unfold setAborts
  cases hnx : o.nx with
  | true =>
      obtain ⟨s1, hs1, h1, hle1⟩ := lookupKeyWrite_spec h key
      cases he : live (s1.now : Int) σ key with
      | some e =>
          exact ⟨true, s1, _, by simp [hs1, he], h1, hle1, purged_looked le_rfl key σ,
            hlooked _, by simp [he], by simp⟩
      | none =>
          cases hxx : o.xx with
          | false =>
              exact ⟨false, s1, _, by simp [hs1, he], h1, hle1, purged_looked le_rfl key σ,
                hlooked _, by simp, by simp [he]⟩
          | true =>
              -- with both options the key would have to be there and not be there
              obtain ⟨s2, hs2, h2, hle2⟩ := lookupKeyWrite_spec h1 key
              have hn := gone_after hle2 he
              rw [live_looked hle2, hn] at hs2
              refine ⟨true, s2, _, by simp [hs1, he, hs2], h2, hle1.trans hle2, ?_,
                fun e => (Lib.update_settle ..).trans (hlooked _ e), by simp [hn], by simp⟩
              exact (purged_looked hle2 key σ).trans (purged_looked le_rfl key _) le_rfl
  | false =>
      cases hxx : o.xx with
      | false =>
          exact ⟨false, s, σ, by simp, h, le_refl _, Purged.refl _ _, fun _ => rfl, by simp,
            by simp⟩
      | true =>
          obtain ⟨s1, hs1, h1, hle1⟩ := lookupKeyWrite_spec h key
          cases he : live (s1.now : Int) σ key with
          | some e =>
              exact ⟨false, s1, _, by simp [hs1, he], h1, hle1, purged_looked le_rfl key σ,
                hlooked _, by simp, by simp [he]⟩
          | none =>
              exact ⟨true, s1, _, by simp [hs1, he], h1, hle1, purged_looked le_rfl key σ,
                hlooked _, by simp [he], by simp⟩

theorem set_answers (h : Keeps hash s σ 0) (o : SetOptions) (key val : Sds)
    (okReply abortReply : Reply) :
    Meets hash s (fun t σ' r => SetAnswers σ s.now t σ' r o key val okReply abortReply)
      (setGenericCommand hash s o key val okReply abortReply) := by
  unfold setGenericCommand SetAnswers
  cases hms : setMilliseconds o with
  | error e => exact ⟨e, s, σ, σ, rfl, h, le_refl _, ⟨rfl, rfl⟩, Purged.refl _ _⟩
  | ok ms =>
      obtain ⟨b, s1, σ1, hs1, h1, hle1, hpurged, hover, habort, hgo⟩ := setAborts_spec h o key
      simp only [hs1, Option.bind_eq_bind, Option.bind_some]
      cases b with
      | true =>
          exact ⟨abortReply, s1, σ, σ1, rfl, h1, hle1, Or.inl ⟨rfl, rfl, habort rfl⟩, hpurged⟩
      | false =>
          obtain ⟨hnx, hxx⟩ := hgo rfl
          obtain ⟨s2, hs2, h2, hle2⟩ := setKey_spec h1 key (.string val)
          rw [hover] at h2
          simp only [hs2, Option.bind_some, Bool.false_eq_true, if_false]
          have hnx' : ∀ {t : Nat}, s1.now ≤ t → o.nx = true → live (t : Int) σ key = none :=
            fun ht hn => gone_after ht (hnx hn)
          have hxx' : o.xx = true → live (s.now : Int) σ key ≠ none := fun hx hn =>
            hxx hx (gone_after hle1 hn)
          cases ms with
          | none =>
              exact ⟨okReply, s2, _, _, rfl, h2, hle1.trans hle2,
                Or.inr ⟨rfl, hnx' hle2, hxx', rfl⟩, Purged.refl _ _⟩
          | some ms =>
              obtain ⟨hread, hle3, h3, -⟩ := mstime_spec h2
              obtain ⟨s4, hs4, h4, hnow4⟩ := setExpire_spec h3 (Function.update_self ..)
                (longLong ((mstime s2).1 + ms))
              rw [Function.update_idem, hread, ← hnow4] at h4
              have hle : s1.now ≤ s4.now := by omega
              exact ⟨okReply, s4, _, _, by simp [hs4], h4, hle1.trans hle,
                Or.inr ⟨rfl, hnx' hle, hxx', rfl⟩, Purged.refl _ _⟩

theorem getset_answers (h : Keeps hash s σ 0) (key val : Sds) :
    Meets hash s (fun t σ' r => Answers σ s.now t σ' r (.getset key val))
      (getsetCommand hash s key val) := by
  obtain ⟨s1, hs1, h1, hle1⟩ := lookupKeyWrite_spec h key
  unfold getsetCommand
  simp only [getGenericCommand, hs1, Option.bind_eq_bind, Option.bind_some]
  by_cases hw : getReply ((live (s1.now : Int) σ key).map Prod.fst) = Reply.wrongtypeerr
  · exact ⟨_, s1, σ, _, by rw [if_pos hw], h1, hle1,
      ⟨s1.now, by omega, le_refl _, rfl, by rw [if_pos hw]⟩, purged_looked le_rfl key σ⟩
  · obtain ⟨s2, hs2, h2, hle2⟩ := setKey_spec h1 key (.string val)
    rw [Lib.update_settle] at h2
    exact ⟨_, s2, _, _, by rw [if_neg hw, hs2]; rfl, h2, hle1.trans hle2,
      ⟨s1.now, by omega, by omega, rfl, by rw [if_neg hw]; rfl⟩, Purged.refl _ _⟩

/-! ## `DEL`, `EXISTS` and `KEYS` -/

/-- Deleting key after key: each key counts once. -/
theorem delLoop_spec (keys : List Sds) : ∀ {s : Server π} {σ : Space π} (_ : Keeps hash s σ 0)
    (deleted : Nat), ∃ s', delLoop hash keys s deleted =
        some (deleted + (keys.toFinset.filter fun k => (σ k).isSome).card, s') ∧
      Keeps hash s' (fun k => if k ∈ keys then none else σ k) 0 ∧ s'.now = s.now := by
  induction keys with
  | nil => intro s σ h deleted; exact ⟨s, rfl, by simpa using h, rfl⟩
  | cons key keys ih =>
      intro s σ h deleted
      obtain ⟨s1, hs1, h1, hnow1, -, -⟩ := dbDelete_spec h key
      obtain ⟨s2, hs2, h2, hnow2⟩ := ih h1 (if (σ key).isSome then deleted + 1 else deleted)
      have hrest : keys.toFinset.filter (fun k => (Function.update σ key none k).isSome = true) =
          (keys.toFinset.filter fun k => (σ k).isSome = true).erase key := by
        ext k
        by_cases hk : k = key
        · simp [hk]
        · simp [hk]
      refine ⟨s2, ?_, ?_, hnow2.trans hnow1⟩
      · rw [delLoop]
        simp only [hs1, Option.bind_eq_bind, Option.bind_some, hs2, hrest]
        congr 2
        rw [List.toFinset_cons, Finset.filter_insert]
        by_cases hk : (σ key).isSome = true
        · have hone := Finset.card_erase_add_one (Finset.mem_insert_self key
            (keys.toFinset.filter fun k => (σ k).isSome = true))
          rw [Finset.erase_insert_eq_erase] at hone
          rw [if_pos hk, if_pos hk]
          omega
        · rw [if_neg hk, if_neg hk, Finset.erase_eq_of_notMem (by simp [hk])]
      · convert h2 using 1
        funext k
        by_cases hk : k = key
        · simp [hk]
        · simp [hk]

theorem del_answers (h : Keeps hash s σ 0) (keys : List Sds) :
    Meets hash s (fun t σ' r => Answers σ s.now t σ' r (.del keys)) (delCommand hash s keys) := by
  obtain ⟨s1, hs1, h1, hnow⟩ := delLoop_spec keys h 0
  rw [Nat.zero_add] at hs1
  exact ⟨_, s1, _, _, by rw [delCommand, hs1]; rfl, h1, hnow.ge, ⟨rfl, rfl⟩, Purged.refl _ _⟩

theorem exists_answers (h : Keeps hash s σ 0) (key : Sds) :
    Meets hash s (fun t σ' r => Answers σ s.now t σ' r (.exists key))
      (existsCommand hash s key) := by
  obtain ⟨r, s1, hs1, h1, hle1, -⟩ := expireIfNeeded_spec h key
  obtain ⟨d, hd, hdict, -⟩ := h1.dict.find key
  rw [Lib.settle_self] at hd
  exact ⟨if (live (s1.now : Int) σ key).isSome then Reply.cone else Reply.czero,
    { s1 with dict := d }, σ, _, by simp [existsCommand, hs1, hd], h1.set_dict hdict, hle1,
    ⟨rfl, rfl⟩, purged_looked le_rfl key σ⟩

theorem keys_answers (h : Keeps hash s σ 0) {pattern : Sds}
    (hfits : ∀ k ∈ s.dict.entries.keys, (keyMatches pattern k).isSome = true) :
    Meets hash s (fun t σ' r => Answers σ s.now t σ' r (.keys pattern))
      (keysCommand hash s pattern) := by
  have hfits' : ∀ k, σ k ≠ none → (keyMatches pattern k).isSome = true := by
    intro k hk
    refine hfits k (h.dict.mem.mpr ?_)
    rw [Option.isSome_map]
    exact Option.isSome_iff_ne_none.mpr hk
  obtain ⟨bulks, s1, σ1, hs1, h1, hle, hpurged, hnodup, hgiven, hall⟩ := keysCommand_spec h hfits'
  exact ⟨_, s1, σ, σ1, hs1, h1, hle, ⟨rfl, bulks, rfl, hnodup, hgiven, hall⟩, hpurged⟩

/-! ## Deadlines -/

/-- The two sums of the source wrap round as one. -/
theorem deadline_eq (u : ExpireUnit) (amount base : Int) :
    longLong ((if u.seconds then longLong (amount * 1000) else amount) + base) =
      deadline u amount base := by
  unfold deadline longLong
  split
  · exact Int.bmod_add_bmod ..
  · rfl

/-- A key given a deadline, or deleted if it has passed. -/
theorem expireGeneric_spec (h : Keeps hash s σ 0) (u : ExpireUnit) (base : Nat) (key param : Sds) :
    Meets hash s (fun t σ' r =>
        match getLongLongFromObject param with
        | none => r = Reply.notInteger ∧ σ' = σ
        | some amount =>
            (r = Reply.czero ∧ live t σ key = none ∧ σ' = σ) ∨
            (r = Reply.cone ∧ ∃ v e, live (s.now : Int) σ key = some (v, e) ∧
              σ' = Function.update σ key
                (if deadline u amount base ≤ t then none
                  else some (v, some (deadline u amount base)))))
      (expireGenericCommand hash s base u.seconds key param) := by
  unfold expireGenericCommand
  cases hparam : getLongLongFromObject param with
  | none => exact ⟨_, s, σ, σ, rfl, h, le_refl _, ⟨rfl, rfl⟩, Purged.refl _ _⟩
  | some amount =>
      obtain ⟨s1, hs1, h1, hle1⟩ := lookupKeyWrite_spec h key
      simp only [hs1, Option.bind_eq_bind, Option.bind_some, deadline_eq]
      cases he : live (s1.now : Int) σ key with
      | none =>
          exact ⟨_, s1, σ, _, rfl, h1, hle1, Or.inl ⟨rfl, he, rfl⟩, purged_looked le_rfl key σ⟩
      | some e =>
          obtain ⟨v, e⟩ := e
          obtain ⟨hread, hle2, h2, -⟩ := mstime_spec h1
          have hkey : settle (s1.now : Int) key σ key = some (v, e) := by
            rw [Lib.settle_self, he]
          have hthere := there_before hle1 he
          simp only [Option.map_some, h2.loading, h2.masterhost, and_self, and_true]
          by_cases hdue : deadline u amount base ≤ (mstime s1).1
          · obtain ⟨s3, hs3, h3, hnow3, -, -⟩ := dbDelete_spec h2 key
            rw [hkey] at hs3
            rw [Lib.update_settle] at h3
            refine ⟨Reply.cone, s3, _, _, by rw [if_pos hdue, hs3]; rfl, h3, by omega,
              Or.inr ⟨rfl, v, e, hthere, ?_⟩, Purged.refl _ _⟩
            rw [hread] at hdue
            rw [hnow3, if_pos hdue]
          · obtain ⟨s3, hs3, h3, hnow3⟩ := setExpire_spec h2 hkey (deadline u amount base)
            rw [Lib.update_settle] at h3
            refine ⟨Reply.cone, s3, _, _, by rw [if_neg hdue, hs3]; rfl, h3, by omega,
              Or.inr ⟨rfl, v, e, hthere, ?_⟩, Purged.refl _ _⟩
            rw [hread] at hdue
            rw [hnow3, if_neg hdue]

theorem expire_answers (h : Keeps hash s σ 0) (u : ExpireUnit) (key param : Sds) :
    Meets hash s (fun t σ' r => Answers σ s.now t σ' r (.expire u key param))
      (expireCommand hash s u key param) := by
  -- the base is the time of the first reading, or 0
  have hset : ∀ {s1 : Server π} {base : Nat}, s.now ≤ s1.now →
      (if u.relative then base = s1.now else base = 0) → Keeps hash s1 σ 0 →
      Meets hash s (fun t σ' r => Answers σ s.now t σ' r (.expire u key param))
        (expireGenericCommand hash s1 base u.seconds key param) := by
    intro s1 base hle hbase h1
    obtain ⟨r, s2, σ2, σ2', hs2, h2, hle2, hP, hpurged⟩ := expireGeneric_spec h1 u base key param
    refine ⟨r, s2, σ2, σ2', hs2, h2, hle.trans hle2, ?_, hpurged⟩
    simp only [Answers]
    cases hparam : getLongLongFromObject param with
    | none =>
        rw [hparam] at hP
        exact hP
    | some amount =>
        rw [hparam] at hP
        refine hP.imp id ?_
        rintro ⟨hr, v, e, he, hσ⟩
        refine ⟨hr, v, e, base, there_before hle he, ?_, hσ⟩
        by_cases hrel : u.relative = true
        · rw [if_pos hrel] at hbase ⊢
          omega
        · rw [if_neg hrel] at hbase ⊢
          omega
  unfold expireCommand
  by_cases hrel : u.relative = true
  · obtain ⟨hread, hle1, h1, -⟩ := mstime_spec h
    rw [if_pos hrel]
    exact hset hle1 (by rw [if_pos hrel]; exact hread) h1
  · rw [if_neg hrel]
    exact hset le_rfl (by rw [if_neg hrel]) h

theorem ttl_answers (h : Keeps hash s σ 0) (ms : Bool) (key : Sds) :
    Meets hash s (fun t σ' r => Answers σ s.now t σ' r (.ttl ms key))
      (ttlGenericCommand hash s ms key) := by
  obtain ⟨s1, hs1, h1, hle1⟩ := lookupKeyWrite_spec h key
  unfold ttlGenericCommand
  simp only [hs1, Option.bind_eq_bind, Option.bind_some]
  cases he : live (s1.now : Int) σ key with
  | none =>
      exact ⟨_, s1, σ, _, rfl, h1, hle1, ⟨rfl, Or.inl ⟨rfl, he⟩⟩, purged_looked le_rfl key σ⟩
  | some e =>
      obtain ⟨v, e⟩ := e
      obtain ⟨s2, hs2, h2, hnow2, -, -⟩ := getExpire_spec h1 key
      rw [Lib.settle_self, he, Option.bind_some] at hs2
      have hthere := there_before hle1 he
      simp only [Option.map_some, hs2, Option.bind_some]
      by_cases hno : e.getD (-1) = -1
      · refine ⟨_, s2, σ, _, by rw [if_pos hno], h2, hnow2 ▸ hle1,
          ⟨rfl, Or.inr ⟨v, e, hthere, ?_⟩⟩, purged_looked hnow2.ge key σ⟩
        rw [ttlAnswer, if_pos hno]
      · obtain ⟨hread, hle3, h3, -⟩ := mstime_spec h2
        have hle : s1.now ≤ (mstime s2).2.now := hnow2 ▸ hle3
        refine ⟨_, (mstime s2).2, σ, _, by rw [if_neg hno], h3, hle1.trans hle,
          ⟨rfl, Or.inr ⟨v, e, hthere, ?_⟩⟩, purged_looked hle key σ⟩
        rw [ttlAnswer, if_neg hno, hread]

theorem persist_answers (h : Keeps hash s σ 0) (key : Sds) :
    Meets hash s (fun t σ' r => Answers σ s.now t σ' r (.persist key))
      (persistCommand hash s key) := by
  obtain ⟨d, hd, hdict, -⟩ := h.dict.find key
  have h1 := h.set_dict hdict
  unfold persistCommand
  simp only [hd, Option.bind_eq_bind, Option.bind_some]
  cases he : σ key with
  | none =>
      exact ⟨_, _, σ, σ, rfl, h1, le_refl _, Or.inl ⟨rfl, rfl, by simp [he]⟩, Purged.refl _ _⟩
  | some e =>
      obtain ⟨v, w⟩ := e
      obtain ⟨s2, hs2, h2, hnow2⟩ := removeExpire_spec h1 he
      cases w with
      | none =>
          rw [← he, Function.update_eq_self] at h2
          exact ⟨Reply.czero, s2, σ, σ, by simp [hs2], h2, hnow2.ge,
            Or.inl ⟨rfl, rfl, by simp [he]⟩, Purged.refl _ _⟩
      | some w =>
          exact ⟨Reply.cone, s2, _, _, by simp [hs2], h2, hnow2.ge,
            Or.inr ⟨rfl, v, w, he, rfl⟩, Purged.refl _ _⟩

/-! ## `RENAME` -/

theorem renameClear_spec (h : Keeps hash s σ 0) {newkey : Sds} (there : Bool)
    (hthere : there = false → σ newkey = none) :
    ∃ s', renameClear hash s there newkey = some s' ∧
      Keeps hash s' (Function.update σ newkey none) 0 ∧ s'.now = s.now := by
  cases there with
  | false =>
      refine ⟨s, rfl, ?_, rfl⟩
      rw [Function.update_eq_self_iff.mpr (hthere rfl).symm]
      exact h
  | true =>
      obtain ⟨s1, hs1, h1, hnow1, -, -⟩ := dbDelete_spec h newkey
      exact ⟨s1, by simp [renameClear, hs1], h1, hnow1⟩

theorem renameExpire_spec (h : Keeps hash s σ 0) {newkey : Sds} {v : Robj π} {e : Option Int}
    (hv : σ newkey = some (v, none)) :
    ∃ s', renameExpire hash s newkey (e.getD (-1)) = some s' ∧
      Keeps hash s' (Function.update σ newkey (some (v, e.filter fun w => decide (w ≠ -1)))) 0 ∧
      s'.now = s.now := by
  have hnone : Keeps hash s (Function.update σ newkey (some (v, none))) 0 := by
    rw [Function.update_eq_self_iff.mpr hv.symm]
    exact h
  cases e with
  | none => exact ⟨s, rfl, hnone, rfl⟩
  | some w =>
      rw [Option.getD_some, renameExpire, Option.filter_some]
      by_cases hw : w = -1
      · exact ⟨s, by rw [if_pos hw], by simpa [hw] using hnone, rfl⟩
      · obtain ⟨s1, hs1, h1, hnow1⟩ := setExpire_spec h hv w
        exact ⟨s1, by rw [if_neg hw, hs1], by simpa [hw] using h1, hnow1⟩

/-- The value and the deadline of the old key go over to the new one. -/
theorem rename_answers (h : Keeps hash s σ 0) (nx : Bool) (key newkey : Sds) :
    Meets hash s (fun t σ' r => Answers σ s.now t σ' r (.rename nx key newkey))
      (renameGenericCommand hash s nx key newkey) := by
  unfold renameGenericCommand
  by_cases hkey : key = newkey
  · exact ⟨Reply.sameobjecterr, s, σ, σ, by rw [if_pos hkey], h, le_refl _,
      Or.inl ⟨rfl, hkey, rfl⟩, Purged.refl _ _⟩
  obtain ⟨s1, hs1, h1, hle1⟩ := lookupKeyWrite_spec h key
  simp only [if_neg hkey, hs1, Option.bind_eq_bind, Option.bind_some]
  cases he : live (s1.now : Int) σ key with
  | none =>
      exact ⟨Reply.nokeyerr, s1, σ, _, rfl, h1, hle1, Or.inr (Or.inl ⟨rfl, hkey, he, rfl⟩),
        purged_looked le_rfl key σ⟩
  | some e =>
      obtain ⟨v, e⟩ := e
      obtain ⟨s2, hs2, h2, hnow2, -, -⟩ := getExpire_spec h1 key
      rw [Lib.settle_self, he, Option.bind_some] at hs2
      obtain ⟨s3, hs3, h3, hle3⟩ := lookupKeyWrite_spec h2 newkey
      have hle13 : s1.now ≤ s3.now := hnow2 ▸ hle3
      have hle : s.now ≤ s3.now := hle1.trans hle13
      rw [live_looked hle13] at hs3
      have hthere := there_before hle1 he
      simp only [Option.map_some, hs2, hs3, Option.bind_some]
      by_cases hstop : ((live (s3.now : Int) σ newkey).map Prod.fst).isSome = true ∧ nx = true
      · rw [if_pos hstop]
        refine ⟨Reply.czero, s3, σ, _, rfl, h3, hle,
          Or.inr (Or.inr (Or.inl ⟨rfl, hstop.2, hkey, ?_, rfl⟩)),
          (purged_looked hle13 key σ).trans (purged_looked le_rfl newkey _) le_rfl⟩
        intro hn
        rw [hn] at hstop
        simp at hstop
      · rw [if_neg hstop]
        obtain ⟨s4, hs4, h4, hnow4⟩ := renameClear_spec h3
          ((live (s3.now : Int) σ newkey).map Prod.fst).isSome (by
            intro hnone
            rw [Lib.settle_self, live_looked hle13]
            simpa using hnone)
        have hfree : ∀ τ : Space π, Function.update τ newkey none newkey = none :=
          fun τ => Function.update_self newkey none τ
        obtain ⟨s5, hs5, h5, hnow5⟩ := dbAdd_spec h4 (hfree _) v
        obtain ⟨s6, hs6, h6, hnow6⟩ := renameExpire_spec (e := e) h5 (Function.update_self ..)
        obtain ⟨s7, hs7, h7, hnow7, -, -⟩ := dbDelete_spec h6 key
        have hlast : s7.now = s3.now := by omega
        -- both keys were looked at, and both are overwritten
        rw [Function.update_idem, Function.update_idem, Lib.update_settle,
          Function.update_comm (Ne.symm hkey), Lib.update_settle,
          Function.update_comm hkey] at h7
        refine ⟨if nx then Reply.cone else .ok, s7, _, _,
          by simp only [hs4, hs5, hs6, hs7, Option.bind_some], h7,
          hlast ▸ hle, Or.inr (Or.inr (Or.inr ⟨rfl, hkey, ?_, v, e, hthere, rfl⟩)),
          Purged.refl _ _⟩
        intro hnx
        rw [hlast]
        by_contra hn
        refine hstop ⟨?_, hnx⟩
        rw [Option.isSome_map]
        exact Option.isSome_iff_ne_none.mpr hn

/-! ## All of them -/

theorem flushdb_answers (h : Keeps hash s σ 0) :
    Meets hash s (fun t σ' r => Answers σ s.now t σ' r .flushdb) (some (flushdbCommand s)) := by
  refine ⟨.ok, (flushdbCommand s).2, _, _, rfl, ?_, le_refl _, ⟨rfl, rfl⟩, Purged.refl _ _⟩
  exact ⟨holds_create, holds_create, h.loading, h.masterhost⟩

/-- **Every command comes to an end, fails no assertion, and is answered as it should be.** -/
theorem call_answers (h : Keeps hash s σ 0) (c : Command) (hfit : Fitting s (.command c)) :
    Meets hash s (fun t σ' r => Answers σ s.now t σ' r c) (call hash s c) := by
  cases c with
  | get key => exact get_answers h key
  | set key val opts =>
      simp only [call, setCommand, Answers]
      cases setOptions opts ⟨false, false, none, false⟩ with
      | none =>
          exact ⟨Reply.syntaxerr, s, σ, σ, rfl, h, le_refl _, ⟨rfl, rfl⟩, Purged.refl _ _⟩
      | some o => exact set_answers h o key val .ok .nullbulk
  | setnx key val => exact set_answers h ⟨true, false, none, false⟩ key val Reply.cone Reply.czero
  | setex ms key expire val =>
      exact set_answers h ⟨false, false, some expire, ms⟩ key val .ok .nullbulk
  | getset key val => exact getset_answers h key val
  | del keys => exact del_answers h keys
  | «exists» key => exact exists_answers h key
  | keys pattern => exact keys_answers h hfit
  | expire u key param => exact expire_answers h u key param
  | ttl ms key => exact ttl_answers h ms key
  | persist key => exact persist_answers h key
  | rename nx key newkey => exact rename_answers h nx key newkey
  | flushdb => exact flushdb_answers h

/-! ## The cron -/

/-- A key the cron comes across is deleted if its deadline has passed. -/
theorem activeExpireCycle_spec (h : Keeps hash s σ 0) (pick : Nat) :
    ∃ s' σ', activeExpireCycle hash s pick = some s' ∧ Keeps hash s' σ' 0 ∧ s.now ≤ s'.now ∧
      Sheds (s'.now : Int) σ σ' := by
  obtain ⟨hread, hle, h1, -⟩ := mstime_spec h
  obtain ⟨e, x, hx, hholds, hin⟩ := h1.expires.randomKey pick
  have h2 := h1.set_expires hholds
  unfold activeExpireCycle
  simp only [hx, Option.bind_eq_bind, Option.bind_some]
  cases e with
  | none => exact ⟨_, σ, rfl, h2, hle, fun _ => Or.inl rfl⟩
  | some e =>
      obtain ⟨⟨v, w⟩, he, hw⟩ := Option.bind_eq_some_iff.mp (hin e rfl)
      simp only at hw
      unfold activeExpireCycleTryExpire
      by_cases hdue : ((mstime s).1 : Int) > e.2
      · obtain ⟨s3, hs3, h3, hnow3, -, -⟩ := dbDelete_spec h2 e.1
        have hnow3 : s3.now = (mstime s).2.now := hnow3
        refine ⟨s3, _, by simp [hdue, hs3], h3, hnow3 ▸ hle, fun k => ?_⟩
        by_cases hk : k = e.1
        · rw [hk, Function.update_self]
          exact Or.inr ⟨rfl, v, e.2, hw ▸ he, by omega⟩
        · exact Or.inl (Function.update_of_ne hk ..)
      · exact ⟨_, σ, by simp [hdue], h2, hle, fun _ => Or.inl rfl⟩

theorem tryResizeHashTables_spec (h : Keeps hash s σ 0) :
    Keeps hash (tryResizeHashTables s) σ 0 := by
  refine ⟨?_, ?_, h.loading, h.masterhost⟩
  · simp only [tryResizeHashTables]
    split
    · exact h.dict.same (dictResize_same h.dict.ok _)
    · exact h.dict
  · simp only [tryResizeHashTables]
    split
    · exact h.expires.same (dictResize_same h.expires.ok _)
    · exact h.expires

theorem incrementallyRehash_spec (h : Keeps hash s σ 0) (rounds : Nat) :
    ∃ s', incrementallyRehash hash s rounds = some s' ∧ Keeps hash s' σ 0 ∧ s'.now = s.now := by
  unfold incrementallyRehash
  by_cases hd : s.dict.isRehashing = true
  · obtain ⟨d, hd', hholds⟩ := h.dict.rehashMilliseconds rounds
    exact ⟨_, by rw [if_pos hd, hd']; rfl, h.set_dict hholds, rfl⟩
  · rw [if_neg hd]
    by_cases hx : s.expires.isRehashing = true
    · obtain ⟨x, hx', hholds⟩ := h.expires.rehashMilliseconds rounds
      exact ⟨_, by rw [if_pos hx, hx']; rfl, h.set_expires hholds, rfl⟩
    · exact ⟨s, by rw [if_neg hx], h, rfl⟩

/-! ## Runs -/

theorem keeps_ticks (h : Keeps hash s σ 0) (ticks : List Nat) :
    Keeps hash { s with ticks := ticks } σ 0 :=
  ⟨h.dict, h.expires, h.loading, h.masterhost⟩

/-- What the cron does to the keys. -/
theorem cron_spec (h : Keeps hash s σ 0) (ticks : List Nat) {e : ServerEvent}
    (he : ∀ c, e ≠ .command c) :
    ∃ s' σ', serverStep hash s ticks e = some (none, s') ∧ Keeps hash s' σ' 0 ∧ s.now ≤ s'.now ∧
      Sheds (s'.now : Int) σ σ' := by
  have hsame : ∀ {t : Int}, Sheds t σ σ := fun k => Or.inl rfl
  cases e with
  | command c => exact absurd rfl (he c)
  | activeExpire pick =>
      obtain ⟨s1, σ1, hs1, h1, hle, hσ⟩ := activeExpireCycle_spec (keeps_ticks h ticks) pick
      exact ⟨s1, σ1, by simp [serverStep, hs1], h1, hle, hσ⟩
  | resize => exact ⟨_, σ, rfl, tryResizeHashTables_spec h, le_refl _, hsame⟩
  | rehash rounds =>
      obtain ⟨s1, hs1, h1, hnow⟩ := incrementallyRehash_spec h rounds
      exact ⟨s1, σ, by simp [serverStep, hs1], h1, hnow.ge, hsame⟩
  | resizePolicy enable =>
      exact ⟨_, σ, rfl, ⟨h.dict, h.expires, h.loading, h.masterhost⟩, le_refl _, hsame⟩

/-- Events one after the other. -/
theorem serverRun_spec (events : List (List Nat × ServerEvent)) (h : Keeps hash s σ 0)
    (hfits : Fits hash s events) :
    ∃ replies s' σ', serverRun hash s events = some (replies, s') ∧ Keeps hash s' σ' 0 ∧
      Served σ s.now events replies σ' s'.now := by
  induction events generalizing s σ with
  | nil => exact ⟨[], s, σ, rfl, h, Served.nil _ _⟩
  | cons x events ih =>
      obtain ⟨ticks, e⟩ := x
      obtain ⟨hfit, hrest⟩ := hfits
      by_cases hc : ∃ c, e = .command c
      · obtain ⟨c, rfl⟩ := hc
        obtain ⟨r, s1, σ1, σ1', hcall, h1, hle, hanswers, hpurged⟩ :=
          call_answers (keeps_ticks h ticks) c (by cases c <;> exact hfit)
        have hstep : serverStep hash s ticks (.command c) = some (some r, s1) := by
          simp [serverStep, hcall]
        rw [hstep] at hrest
        obtain ⟨replies, s2, σ2, hrun, h2, hserved⟩ := ih h1 hrest
        exact ⟨some r :: replies, s2, σ2, by simp [serverRun, hstep, hrun], h2,
          Served.command (Int.ofNat_le.mpr hle) hanswers hpurged hserved⟩
      · have hc' : ∀ c, e ≠ .command c := fun c hec => hc ⟨c, hec⟩
        obtain ⟨s1, σ1, hstep, h1, hle, hσ⟩ := cron_spec h ticks hc'
        rw [hstep] at hrest
        obtain ⟨replies, s2, σ2, hrun, h2, hserved⟩ := ih h1 hrest
        exact ⟨none :: replies, s2, σ2, by simp [serverRun, hstep, hrun], h2,
          Served.cron hc' (Int.ofNat_le.mpr hle) hσ hserved⟩

/-- Whether the patterns of a run are decided can be computed. -/
instance decidableFitting (s : Server π) (e : ServerEvent) : Decidable (Fitting s e) :=
  match e with
  | .command (.keys pattern) =>
      inferInstanceAs (Decidable (∀ k ∈ s.dict.entries.keys, (keyMatches pattern k).isSome = true))
  | .command (.get _) | .command (.set _ _ _) | .command (.setnx _ _) | .command (.setex _ _ _ _)
  | .command (.getset _ _) | .command (.del _) | .command (.exists _) | .command (.expire _ _ _)
  | .command (.ttl _ _) | .command (.persist _) | .command (.rename _ _ _) | .command .flushdb
  | .activeExpire _ | .resize | .rehash _ | .resizePolicy _ => inferInstanceAs (Decidable True)

instance decidableFits (hash : Sds → UInt32) : ∀ (s : Server π)
    (events : List (List Nat × ServerEvent)), Decidable (Fits hash s events)
  | _, [] => inferInstanceAs (Decidable True)
  | s, (ticks, e) :: events =>
      match decidableFitting s e, h : serverStep hash s ticks e with
      | isFalse hfit, _ => isFalse fun hfits => hfit hfits.1
      | isTrue hfit, none => isTrue ⟨hfit, by rw [h]; trivial⟩
      | isTrue hfit, some (_, s') =>
          match decidableFits hash s' events with
          | isTrue hfits => isTrue ⟨hfit, by rw [h]; exact hfits⟩
          | isFalse hno => isFalse fun hfits => hno (by have := hfits.2; rwa [h] at this)

/-- A server with nothing in it. -/
def emptyServer : Server Unit := ⟨dictCreate, dictCreate, true, false, false, 1000, []⟩

theorem keeps_emptyServer (hash : Sds → UInt32) : Keeps hash emptyServer (fun _ => none) 0 :=
  ⟨holds_create, holds_create, rfl, rfl⟩

def byLength (key : Sds) : UInt32 := UInt32.ofNat key.length

/-- `b` has five milliseconds, and the clock goes on by three when it is asked for. -/
def fiveMilliseconds : List (List Nat × ServerEvent) :=
  [([], .command (.set [97] [49] [])), ([], .command (.set [98] [50] [[112, 120], [53]])),
    ([3], .command (.get [98])), ([3], .command (.keys [42])), ([], .activeExpire 0),
    ([], .command (.get [98]))]

end BetterEfisis.Redis

import BetterEfisis.Proof.Db
import BetterEfisis.Proof.Iterator

/-!
# `KEYS`

The loop of `keysCommand` goes over the dictionary with a safe iterator and deletes, out
of its body, the keys that have expired. It is one of the loops the iterator is for
(`iterInv_next`, `iterInv_call`), so it comes to every key that lives until it is over,
and to none twice.
-/

namespace BetterEfisis.Redis

open Lib (live settle Purged)

/-! ## The iterator in its loop -/

section Iterator

variable {κ ν : Type} {hash : κ → UInt32} {d d' : Dict κ ν}
  {it it' : DictIterator κ} {e : DictEntry κ ν} {r : Option (DictEntry κ ν)}

/-- Going on to the next bucket. -/
theorem scanBuckets_shape (d : Dict κ ν) (table : Bool) (i : Nat) (saved : Option κ) :
    (scanBuckets d table i saved).2.index ≠ none ∧
      ∀ e, (scanBuckets d table i saved).1 = some e →
        (scanBuckets d table i saved).2.entry = some e.1 := by
  unfold scanBuckets
  split
  · exact ⟨by simp, by rintro e ⟨rfl⟩; rfl⟩
  · exact ⟨by simp, by simp⟩

theorem advance_shape (d : Dict κ ν) (table : Bool) (i : Nat) (saved : Option κ) :
    (advance d table i saved).2.index ≠ none ∧
      ∀ e, (advance d table i saved).1 = some e → (advance d table i saved).2.entry = some e.1 := by
  have h1 := scanBuckets_shape d table i saved
  have h2 := scanBuckets_shape d true 0 saved
  unfold advance
  rcases hs : scanBuckets d table i saved with ⟨r, it⟩
  rw [hs] at h1
  cases r with
  | some e => exact h1
  | none =>
      simp only
      split
      · exact h2
      · exact ⟨h1.1, by simp⟩

variable [DecidableEq κ]

theorem entryAt_key {key : κ} {c : List (DictEntry κ ν)} {next : Option κ}
    (h : entryAt key c = some (e, next)) : e.1 = key := by
  induction c with
  | nil => simp [entryAt] at h
  | cons f c ih =>
      rw [entryAt] at h
      split at h
      · rename_i hk
        cases h
        exact hk.symm
      · exact ih h

/-- The entry returned is the one the iterator is on. The first step counts the iterator. -/
theorem dictNext_shape (ha : Aimed d it) (h : dictNext d it = some (r, it', d')) :
    it'.index ≠ none ∧ (∀ e, r = some e → it'.entry = some e.1) ∧
      d'.iterators = if it.index = none then d.iterators + 1 else d.iterators := by
  cases ha with
  | fresh =>
      let d1 := { d with iterators := d.iterators + 1 }
      have hadv := advance_shape d1 false 0 none
      obtain ⟨rfl, rfl, rfl⟩ : (advance d1 false 0 none).1 = r ∧
          (advance d1 false 0 none).2 = it' ∧ d1 = d' := by
        simpa [dictNext, nextBucket, dictGetSafeIterator, d1] using h
      exact ⟨hadv.1, hadv.2, rfl⟩
  | @on table i k next hit ht hnext =>
      cases next with
      | none =>
          have hadv := advance_shape d table (i + 1) none
          obtain ⟨rfl, rfl, rfl⟩ : (advance d table (i + 1) none).1 = r ∧
              (advance d table (i + 1) none).2 = it' ∧ d = d' := by
            simpa [dictNext, nextBucket] using h
          exact ⟨hadv.1, hadv.2, rfl⟩
      | some key =>
          obtain ⟨-, hmem⟩ := hnext key rfl
          cases hc : (d.ht table).table[i]? with
          | none => simp [hc] at hmem
          | some c =>
              simp only [dictNext, hc, Option.bind_eq_bind, Option.bind_some] at h
              obtain ⟨⟨e, next⟩, he, h⟩ := Option.bind_eq_some_iff.mp h
              cases h
              refine ⟨by simp, ?_, by simp⟩
              rintro e' ⟨rfl⟩
              rw [entryAt_key he]

/-- The entry the iterator is on deleted: no more is still to come than before. -/
theorem pending_delete (h : DictOk hash d) (ha : Aimed d it) {key : κ}
    (hkey : it.entry = some key) (hdel : dictGenericDelete hash d key = some (true, d')) :
    (pending d' it).length ≤ (pending d it).length := by
  obtain ⟨d1, hd1, hok, -, hperm, -⟩ := dictDelete_spec h key
  rw [hdel, Option.some.injEq, Prod.mk.injEq] at hd1
  obtain ⟨-, rfl⟩ := hd1
  have hcall : dictCall hash (d, true) (.delete key) = some (.flag true, d', true) := by
    simp [dictCall, hdel]
  obtain ⟨-, hpend⟩ := body_step h ha (by simp) (by simp) (by simp [DictCall.deletes, hkey]) hcall
  refine ((pending_nodup hok it).subperm fun k hk => ?_).length_le
  have hk' : k ∈ (d.entries.kerase key).keys :=
    (hperm.map Sigma.fst).mem_iff.mp ((pending_sublist d' it).subset hk)
  have hne : k ≠ key := by
    rintro rfl
    exact List.notMem_keys_kerase k h.nodup hk'
  exact (hpend k (List.kerase_keys_subset key _ hk') (by simpa [DictCall.deletes] using hne)).mp hk

end Iterator

/-! ## The loop -/

variable {π : Type} {hash : Sds → UInt32} {s₀ s : Server π} {σ₀ σ : Space π}
  {pattern : Sds} {it : DictIterator Sds} {returned deleted bulks : List Sds}

/-- **The loop of `KEYS`**, which began in `s₀`, before a step of its iterator. -/
structure KeysInv (hash : Sds → UInt32) (pattern : Sds) (s₀ : Server π) (σ₀ : Space π)
    (s : Server π) (σ : Space π) (it : DictIterator Sds) (returned deleted bulks : List Sds) :
    Prop where
  keeps : Keeps hash s σ s.dict.iterators
  iter : IterInv hash s₀.dict ⟨s.dict, s.canResize, it, returned, deleted, false⟩
  counted : s.dict.iterators = if it.index = none then 0 else 1
  le : s₀.now ≤ s.now
  purged : Purged (s.now : Int) σ₀ σ
  fits : ∀ k, σ k ≠ none → (keyMatches pattern k).isSome = true
  nodup : bulks.Nodup
  given : ∀ k ∈ bulks, k ∈ returned ∧ k ∉ deleted ∧ keyMatches pattern k = some true ∧
    live (s₀.now : Int) σ₀ k ≠ none
  passed : ∀ k ∈ returned, keyMatches pattern k = some true →
    k ∈ bulks ∨ live (s.now : Int) σ₀ k = none
  gone : ∀ k ∈ deleted, live (s.now : Int) σ₀ k = none

theorem keysInv_begin (h : Keeps hash s σ 0)
    (hfits : ∀ k, σ k ≠ none → (keyMatches pattern k).isSome = true) :
    KeysInv hash pattern s σ s σ dictGetSafeIterator [] [] [] where
  keeps := by
    rw [h.dict.iterators]
    exact h
  iter := iterInv_begin h.dict.ok s.canResize
  counted := h.dict.iterators
  le := le_refl _
  purged := Purged.refl _ σ
  fits := hfits
  nodup := List.nodup_nil
  given := by simp
  passed := by simp
  gone := by simp

/-- What is left when the iterator has come to its end. -/
theorem keysInv_end (h : KeysInv hash pattern s₀ σ₀ s σ it returned deleted bulks)
    (h₀ : Keeps hash s₀ σ₀ 0) (hend : pending s.dict it = []) {k : Sds}
    (hk : live (s.now : Int) σ₀ k ≠ none) (hm : keyMatches pattern k = some true) : k ∈ bulks := by
  have hin : k ∈ s₀.dict.entries.keys := by
    rw [h₀.dict.mem]
    cases he : σ₀ k with
    | none => exact absurd (by rw [live, he]; rfl) hk
    | some e => rfl
  have hret : k ∈ returned := by
    rcases h.iter.met k hin fun hd => hk (h.gone k hd) with hret | ⟨-, hp⟩
    · exact hret
    · rw [hend] at hp
      simp at hp
  exact (h.passed k hret hm).resolve_right hk

/-- A dictionary with another count of iterators. -/
theorem Keeps.recount {n m : Nat} (h : Keeps hash s σ n) {d : Dict Sds (Robj π)}
    (hok : DictOk hash d) (hentries : d.entries = s.dict.entries) (hm : d.iterators = m) :
    Keeps hash { s with dict := d } σ m :=
  ⟨⟨hok, fun k => by rw [hentries, h.dict.get], hm⟩, h.expires, h.loading, h.masterhost⟩

/-- A step of the iterator: it is over, or on a key that has not been looked at yet. -/
theorem keysInv_next (h : KeysInv hash pattern s₀ σ₀ s σ it returned deleted bulks) :
    ∃ r it' d, dictNext s.dict it = some (r, it', d) ∧ it'.index ≠ none ∧ d.iterators = 1 ∧
      Keeps hash { s with dict := d } σ 1 ∧ (r = none → pending s.dict it = []) ∧
      ∀ e, r = some e → it'.entry = some e.1 ∧ σ e.1 ≠ none ∧ e.1 ∉ bulks ∧
        pending s.dict it = e.1 :: pending d it' ∧ Aimed d it' ∧
        IterInv hash s₀.dict ⟨d, s.canResize, it', returned ++ [e.1], deleted, false⟩ := by
  have haimed : Aimed s.dict it := h.iter.aimed rfl
  obtain ⟨r, it', d, hnext, hok, hentries, hsome, hnone⟩ := dictNext_spec h.iter.ok haimed
  obtain ⟨hindex, hentry, hiter⟩ := dictNext_shape haimed hnext
  have hone : d.iterators = 1 := by
    have hc := h.counted
    by_cases hi : it.index = none
    · rw [if_pos hi] at hiter hc
      omega
    · rw [if_neg hi] at hiter hc
      omega
  refine ⟨r, it', d, hnext, hindex, hone, h.keeps.recount hok hentries hone, hnone, ?_⟩
  rintro e rfl
  obtain ⟨hin, ha, hpend⟩ := hsome e rfl
  obtain ⟨s', hs', hinv⟩ := iterInv_next h.iter rfl
  simp only [iterStep, hnext, Option.bind_eq_bind, Option.bind_some, Option.some.injEq] at hs'
  subst hs'
  have hkey := h.keeps.dict.mem.mp (List.mem_keys_of_mem hin)
  refine ⟨hentry e rfl, fun hnone => ?_, fun hb => ?_, hpend, ha, hinv⟩
  · rw [hnone] at hkey
    simp at hkey
  · obtain ⟨hret, hdel, -⟩ := h.given e.1 hb
    refine h.iter.apart rfl e.1 hret hdel ?_
    rw [hpend]
    exact List.mem_cons_self

/-- The body of the loop where the key matches: it is replied, or deleted. -/
theorem keysInv_body (h : KeysInv hash pattern s₀ σ₀ s σ it returned deleted bulks)
    {d : Dict Sds (Robj π)} {it' : DictIterator Sds} {k : Sds}
    (hkeeps : Keeps hash { s with dict := d } σ 1) (hindex : it'.index ≠ none)
    (hone : d.iterators = 1) (hentry : it'.entry = some k) (hk : σ k ≠ none) (hb : k ∉ bulks)
    (haimed : Aimed d it')
    (hiter : IterInv hash s₀.dict ⟨d, s.canResize, it', returned ++ [k], deleted, false⟩)
    (hm : keyMatches pattern k = some true) :
    ∃ r s' σ' deleted', expireIfNeeded hash { s with dict := d } k = some (r, s') ∧
      KeysInv hash pattern s₀ σ₀ s' σ' it' (returned ++ [k]) deleted'
        (if r then bulks else bulks ++ [k]) ∧ s.now ≤ s'.now ∧
      (pending s'.dict it').length ≤ (pending d it').length := by
  obtain ⟨r, s', hs', hkeeps', hle, hr, hcan, hdict⟩ := expireIfNeeded_spec hkeeps k
  have hle : s.now ≤ s'.now := hle
  have hpurged : Purged (s'.now : Int) σ₀ (settle (s'.now : Int) k σ) :=
    h.purged.trans (Lib.purged_settle _ k σ) (by omega)
  have hfits : ∀ k', settle (s'.now : Int) k σ k' ≠ none →
      (keyMatches pattern k').isSome = true := by
    intro k' hk'
    by_cases hkk : k' = k
    · rw [hkk, hm]
      rfl
    · rw [Lib.settle_ne hkk] at hk'
      exact h.fits k' hk'
  have hnow : live (s'.now : Int) σ k = live (s'.now : Int) σ₀ k :=
    congrFun (h.purged.live (by omega)) k
  have hlater : ∀ {k' : Sds}, live (s.now : Int) σ₀ k' = none → live (s'.now : Int) σ₀ k' = none :=
    fun hn => Lib.live_none_of_earlier (by omega) hn
  have hpassed : ∀ k' ∈ returned, keyMatches pattern k' = some true →
      k' ∈ bulks ∨ live (s'.now : Int) σ₀ k' = none := fun k' hk' hm' =>
    (h.passed k' hk' hm').imp id hlater
  rcases hdict Nat.one_pos with ⟨rfl, hd⟩ | ⟨rfl, hd⟩
  · -- the key is still there
    have hlive : live (s'.now : Int) σ₀ k ≠ none := by
      intro hn
      exact Bool.false_ne_true (hr.mpr ⟨hk, hnow.trans hn⟩)
    have hd' : s'.dict = d := hd
    refine ⟨false, s', _, deleted, hs',
      ⟨?_, ?_, ?_, h.le.trans hle, hpurged, hfits, ?_, ?_, ?_, ?_⟩, hle, by rw [hd']⟩
    · rw [hd', hone]
      exact hkeeps'
    · rw [hd', hcan]
      exact hiter
    · rw [hd', hone, if_neg hindex]
    · exact List.nodup_append.mpr ⟨h.nodup, List.nodup_singleton k,
        fun a ha b hb' => by rw [List.mem_singleton.mp hb']; rintro rfl; exact hb ha⟩
    · intro k' hk'
      rcases List.mem_append.mp hk' with hk' | hk'
      · obtain ⟨h1, h2, h3⟩ := h.given k' hk'
        exact ⟨List.mem_append_left _ h1, h2, h3⟩
      · rw [List.mem_singleton.mp hk']
        refine ⟨List.mem_append_right _ List.mem_cons_self, fun hd => ?_, hm, ?_⟩
        · exact hlive (hlater (h.gone k hd))
        · intro hn
          exact hlive (Lib.live_none_of_earlier (by have := h.le; omega) hn)
    · intro k' hk' hm'
      rcases List.mem_append.mp hk' with hk' | hk'
      · exact (hpassed k' hk' hm').imp (List.mem_append_left _) id
      · exact Or.inl (List.mem_append_right _ hk')
    · exact fun k' hk' => hlater (h.gone k' hk')
  · -- the key has expired, and the loop deletes it
    have hlive : live (s'.now : Int) σ₀ k = none := hnow ▸ (hr.mp rfl).2
    have hd' : dictGenericDelete hash d k = some (true, s'.dict) := hd
    obtain ⟨s'', hs'', hiter'⟩ := iterInv_call hiter
      (show iterAllowed _ (.call (.delete k)) from ⟨rfl, hentry⟩)
    simp only [iterStep, dictCall, hd', Option.bind_eq_bind, Option.bind_some,
      Option.some.injEq] at hs''
    subst hs''
    have hiter1 : s'.dict.iterators = 1 := hkeeps'.dict.iterators
    refine ⟨true, s', _, [k] ++ deleted, hs',
      ⟨?_, ?_, ?_, h.le.trans hle, hpurged, hfits, h.nodup, ?_, ?_, ?_⟩, hle,
      pending_delete hiter.ok haimed hentry hd'⟩
    · rw [hiter1]
      exact hkeeps'
    · rw [hcan]
      exact hiter'
    · rw [hiter1, if_neg hindex]
    · intro k' hk'
      obtain ⟨h1, h2, h3⟩ := h.given k' hk'
      refine ⟨List.mem_append_left _ h1, fun hd => ?_, h3⟩
      rcases List.mem_append.mp hd with hd | hd
      · exact hb (List.mem_singleton.mp hd ▸ hk')
      · exact h2 hd
    · intro k' hk' hm'
      rcases List.mem_append.mp hk' with hk' | hk'
      · exact hpassed k' hk' hm'
      · rw [List.mem_singleton.mp hk']
        exact Or.inr hlive
    · intro k' hk'
      rcases List.mem_append.mp hk' with hk' | hk'
      · rw [List.mem_singleton.mp hk']
        exact hlive
      · exact hlater (h.gone k' hk')

/-- A key that does not match is passed over. -/
theorem keysInv_skip (h : KeysInv hash pattern s₀ σ₀ s σ it returned deleted bulks)
    {d : Dict Sds (Robj π)} {it' : DictIterator Sds} {k : Sds}
    (hkeeps : Keeps hash { s with dict := d } σ 1) (hindex : it'.index ≠ none)
    (hone : d.iterators = 1)
    (hiter : IterInv hash s₀.dict ⟨d, s.canResize, it', returned ++ [k], deleted, false⟩)
    (hm : keyMatches pattern k = some false) :
    KeysInv hash pattern s₀ σ₀ { s with dict := d } σ it' (returned ++ [k]) deleted bulks where
  keeps := by
    rw [show Server.dict { s with dict := d } = d from rfl, hone]
    exact hkeeps
  iter := hiter
  counted := by
    rw [if_neg hindex]
    exact hone
  le := h.le
  purged := h.purged
  fits := h.fits
  nodup := h.nodup
  given := fun k' hk' => by
    obtain ⟨h1, h2⟩ := h.given k' hk'
    exact ⟨List.mem_append_left _ h1, h2⟩
  passed := fun k' hk' hm' => by
    rcases List.mem_append.mp hk' with hk' | hk'
    · exact h.passed k' hk' hm'
    · rw [List.mem_singleton.mp hk', hm] at hm'
      simp at hm'
  gone := h.gone

/-- The loop comes to its end, as there is less still to come in every round. -/
theorem keysLoop_spec (h₀ : Keeps hash s₀ σ₀ 0) : ∀ (fuel : Nat) (s : Server π) (σ : Space π)
    (it : DictIterator Sds) (returned deleted bulks : List Sds),
    KeysInv hash pattern s₀ σ₀ s σ it returned deleted bulks →
    (pending s.dict it).length < fuel →
      ∃ bulks' it' s' σ', keysLoop hash pattern fuel s it bulks = some (bulks', it', s') ∧
        Keeps hash s' σ' 1 ∧ it'.index ≠ none ∧ s₀.now ≤ s'.now ∧
        Purged (s'.now : Int) σ₀ σ' ∧ bulks'.Nodup ∧
        (∀ k ∈ bulks', keyMatches pattern k = some true ∧ live (s₀.now : Int) σ₀ k ≠ none) ∧
        ∀ k, live (s'.now : Int) σ₀ k ≠ none → keyMatches pattern k = some true → k ∈ bulks' := by
  intro fuel
  induction fuel with
  | zero => intro s σ it returned deleted bulks _ hlt; exact absurd hlt (Nat.not_lt_zero _)
  | succ fuel ih =>
      intro s σ it returned deleted bulks h hlt
      obtain ⟨r, it', d, hnext, hindex, hone, hkeeps, hnone, hsome⟩ := keysInv_next h
      rw [keysLoop]
      simp only [hnext, Option.bind_eq_bind, Option.bind_some]
      cases r with
      | none =>
          exact ⟨bulks, it', { s with dict := d }, σ, rfl, hkeeps, hindex, h.le, h.purged, h.nodup,
            fun k hk => (h.given k hk).2.2, fun k hk hm => keysInv_end h h₀ (hnone rfl) hk hm⟩
      | some e =>
          obtain ⟨hentry, hk, hb, hpend, haimed, hiter⟩ := hsome e rfl
          rw [hpend, List.length_cons] at hlt
          obtain ⟨m, hm⟩ := Option.isSome_iff_exists.mp (h.fits e.1 hk)
          simp only [hm, Option.bind_some]
          cases m with
          | false =>
              exact ih _ σ it' _ deleted bulks
                (keysInv_skip h hkeeps hindex hone hiter hm) (by simp only; omega)
          | true =>
              obtain ⟨r, s', σ', deleted', hexp, hinv, hle, hlen⟩ :=
                keysInv_body h hkeeps hindex hone hentry hk hb haimed hiter hm
              simp only [if_true, hexp, Option.bind_some]
              exact ih s' σ' it' _ deleted' _ hinv (by omega)

/--
**`KEYS` gives every key once.** Each key in the reply matches and was there when the
command began, each key that matches and is there when it ends is in the reply, and none
is in it twice, though the command deletes keys as it goes.
-/
theorem keysCommand_spec (h : Keeps hash s σ 0)
    (hfits : ∀ k, σ k ≠ none → (keyMatches pattern k).isSome = true) :
    ∃ bulks s' σ', keysCommand hash s pattern = some (.multi bulks, s') ∧ Keeps hash s' σ' 0 ∧
      s.now ≤ s'.now ∧ Purged (s'.now : Int) σ σ' ∧ bulks.Nodup ∧
      (∀ k ∈ bulks, keyMatches pattern k = some true ∧ live (s.now : Int) σ k ≠ none) ∧
      ∀ k, live (s'.now : Int) σ k ≠ none → keyMatches pattern k = some true → k ∈ bulks := by
  have hlen : (pending s.dict dictGetSafeIterator).length < s.dict.size + 1 := by
    have := h.dict.ok.first.used
    have := h.dict.ok.second.used
    rw [show pending s.dict dictGetSafeIterator = s.dict.entries.keys from rfl, List.keys,
      List.length_map, Dict.entries, List.length_append, Dict.size]
    omega
  obtain ⟨bulks, it', s', σ', hloop, hkeeps, hindex, hle, hpurged, hnodup, hgiven, hall⟩ :=
    keysLoop_spec h _ s σ _ [] [] [] (keysInv_begin h hfits) hlen
  have hrelease : dictReleaseIterator s'.dict it' =
      { s'.dict with iterators := s'.dict.iterators - 1 } := by
    rw [dictReleaseIterator, if_neg fun hi => hindex hi.1]
  have hok := hkeeps.dict.ok
  refine ⟨bulks, { s' with dict := dictReleaseIterator s'.dict it' }, σ', ?_, ?_, hle, hpurged,
    hnodup, hgiven, hall⟩
  · simp only [keysCommand, hloop, Option.bind_eq_bind, Option.bind_some]
  · rw [hrelease]
    refine hkeeps.recount ⟨hok.first, hok.second, hok.nodup, hok.idle, hok.ready, hok.moved⟩ rfl ?_
    rw [hkeeps.dict.iterators]

end BetterEfisis.Redis

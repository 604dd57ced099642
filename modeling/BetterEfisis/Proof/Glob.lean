import BetterEfisis.Redis.Glob

/-!
# The matcher decides what a pattern means

By induction on the rounds, with the grammar's cases: a token takes a character of the
string or fails, and a `*` is tried at every place. The one case that is not as the
grammar says is an empty string against a pattern that begins with a class: the matcher
takes the end of the string for a character there.
-/

namespace BetterEfisis.Redis

variable {p rest s : Sds} {g : List GlobToken} {items : List GlobItem}

/-! ## Classes -/

/-- The loop over a class collects whether one of the listed items has the character. -/
theorem matchClass_eq (h : ReadsClass p items rest) (c : UInt8) (m : Bool) :
    matchClass c p m = some (m || items.any (GlobItem.has c), rest) := by
  induction h generalizing m with
  | unclosed => simp [matchClass]
  | close p => simp [matchClass]
  | escaped b _ ih =>
      rw [matchClass, ih]
      simp [GlobItem.has, Bool.or_assoc]
  | @range p rest items lo hi hb hc _ ih =>
      rw [matchClass, ih]
      · simp [GlobItem.has, Bool.or_assoc]
      · exact hb
      · exact hc
  | one hb hc hd _ ih =>
      rw [matchClass, ih]
      · simp [GlobItem.has, Bool.or_assoc]
      · exact fun h92 => absurd h92 hb
      · exact fun _ _ h92 => absurd h92 hb
      · exact hc
      · exact hd

/-- What is left of the pattern after a class is an end of it. -/
theorem suffix_readsClass (h : ReadsClass p items rest) : rest <:+ p := by
  induction h with
  | unclosed => exact List.suffix_refl _
  | close p => exact List.suffix_cons _ p
  | escaped b _ ih => exact ih.trans (((List.suffix_cons b _)).trans (List.suffix_cons _ _))
  | range hi _ _ _ ih => exact ih.trans ((List.suffix_append [_, 45, hi] _))
  | one _ _ _ _ ih => exact ih.trans (List.suffix_cons _ _)

theorem getLast?_suffix {l l' : Sds} (h : l' <:+ l) (hl : l.getLast? ≠ some 92) :
    l'.getLast? ≠ some 92 := by
  obtain ⟨t, rfl⟩ := h
  intro h92
  exact hl (by rw [List.getLast?_append, h92, Option.some_or])

/-- A class that does not end in a backslash is read. -/
theorem readsClass_exists : ∀ (n : Nat) (p : Sds), p.length ≤ n → p.getLast? ≠ some 92 →
    ∃ items rest, ReadsClass p items rest := by
  intro n
  induction n with
  | zero =>
      intro p hn _
      rw [List.eq_nil_of_length_eq_zero (Nat.le_zero.mp hn)]
      exact ⟨[], [], ReadsClass.unclosed⟩
  | succ n ih =>
      intro p hn hl
      -- what is left after one item is shorter and ends as the pattern does
      have hnext : ∀ q, q <:+ p → q.length ≤ n → ∃ items rest, ReadsClass q items rest :=
        fun q hq hle => ih q hle (getLast?_suffix hq hl)
      cases p with
      | nil => exact ⟨[], [], ReadsClass.unclosed⟩
      | cons b p =>
          simp only [List.length_cons] at hn
          by_cases h93 : b = 93
          · exact ⟨[], p, h93 ▸ ReadsClass.close p⟩
          by_cases h92 : b = 92
          · cases p with
            | nil => exact absurd (by rw [h92]; rfl) hl
            | cons c p =>
                simp only [List.length_cons] at hn
                obtain ⟨items, rest, h⟩ := hnext p (List.suffix_append [b, c] p) (by omega)
                exact ⟨.one c :: items, rest, h92 ▸ ReadsClass.escaped c h⟩
          by_cases hd : ∃ hi q, p = 45 :: hi :: q
          · obtain ⟨hi, q, rfl⟩ := hd
            simp only [List.length_cons] at hn
            obtain ⟨items, rest, h⟩ := hnext q (List.suffix_append [b, 45, hi] q) (by omega)
            exact ⟨.range b hi :: items, rest, ReadsClass.range hi h92 h93 h⟩
          · obtain ⟨items, rest, h⟩ := hnext p (List.suffix_cons b p) (by omega)
            exact ⟨.one b :: items, rest,
              ReadsClass.one h92 h93 (fun hi q hp => hd ⟨hi, q, hp⟩) h⟩

/-- Every pattern that does not end in a backslash means something. -/
theorem reads_exists : ∀ (n : Nat) (p : Sds), p.length ≤ n → p.getLast? ≠ some 92 →
    ∃ g, Reads p g := by
  intro n
  induction n with
  | zero =>
      intro p hn _
      rw [List.eq_nil_of_length_eq_zero (Nat.le_zero.mp hn)]
      exact ⟨[], Reads.nil⟩
  | succ n ih =>
      intro p hn hl
      have hnext : ∀ q, q <:+ p → q.length ≤ n → ∃ g, Reads q g :=
        fun q hq hle => ih q hle (getLast?_suffix hq hl)
      cases p with
      | nil => exact ⟨[], Reads.nil⟩
      | cons b p =>
          simp only [List.length_cons] at hn
          obtain ⟨g, hg⟩ := hnext p (List.suffix_cons b p) (by omega)
          by_cases h42 : b = 42
          · exact ⟨.star :: g, h42 ▸ Reads.star hg⟩
          by_cases h63 : b = 63
          · exact ⟨.any :: g, h63 ▸ Reads.any hg⟩
          by_cases h91 : b = 91
          · subst h91
            -- the class may be negated
            by_cases h94 : p.head? = some 94
            · obtain ⟨q, rfl⟩ := List.head?_eq_some_iff.mp h94
              have hq : q <:+ 91 :: 94 :: q := List.suffix_append [91, 94] q
              obtain ⟨items, rest, h⟩ := readsClass_exists _ q le_rfl (getLast?_suffix hq hl)
              have hle := (suffix_readsClass h).length_le
              simp only [List.length_cons] at hn
              obtain ⟨g, hg⟩ := hnext rest ((suffix_readsClass h).trans hq) (by omega)
              exact ⟨.cls true items :: g, Reads.notCls h hg⟩
            · have hq : p <:+ 91 :: p := List.suffix_cons 91 p
              obtain ⟨items, rest, h⟩ := readsClass_exists _ p le_rfl (getLast?_suffix hq hl)
              have hle := (suffix_readsClass h).length_le
              obtain ⟨g, hg⟩ := hnext rest ((suffix_readsClass h).trans hq) (by omega)
              exact ⟨.cls false items :: g, Reads.cls h94 h hg⟩
          by_cases h92 : b = 92
          · cases p with
            | nil => exact absurd (by rw [h92]; rfl) hl
            | cons c p =>
                simp only [List.length_cons] at hn
                obtain ⟨g, hg⟩ := hnext p (List.suffix_append [b, c] p) (by omega)
                exact ⟨.char c :: g, h92 ▸ Reads.escaped c hg⟩
          · exact ⟨.char b :: g, Reads.char h42 h63 h91 h92 hg⟩

/-! ## Stars -/

/-- A pattern after its leading stars. -/
theorem reads_stars (h : Reads p g) :
    ∃ k g', g = List.replicate k .star ++ g' ∧ Reads (p.dropWhile fun b => b = 42) g' ∧
      g'.head? ≠ some .star := by
  induction h with
  | star _ ih =>
      obtain ⟨k, g', rfl, hr, hne⟩ := ih
      exact ⟨k + 1, g', rfl, by simpa using hr, hne⟩
  | nil => exact ⟨0, [], rfl, Reads.nil, by simp⟩
  | any h _ => exact ⟨0, _, rfl, by simpa using Reads.any h, by simp⟩
  | char h1 h2 h3 h4 h _ => exact ⟨0, _, rfl, by simpa [h1] using Reads.char h1 h2 h3 h4 h, by simp⟩
  | escaped b h _ => exact ⟨0, _, rfl, by simpa using Reads.escaped b h, by simp⟩
  | backslash => exact ⟨0, _, rfl, by simpa using Reads.backslash, by simp⟩
  | cls h1 h2 h _ => exact ⟨0, _, rfl, by simpa using Reads.cls h1 h2 h, by simp⟩
  | notCls h2 h _ => exact ⟨0, _, rfl, by simpa using Reads.notCls h2 h, by simp⟩

/-- Several stars are one. -/
theorem matches_stars (k : Nat) (g : List GlobToken) (s : Sds) :
    Matches (.star :: (List.replicate k .star ++ g)) s ↔ ∃ t, t <:+ s ∧ Matches g t := by
  induction k generalizing s with
  | zero => exact Iff.rfl
  | succ k ih =>
      constructor
      · rintro ⟨t, ht, hm⟩
        obtain ⟨t', ht', hm'⟩ := (ih t).mp hm
        exact ⟨t', ht'.trans ht, hm'⟩
      · rintro ⟨t, ht, hm⟩
        exact ⟨s, List.suffix_refl s, (ih s).mpr ⟨t, ht, hm⟩⟩

/-- What does not begin with a star matches the empty string only if it is empty. -/
theorem matches_nil (hne : g.head? ≠ some .star) : Matches g [] ↔ g = [] := by
  cases g with
  | nil => simp [Matches]
  | cons t g => cases t <;> simp_all [Matches]

theorem matches_stars_nil (k : Nat) (hne : g.head? ≠ some .star) :
    Matches (List.replicate k .star ++ g) [] ↔ g = [] := by
  cases k with
  | zero => exact matches_nil hne
  | succ k =>
      rw [List.replicate_succ, List.cons_append, matches_stars, ← matches_nil hne]
      constructor
      · rintro ⟨t, ht, hm⟩
        rwa [List.suffix_nil.mp ht] at hm
      · intro hm
        exact ⟨[], List.suffix_refl _, hm⟩

theorem reads_nil_iff (h : Reads p g) : p = [] ↔ g = [] := by
  cases h <;> simp

/-- With the string over, a pattern matches if there are only stars left. -/
theorem only_stars_iff (h : Reads p g) :
    (p.dropWhile fun b => b = 42).isEmpty = true ↔ Matches g [] := by
  obtain ⟨k, g', rfl, hr, hne⟩ := reads_stars h
  rw [List.isEmpty_iff, reads_nil_iff hr, matches_stars_nil k hne]

/-- The loop of a star finds a place the rest matches from, if each try decides. -/
theorem anySuffix_spec {k : Sds → Option Bool} {P : Sds → Prop}
    (hk : ∀ b t, (b :: t) <:+ s → ∃ r, k (b :: t) = some r ∧ (r = true ↔ P (b :: t))) :
    ∃ r, anySuffix k s = some r ∧ (r = true ↔ ∃ b t, (b :: t) <:+ s ∧ P (b :: t)) := by
  induction s with
  | nil => exact ⟨false, rfl, by simp⟩
  | cons b s ih =>
      obtain ⟨r, hr, hiff⟩ := hk b s (List.suffix_refl _)
      obtain ⟨r', hr', hiff'⟩ := ih fun c t ht => hk c t (ht.trans (List.suffix_cons b s))
      cases r with
      | true =>
          refine ⟨true, by simp [anySuffix, hr], ?_⟩
          simp only [true_iff]
          exact ⟨b, s, List.suffix_refl _, hiff.mp rfl⟩
      | false =>
          refine ⟨r', by simp [anySuffix, hr, hr'], hiff'.trans ⟨?_, ?_⟩⟩
          · rintro ⟨c, t, ht, hp⟩
            exact ⟨c, t, ht.trans (List.suffix_cons b s), hp⟩
          · rintro ⟨c, t, ht, hp⟩
            rcases List.suffix_cons_iff.mp ht with heq | ht
            · rw [heq] at hp
              exact absurd (hiff.mpr hp) (by simp)
            · exact ⟨c, t, ht, hp⟩

/-- A character passed: what decides the rest decides the whole. -/
theorem passChar_spec {k : Sds → Sds → Option Bool} (h : Reads p g) (b : UInt8) (s : Sds)
    (hk : s ≠ [] → ∃ r, k p s = some r ∧ (r = true ↔ Matches g s)) :
    ∃ r, passChar k p (b :: s) = some r ∧ (r = true ↔ Matches g s) := by
  cases s with
  | nil => exact ⟨_, rfl, only_stars_iff h⟩
  | cons c s => exact hk (by simp)

/-- The first token of a pattern does not take the end of an empty string for a character. -/
def fitsEmpty : List GlobToken → Prop
  | .cls _ _ :: _ => False
  | .char b :: _ => b ≠ 0
  | _ => True

/-- A class, negated or not, once its items are collected. -/
theorem class_round {fuel : Nat} (neg : Bool) (items : List GlobItem)
    (ih : ∀ s, s ≠ [] → ∃ r, stringmatchlen fuel rest s = some r ∧ (r = true ↔ Matches g s))
    (hr : Reads rest g) (b : UInt8) (t : Sds) :
    ∃ r, (if (false || items.any (GlobItem.has b)) = neg then some false
        else passChar (stringmatchlen fuel) rest (b :: t)) = some r ∧
      (r = true ↔ Matches (.cls neg items :: g) (b :: t)) := by
  have hcls : Matches (.cls neg items :: g) (b :: t) ↔
      items.any (GlobItem.has b) ≠ neg ∧ Matches g t := by
    simp only [Matches, List.cons.injEq]
    exact ⟨fun ⟨_, _, ⟨rfl, rfl⟩, h⟩ => h, fun h => ⟨b, t, ⟨rfl, rfl⟩, h⟩⟩
  rw [Bool.false_or, hcls]
  by_cases hn : items.any (GlobItem.has b) = neg
  · exact ⟨false, by rw [if_pos hn], by simp [hn]⟩
  · obtain ⟨r, hp, hiff⟩ := passChar_spec hr b t (ih t)
    exact ⟨r, by rw [if_neg hn, hp], by simp [hn, hiff]⟩

/-- A literal character. -/
theorem char_round {fuel : Nat} {c : UInt8}
    (ih : ∀ s, s ≠ [] → ∃ r, stringmatchlen fuel p s = some r ∧ (r = true ↔ Matches g s))
    (hr : Reads p g) (s : Sds) (hfits : s = [] → c ≠ 0) :
    ∃ r, (if c = s.headD 0 then passChar (stringmatchlen fuel) p s else some false) = some r ∧
      (r = true ↔ Matches (.char c :: g) s) := by
  cases s with
  | nil => exact ⟨false, by simp [hfits rfl], by simp [Matches]⟩
  | cons b t =>
      have hchar : Matches (.char c :: g) (b :: t) ↔ b = c ∧ Matches g t := by
        simp only [Matches, List.cons.injEq]
        exact ⟨fun ⟨_, ⟨h, rfl⟩, hm⟩ => ⟨h, hm⟩, fun ⟨h, hm⟩ => ⟨t, ⟨h, rfl⟩, hm⟩⟩
      rw [hchar, List.headD_cons]
      by_cases hc : c = b
      · obtain ⟨r, hp, hiff⟩ := passChar_spec hr b t (ih t)
        exact ⟨r, by rw [if_pos hc, hp], by simp [hc, hiff]⟩
      · exact ⟨false, by rw [if_neg hc], by simp [Ne.symm hc]⟩

theorem stringmatchlen_spec : ∀ (fuel : Nat) (p : Sds) (g : List GlobToken) (s : Sds),
    p.length < fuel → Reads p g → (s = [] → fitsEmpty g) →
      ∃ r, stringmatchlen fuel p s = some r ∧ (r = true ↔ Matches g s) := by
  intro fuel
  induction fuel with
  | zero => intro p g s hlt; exact absurd hlt (Nat.not_lt_zero _)
  | succ fuel ih =>
      intro p g s hlt hr hfits
      -- the pattern after this round, on a string that is not over
      have hrest : ∀ {q : Sds} {g' : List GlobToken}, q.length < fuel → Reads q g' →
          ∀ s, s ≠ [] → ∃ r, stringmatchlen fuel q s = some r ∧ (r = true ↔ Matches g' s) :=
        fun hq hr' s hs => ih _ _ s hq hr' fun h => absurd h hs
      cases hr with
      | nil => exact ⟨s.isEmpty, rfl, by simp [Matches]⟩
      | @star p g hr =>
          obtain ⟨k, g', rfl, hr', hne⟩ := reads_stars hr
          have hlen : (p.dropWhile fun b => b = 42).length < fuel := by
            have := (List.dropWhile_suffix (l := p) fun b => decide (b = 42)).length_le
            simp only [List.length_cons] at hlt
            omega
          simp only [stringmatchlen, if_true, matches_stars]
          by_cases hemp : (p.dropWhile fun b => b = 42).isEmpty = true
          · have hg' : g' = [] := (reads_nil_iff hr').mp (List.isEmpty_iff.mp hemp)
            refine ⟨true, by rw [if_pos hemp], ?_⟩
            simp only [true_iff]
            exact ⟨[], List.nil_suffix, by rw [hg']; rfl⟩
          · have hg' : g' ≠ [] := fun h => hemp (List.isEmpty_iff.mpr ((reads_nil_iff hr').mpr h))
            obtain ⟨r, hany, hiff⟩ := anySuffix_spec (s := s) (P := Matches g')
              (k := stringmatchlen fuel (p.dropWhile fun b => b = 42))
              (fun b t _ => hrest hlen hr' (b :: t) (by simp))
            refine ⟨r, by rw [if_neg hemp, hany], hiff.trans ⟨?_, ?_⟩⟩
            · rintro ⟨b, t, ht, hm⟩
              exact ⟨b :: t, ht, hm⟩
            · rintro ⟨t, ht, hm⟩
              cases t with
              | nil => exact absurd ((matches_nil hne).mp hm) hg'
              | cons b t => exact ⟨b, t, ht, hm⟩
      | @any p g hr =>
          simp only [List.length_cons] at hlt
          cases s with
          | nil => exact ⟨false, by simp [stringmatchlen], by simp [Matches]⟩
          | cons b t =>
              obtain ⟨r, hp, hiff⟩ := passChar_spec hr b t (hrest (by omega) hr t)
              refine ⟨r, by simpa [stringmatchlen] using hp, hiff.trans ?_⟩
              simp only [Matches, List.cons.injEq]
              exact ⟨fun h => ⟨b, t, ⟨rfl, rfl⟩, h⟩, fun ⟨_, _, ⟨rfl, rfl⟩, h⟩ => h⟩
      | @char p g b h42 h63 h91 h92 hr =>
          simp only [List.length_cons] at hlt
          simp only [stringmatchlen, if_neg h42, if_neg h63, if_neg h91, literal, if_neg h92]
          exact char_round (hrest (by omega) hr) hr s hfits
      | @escaped p g b hr =>
          simp only [List.length_cons] at hlt
          exact char_round (hrest (by omega) hr) hr s hfits
      | backslash => exact char_round (hrest (by simpa using hlt) Reads.nil) Reads.nil s hfits
      | @cls p rest g items hhead hc hr =>
          have := (suffix_readsClass hc).length_le
          simp only [List.length_cons] at hlt
          cases s with
          | nil => exact absurd (hfits rfl) id
          | cons b t =>
              have hm := matchClass_eq hc b false
              obtain ⟨r, hround, hiff⟩ :=
                class_round false items (hrest (by omega) hr) hr b t
              refine ⟨r, ?_, hiff⟩
              simpa [stringmatchlen, hhead, hm] using hround
      | @notCls p rest g items hc hr =>
          have := (suffix_readsClass hc).length_le
          simp only [List.length_cons] at hlt
          cases s with
          | nil => exact absurd (hfits rfl) id
          | cons b t =>
              have hm := matchClass_eq hc b false
              obtain ⟨r, hround, hiff⟩ :=
                class_round true items (hrest (by omega) hr) hr b t
              refine ⟨r, ?_, hiff⟩
              simpa [stringmatchlen, hm] using hround

/--
**The matcher decides what the pattern means.** It comes to an end, and says yes to the
strings the pattern's tokens match and to no others. Only an empty string against a
pattern that begins with a class, or with the byte 0, is left out.
-/
theorem stringmatch_iff (hr : Reads p g) (hfits : s = [] → fitsEmpty g) :
    ∃ r, stringmatch p s = some r ∧ (r = true ↔ Matches g s) :=
  stringmatchlen_spec _ p g s (Nat.lt_succ_self _) hr hfits

/-- `a[^0-9]*` on `ax1`. -/
theorem stringmatch_iff_notDigit : ∃ r,
    stringmatch [97, 91, 94, 48, 45, 57, 93, 42] [97, 120, 49] = some r ∧
      (r = true ↔ Matches [.char 97, .cls true [.range 48 57], .star] [97, 120, 49]) :=
  stringmatch_iff
    (Reads.char (by decide) (by decide) (by decide) (by decide)
      (Reads.notCls (ReadsClass.range 57 (by decide) (by decide) (ReadsClass.close _))
        (Reads.star Reads.nil)))
    (fun h => absurd h (by decide))

/-! ## Prefixes -/

/-- A pattern without special characters. -/
theorem reads_plain {l : Sds} (hl : ∀ b ∈ l, b ≠ 42 ∧ b ≠ 63 ∧ b ≠ 91 ∧ b ≠ 92) (hr : Reads p g) :
    Reads (l ++ p) (l.map .char ++ g) := by
  induction l with
  | nil => exact hr
  | cons b l ih =>
      obtain ⟨h1, h2, h3, h4⟩ := hl b List.mem_cons_self
      exact Reads.char h1 h2 h3 h4 (ih fun b hb => hl b (List.mem_cons_of_mem _ hb))

theorem matches_plain (l : Sds) (g : List GlobToken) (s : Sds) :
    Matches (l.map .char ++ g) s ↔ ∃ t, s = l ++ t ∧ Matches g t := by
  induction l generalizing s with
  | nil => simp
  | cons b l ih =>
      simp only [List.map_cons, List.cons_append, Matches, ih]
      constructor
      · rintro ⟨t, rfl, t', rfl, hm⟩
        exact ⟨t', rfl, hm⟩
      · rintro ⟨t', rfl, hm⟩
        exact ⟨l ++ t', rfl, t', rfl, hm⟩

/-- **A plain text and a star** match what begins with the text. -/
theorem stringmatch_prefix {l : Sds} (hl : ∀ b ∈ l, b ≠ 42 ∧ b ≠ 63 ∧ b ≠ 91 ∧ b ≠ 92)
    (hzero : 0 ∉ l) (s : Sds) : stringmatch (l ++ [42]) s = some (decide (l <+: s)) := by
  obtain ⟨r, hm, hiff⟩ := stringmatchlen_spec _ (l ++ [42]) (l.map .char ++ [.star]) s
    (Nat.lt_succ_self _) (reads_plain hl (Reads.star Reads.nil)) (by
      intro _
      cases l with
      | nil => exact trivial
      | cons b l => exact fun hb => hzero (by rw [hb]; exact List.mem_cons_self))
  have hprefix : Matches (l.map .char ++ [.star]) s ↔ l <+: s := by
    rw [matches_plain]
    constructor
    · rintro ⟨t, rfl, -⟩
      exact List.prefix_append l t
    · rintro ⟨t, rfl⟩
      exact ⟨t, rfl, [], List.nil_suffix, rfl⟩
  rw [stringmatch, hm]
  congr 1
  rw [Bool.eq_iff_iff, hiff, hprefix, decide_eq_true_iff]

end BetterEfisis.Redis

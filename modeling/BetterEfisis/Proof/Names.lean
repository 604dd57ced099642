import BetterEfisis.Lib.Keyed
import BetterEfisis.Worker.B91
import BetterEfisis.Worker.Refresh
import Mathlib.Tactic.IntervalCases

/-!
# The markets a refresh asks for

`RefreshOddsWorker` knows the goal markets by a pattern that is found anywhere in a
name, takes any character for the point, and reads a single digit in front of it.
`B91Worker` makes their names out of a total. The two agree on totals below ten.
-/

namespace BetterEfisis.Proof

open Lib RefreshOddsWorker B91Worker

/-! ## What the pattern is found in -/

theorem overUnder_matches_iff {name : String} :
    overUnder.matches name = true ↔
      ∃ a d x b, name.toList = a ++ ("Over/Under ".toList ++ d :: x :: ("5 Goals".toList ++ b))
        ∧ d.isDigit = true ∧ x ≠ '\n' := by
  rw [matches_iff]
  constructor
  · intro h
    obtain ⟨a, b, hab, hne⟩ := h
    obtain ⟨st, hst⟩ := List.exists_mem_of_ne_nil _ hne
    obtain ⟨_, h₁, h⟩ := mem_seq.mp hst
    obtain ⟨rest, hrest, rfl⟩ := mem_text.mp h₁
    obtain ⟨_, h₂, h⟩ := mem_seq.mp h
    obtain ⟨d, ds, hds, hd, rfl⟩ := mem_one.mp h₂
    obtain ⟨_, h₃, h⟩ := mem_seq.mp h
    obtain ⟨x, xs, hxs, hx, rfl⟩ := mem_one.mp h₃
    obtain ⟨rest', hrest', rfl⟩ := mem_text.mp h
    have h₁ : b = "Over/Under ".toList ++ rest := hrest
    have h₂ : rest = d :: ds := hds
    have h₃ : ds = x :: xs := hxs
    have h₄ : xs = "5 Goals".toList ++ rest' := hrest'
    exact ⟨a, d, x, rest', by rw [hab, h₁, h₂, h₃, h₄], hd, by simpa using hx⟩
  · intro h
    obtain ⟨a, d, x, b, hname, hd, hx⟩ := h
    refine ⟨a, _, hname, ?_⟩
    refine List.ne_nil_of_mem (mem_seq.mpr ⟨_, mem_text.mpr ⟨_, rfl, rfl⟩, mem_seq.mpr
      ⟨_, mem_one.mpr ⟨d, _, rfl, hd, rfl⟩, mem_seq.mpr ⟨_, mem_one.mpr ⟨x, _, rfl, ?_, rfl⟩,
        mem_text.mpr ⟨b, rfl, rfl⟩⟩⟩⟩)
    simpa using hx

/-! ## The names made of totals -/

theorem marketName_toList (n : Nat) :
    (marketName n).toList = "Over/Under ".toList ++ (Nat.toDigits 10 n ++ ".5 Goals".toList) := by
  unfold marketName
  rw [String.toList_append, String.toList_append, List.append_assoc]
  congr 2
  exact Nat.toList_repr

/-- A digit is the numeral of a number below ten. -/
theorem toDigits_of_isDigit {d : Char} (h : d.isDigit = true) :
    ∃ n, n < 10 ∧ Nat.toDigits 10 n = [d] := by
  have hd : 48 ≤ d.toNat ∧ d.toNat ≤ 57 := by
    unfold Char.isDigit at h
    simp only [Bool.and_eq_true, decide_eq_true_eq] at h
    exact h
  obtain ⟨hlow, hhigh⟩ := hd
  have hchar : d = Char.ofNat d.toNat := (Char.ofNat_toNat d).symm
  refine ⟨d.toNat - 48, by omega, ?_⟩
  rw [Nat.toDigits_of_lt_base (by omega)]
  generalize d.toNat = k at hlow hhigh hchar
  rw [hchar]
  -- the ten digits
  interval_cases k <;> rfl

/-- The pattern is found in such a name in one place at most, and only behind a single digit. -/
theorem found_in_marketName {n : Nat} {a b : List Char} {d x : Char}
    (h : (marketName n).toList
      = a ++ ("Over/Under ".toList ++ d :: x :: ("5 Goals".toList ++ b))) :
    a = [] ∧ Nat.toDigits 10 n = [d] ∧ x = '.' ∧ b = [] := by
  have hdigits : ∀ c ∈ Nat.toDigits 10 n, c.isDigit = true :=
    fun c hc => Nat.isDigit_of_mem_toDigits (by omega) (Nat.le_refl _) hc
  rw [marketName_toList] at h
  have hover : "Over/Under ".toList = 'O' :: "ver/Under ".toList := by decide
  have ha : a = [] := by
    cases a with
    | nil => rfl
    | cons o a =>
        -- there is one `O` in the name, and it stands first
        exfalso
        rw [hover, List.cons_append] at h
        obtain ⟨_, htail⟩ := List.cons.inj h
        have hO : 'O' ∈ "ver/Under ".toList ++ (Nat.toDigits 10 n ++ ".5 Goals".toList) := by
          rw [htail]
          simp
        rcases List.mem_append.mp hO with hO | hO
        · exact absurd hO (by decide)
        · rcases List.mem_append.mp hO with hO | hO
          · exact absurd (hdigits _ hO) (by decide)
          · exact absurd hO (by decide)
  subst ha
  refine ⟨rfl, ?_⟩
  have hrest := List.append_cancel_left h
  have hgoals : ".5 Goals".toList = '.' :: "5 Goals".toList := by decide
  have hfive : "5 Goals".toList = '5' :: ' ' :: "Goals".toList := by decide
  rw [hgoals] at hrest
  have hne : Nat.toDigits 10 n ≠ [] := Nat.toDigits_ne_nil
  generalize Nat.toDigits 10 n = ds at hdigits hrest hne ⊢
  match ds, hrest with
  | c :: [], hrest =>
      simp only [List.cons_append, List.nil_append, List.cons.injEq] at hrest
      obtain ⟨rfl, rfl, hb⟩ := hrest
      exact ⟨rfl, rfl, List.append_right_eq_self.mp hb.symm⟩
  -- behind a second digit there is no `5` in front of a blank
  | c :: c₁ :: [], hrest =>
      exfalso
      simp only [hfive, List.cons_append, List.nil_append, List.cons.injEq] at hrest
      exact absurd hrest.2.2.1 (by decide)
  | c :: c₁ :: c₂ :: [], hrest =>
      exfalso
      simp only [hfive, List.cons_append, List.nil_append, List.cons.injEq] at hrest
      exact absurd hrest.2.2.2.1 (by decide)
  | c :: c₁ :: c₂ :: c₃ :: cs, hrest =>
      exfalso
      simp only [hfive, List.cons_append, List.cons.injEq] at hrest
      have hc := hdigits c₃ (by simp)
      rw [hrest.2.2.2.1] at hc
      exact absurd hc (by decide)

/-! ## The names for which the two agree -/

/-- The name is that of the winner market, or that of a goal market for some total. -/
def Betting (name : Option String) : Prop :=
  name = some "Match Odds" ∨ ∃ n, name = some (marketName n)

/--
What looks like a goal market in the name is the whole of it, with a point in front of
the 5, and the name is not that of a market for a total of ten or more.
-/
structure PlainName (name : String) : Prop where
  whole : ∀ a d x b, name.toList
      = a ++ ("Over/Under ".toList ++ d :: x :: ("5 Goals".toList ++ b)) →
    d.isDigit = true → x ≠ '\n' → a = [] ∧ x = '.' ∧ b = []
  single : ∀ n, 10 ≤ n → name ≠ marketName n

/-- On such a name the pattern is right, and on no other. -/
theorem plainName_iff {name : String} :
    PlainName name ↔ (overUnder.matches name = true ↔ ∃ n, name = marketName n) := by
  constructor
  · intro h
    rw [overUnder_matches_iff]
    constructor
    · intro hfound
      obtain ⟨a, d, x, b, hname, hd, hx⟩ := hfound
      obtain ⟨rfl, rfl, rfl⟩ := h.whole a d x b hname hd hx
      obtain ⟨n, _, hn⟩ := toDigits_of_isDigit hd
      refine ⟨n, String.toList_inj.mp ?_⟩
      rw [hname, marketName_toList, hn]
      rfl
    · intro hmade
      obtain ⟨n, rfl⟩ := hmade
      -- a plain name made of a total is made of one with a single digit
      have hn : n < 10 := by
        by_contra hge
        exact h.single n (Nat.le_of_not_lt hge) rfl
      refine ⟨[], Nat.digitChar n, '.', [], ?_, ?_, by decide⟩
      · rw [marketName_toList, Nat.toDigits_of_lt_base hn]
        rfl
      · refine Nat.isDigit_of_mem_toDigits (n := n) (b := 10) (by omega) (Nat.le_refl _) ?_
        rw [Nat.toDigits_of_lt_base hn]
        exact List.mem_singleton_self _
  · intro h
    rw [overUnder_matches_iff] at h
    constructor
    · intro a d x b hname hd hx
      obtain ⟨n, rfl⟩ := h.mp ⟨a, d, x, b, hname, hd, hx⟩
      obtain ⟨ha, _, hx', hb⟩ := found_in_marketName hname
      exact ⟨ha, hx', hb⟩
    · intro n hn hname
      obtain ⟨a, d, x, b, hname', _, _⟩ := h.mpr ⟨n, hname⟩
      rw [hname] at hname'
      obtain ⟨_, hdigit, _⟩ := found_in_marketName hname'
      have hlen := (Nat.length_toDigits_le_iff (n := n) (k := 1) (b := 10) (by omega)
        (by omega)).mp (by rw [hdigit]; exact Nat.le_refl _)
      omega

/-! ## The markets that are collected -/

/-- The stored markets of an event. -/
def marketsOf (t : List (Saved Market)) (eventId : Int) : List Market :=
  (rows t).filter (fun m => decide (m.eventId = eventId))

open Classical in
/-- The ids of those whose names the bets are made under. -/
noncomputable def bettingIds (t : List (Saved Market)) (eventId : Int) : List String :=
  ((marketsOf t eventId).filter (fun m => decide (Betting m.name))).map Market.marketId

/-- The refresh collects the markets under those names, each once, in order, and no others. -/
def CollectsBetting (t : List (Saved Market)) (eventId : Int) : Prop :=
  marketArray t eventId = .ok (bettingIds t eventId)

/-- No stored market of the event is without a name. -/
def AllNamed (t : List (Saved Market)) (eventId : Int) : Prop :=
  ∀ m ∈ marketsOf t eventId, m.name.isSome = true

/-- The names of all stored markets of the event are plain. -/
def AllPlain (t : List (Saved Market)) (eventId : Int) : Prop :=
  ∀ m ∈ marketsOf t eventId, ∀ name, m.name = some name → PlainName name

/-- A market passes one of the two tests. -/
def accepted (m : Market) : Bool :=
  decide (m.name = some "Match Odds") || m.name.any overUnder.matches

/-- It never passes both. -/
theorem wanted_eq {m : Market} (h : m.name.isSome = true) :
    wanted m = .ok (if accepted m then [m.marketId] else []) := by
  obtain ⟨name, hname⟩ := Option.isSome_iff_exists.mp h
  unfold wanted accepted
  rw [hname]
  by_cases ho : name = "Match Odds"
  · have hno : overUnder.matches "Match Odds" = false := by decide
    simp [ho, hno, bind, Except.bind, pure, Except.pure]
  · cases hm : overUnder.matches name <;>
      simp [ho, hm, bind, Except.bind, pure, Except.pure]

theorem flatMap_guard {α β : Type} (p : α → Bool) (f : α → β) (xs : List α) :
    xs.flatMap (fun x => if p x then [f x] else []) = (xs.filter p).map f := by
  induction xs with
  | nil => rfl
  | cons x xs ih =>
      rw [List.flatMap_cons, ih]
      cases hp : p x <;> simp [hp]

theorem marketArray_eq {t : List (Saved Market)} {eventId : Int} (h : AllNamed t eventId) :
    marketArray t eventId
      = .ok (((marketsOf t eventId).filter accepted).map Market.marketId) := by
  have hmap := mapM_eq_ok_map (fun m hm => wanted_eq (h m hm))
  unfold marketArray
  refine foldlM_append_eq_ok.mpr ⟨_, hmap, ?_⟩
  rw [List.nil_append, ← List.flatMap_def, flatMap_guard]

/-- On a plain name the two tests are right, and on no other. -/
theorem accepted_iff {m : Market} {name : String} (hname : m.name = some name) :
    (accepted m = true ↔ Betting m.name) ↔ PlainName name := by
  rw [plainName_iff]
  unfold accepted Betting
  rw [hname]
  -- the winner market is not found by the pattern, and its name is made of no total
  by_cases ho : name = "Match Odds"
  · subst ho
    have hno : overUnder.matches "Match Odds" = false := by decide
    have hother : ¬ ∃ n, "Match Odds" = marketName n := by
      intro h
      obtain ⟨n, hn⟩ := h
      have hlist := congrArg String.toList hn
      rw [marketName_toList] at hlist
      have hfirst := congrArg List.head? hlist
      exact absurd hfirst (by simp)
    simp [hno, hother]
  · simp [ho]

open Classical in
theorem collects_iff {t : List (Saved Market)} {eventId : Int} (h : AllNamed t eventId) :
    CollectsBetting t eventId ↔
      ((marketsOf t eventId).filter accepted).map Market.marketId
        = ((marketsOf t eventId).filter
            (fun m => decide (Betting m.name))).map Market.marketId := by
  unfold CollectsBetting
  rw [marketArray_eq h, Except.ok.injEq]
  rfl

theorem collects_of_plain {t : List (Saved Market)} {eventId : Int} (h : AllNamed t eventId)
    (hplain : AllPlain t eventId) : CollectsBetting t eventId := by
  classical
  rw [collects_iff h]
  congr 1
  refine List.filter_congr ?_
  intro m hm
  obtain ⟨name, hname⟩ := Option.isSome_iff_exists.mp (h m hm)
  rw [Bool.eq_iff_iff, decide_eq_true_iff]
  exact (accepted_iff hname).mpr (hplain m hm name hname)

theorem plain_of_collects {t : List (Saved Market)} {eventId : Int} (h : AllNamed t eventId)
    (hids : Keyed Market.marketId (marketsOf t eventId)) (hc : CollectsBetting t eventId) :
    AllPlain t eventId := by
  classical
  intro m hm name hname
  have hagree := filter_eq_of_keys hids ((collects_iff h).mp hc) m hm
  rw [Bool.eq_iff_iff, decide_eq_true_iff] at hagree
  exact (accepted_iff hname).mp hagree

/-! ## The main result -/

/--
**The refresh asks for the markets a bet may need and no others if their names are all
plain**, and, as market ids are distinct, only then.
-/
theorem collectsBetting_iff (t : List (Saved Market)) (eventId : Int) (h : AllNamed t eventId) :
    (AllPlain t eventId → CollectsBetting t eventId)
      ∧ (Keyed Market.marketId (marketsOf t eventId) →
        CollectsBetting t eventId → AllPlain t eventId) :=
  ⟨collects_of_plain h, plain_of_collects h⟩

/-- Event 7 with a market under that name. -/
def goalMarket (name : String) : List (Saved Market) :=
  [⟨1, ⟨"1.1", 7, some name, none, "unknown"⟩⟩]

theorem goalMarket_named (name : String) : AllNamed (goalMarket name) 7 := by
  intro m hm
  rw [List.mem_singleton.mp hm]
  rfl

/-- The market for two goals is asked for. -/
theorem collectsBetting_two : CollectsBetting (goalMarket "Over/Under 2.5 Goals") 7 := by
  refine (collectsBetting_iff _ 7 (goalMarket_named _)).1 ?_
  intro m hm name hname
  rw [List.mem_singleton.mp hm] at hname
  cases hname
  exact plainName_iff.mpr (iff_of_true (by decide) ⟨2, by decide⟩)

/-- **The market for ten goals is not asked for, and one with a letter for the point is.** -/
theorem not_collectsBetting :
    (¬ ∀ t eventId, AllNamed t eventId → Keyed Market.marketId (marketsOf t eventId) →
        CollectsBetting t eventId)
      ∧ ¬ CollectsBetting (goalMarket "Over/Under 1x5 Goals") 7 := by
  have hids : ∀ name, Keyed Market.marketId (marketsOf (goalMarket name) 7) :=
    fun _ => List.nodup_singleton _
  constructor
  · intro hall
    have hc := hall (goalMarket "Over/Under 10.5 Goals") 7 (goalMarket_named _) (hids _)
    have hplain := plain_of_collects (goalMarket_named _) (hids _) hc _ List.mem_cons_self _ rfl
    exact hplain.single 10 (Nat.le_refl _) (by decide)
  · intro hc
    have hplain := plain_of_collects (goalMarket_named _) (hids _) hc _ List.mem_cons_self _ rfl
    obtain ⟨_, hpoint, _⟩ := hplain.whole [] '1' 'x' [] (by decide) (by decide) (by decide)
    exact absurd hpoint (by decide)

end BetterEfisis.Proof

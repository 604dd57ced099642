import BetterEfisis.Proof.Serving

/-!
# A key that has expired does not come back

Whether its entry was deleted or is still in the tables, a key whose deadline has passed
is gone until a command writes it. One that is meant to keep a key counts as writing it:
`persistCommand` does not look at the deadline, and brings back a key that has expired
and that nothing has come across yet (`persist_revives`).
-/

namespace BetterEfisis.Redis

open Lib (live)

variable {π : Type} {hash : Sds → UInt32} {s : Server π} {σ σ' : Space π} {key : Sds}
  {t₀ t : Int} {r : Reply} {c : Command}

/-- The keys that may be there after a command and were not before. -/
def Command.writes : Command → List Sds
  | .set key _ _ | .setnx key _ | .setex _ key _ _ | .getset key _ | .persist key => [key]
  | .rename _ _ newkey => [newkey]
  | _ => []

theorem set_gone {o : SetOptions} {k val : Sds} {okReply abortReply : Reply}
    (h : SetAnswers σ t₀ t σ' r o k val okReply abortReply) (hk : live t σ key = none)
    (hne : key ≠ k) : live t σ' key = none := by
  unfold SetAnswers at h
  split at h
  · rw [h.2, hk]
  · rcases h with ⟨-, hσ, -⟩ | ⟨-, -, -, hσ⟩
    · rw [hσ, hk]
    · rw [hσ, written, Lib.live_update_of_ne hne, hk]

/-- One command: a key that is not there is not there after it. -/
theorem answers_gone (h : Answers σ t₀ t σ' r c) (hle : t₀ ≤ t) (hk : live t₀ σ key = none)
    (hw : key ∉ c.writes) : live t σ' key = none := by
  have hlive := Lib.live_none_of_earlier hle hk
  -- the key of a command that found one is another
  have hother : ∀ {k : Sds} {e : Robj π × Option Int}, live t₀ σ k = some e → key ≠ k := by
    rintro k e he rfl
    rw [hk] at he
    simp at he
  cases c with
  | get k => rw [h.1, hlive]
  | set k val opts =>
      simp only [Answers] at h
      split at h
      · rw [h.2, hlive]
      · exact set_gone h hlive (by simpa [Command.writes] using hw)
  | setnx k val =>
      have h : SetAnswers σ t₀ t σ' r ⟨true, false, none, false⟩ k val Reply.cone Reply.czero := h
      exact set_gone h hlive (by simpa [Command.writes] using hw)
  | setex ms k expire val =>
      have h : SetAnswers σ t₀ t σ' r ⟨false, false, some expire, ms⟩ k val .ok .nullbulk := h
      exact set_gone h hlive (by simpa [Command.writes] using hw)
  | getset k val =>
      obtain ⟨t₁, -, -, -, hσ⟩ := h
      have hne : key ≠ k := by simpa [Command.writes] using hw
      rw [hσ]
      split
      · exact hlive
      · rw [written, Lib.live_update_of_ne hne, hlive]
  | del keys =>
      obtain ⟨-, hσ⟩ := h
      by_cases hin : key ∈ keys
      · exact Lib.live_none (by rw [hσ]; exact if_pos hin) t
      · rw [← hlive, hσ, live, live, if_neg hin]
  | «exists» k => rw [h.1, hlive]
  | keys pattern => rw [h.1, hlive]
  | expire u k param =>
      simp only [Answers] at h
      split at h
      · rw [h.2, hlive]
      · rcases h with ⟨-, -, hσ⟩ | ⟨-, v, e, base, hthere, -, hσ⟩
        · rw [hσ, hlive]
        · rw [hσ, Lib.live_update_of_ne (hother hthere), hlive]
  | ttl ms k => rw [h.1, hlive]
  | persist k =>
      have hne : key ≠ k := by simpa [Command.writes] using hw
      rcases h with ⟨-, hσ, -⟩ | ⟨-, v, w, -, hσ⟩
      · rw [hσ, hlive]
      · rw [hσ, Lib.live_update_of_ne hne, hlive]
  | rename nx k newkey =>
      have hne : key ≠ newkey := by simpa [Command.writes] using hw
      rcases h with ⟨-, -, hσ⟩ | ⟨-, -, -, hσ⟩ | ⟨-, -, -, -, hσ⟩ | ⟨-, -, -, v, e, hthere, hσ⟩
      · rw [hσ, hlive]
      · rw [hσ, hlive]
      · rw [hσ, hlive]
      · rw [hσ, Lib.live_update_of_ne (hother hthere), Lib.live_update_of_ne hne, hlive]
  | flushdb => exact Lib.live_none (by rw [h.2]) t

/-- What the cron removes is gone. -/
theorem sheds_gone (h : Sheds t σ σ') (hk : live t σ key = none) : live t σ' key = none := by
  rcases h key with hsame | ⟨hnone, -⟩
  · rw [← hk, live, live, hsame]
  · exact Lib.live_none hnone t

/-- A run of commands that do not write the key. -/
theorem served_gone {events : List (List Nat × ServerEvent)} {replies : List (Option Reply)}
    (h : Served σ t₀ events replies σ' t) (hk : live t₀ σ key = none)
    (hw : ∀ ticks c, (ticks, ServerEvent.command c) ∈ events → key ∉ c.writes) :
    live t σ' key = none ∧
      ∀ (i : Nat) (ticks : List Nat), events[i]? = some (ticks, .command (.get key)) →
        replies[i]? = some (some .nullbulk) := by
  induction h with
  | nil σ t => exact ⟨hk, by simp⟩
  | @command σ σ₁ σ₂ σ₃ t t₁ t₂ ticks c r events replies hle hanswers hpurged hserved ih =>
      have hk₁ := answers_gone hanswers hle hk (hw ticks c List.mem_cons_self)
      rw [← hpurged.live le_rfl] at hk₁
      obtain ⟨hend, hreplies⟩ := ih hk₁ fun ticks c hmem => hw ticks c (List.mem_cons_of_mem _ hmem)
      refine ⟨hend, fun i ticks' hi => ?_⟩
      cases i with
      | zero =>
          obtain ⟨-, rfl⟩ : ticks = ticks' ∧ c = .get key := by simpa using hi
          rw [List.getElem?_cons_zero, hanswers.2, Lib.live_none_of_earlier hle hk]
          rfl
      | succ i => exact hreplies i ticks' (by simpa using hi)
  | @cron σ σ₁ σ₂ t t₁ t₂ ticks e events replies he hle hsheds hserved ih =>
      have hk₁ := sheds_gone hsheds (Lib.live_none_of_earlier hle hk)
      obtain ⟨hend, hreplies⟩ := ih hk₁ fun ticks c hmem => hw ticks c (List.mem_cons_of_mem _ hmem)
      refine ⟨hend, fun i ticks' hi => ?_⟩
      cases i with
      | zero =>
          obtain ⟨-, hcron⟩ : ticks = ticks' ∧ e = .command (.get key) := by simpa using hi
          exact absurd hcron (he _)
      | succ i => exact hreplies i ticks' (by simpa using hi)

/--
**A key that has expired stays away** from every command until one writes it: whether it
was deleted when its deadline passed, or is still in the tables, `GET` gives nothing, in
any run with anything the cron does in between.
-/
theorem expired_stays_away (events : List (List Nat × ServerEvent)) (h : Keeps hash s σ 0)
    (hfits : Fits hash s events) (hgone : live (s.now : Int) σ key = none)
    (hw : ∀ ticks c, (ticks, ServerEvent.command c) ∈ events → key ∉ c.writes) :
    ∃ replies s' σ', serverRun hash s events = some (replies, s') ∧ Keeps hash s' σ' 0 ∧
      live (s'.now : Int) σ' key = none ∧
      ∀ (i : Nat) (ticks : List Nat), events[i]? = some (ticks, .command (.get key)) →
        replies[i]? = some (some .nullbulk) := by
  obtain ⟨replies, s', σ', hrun, hkeeps, hserved⟩ := serverRun_spec events h hfits
  obtain ⟨hend, hreplies⟩ := served_gone hserved hgone hw
  exact ⟨replies, s', σ', hrun, hkeeps, hend, hreplies⟩

/-! ## A key past its deadline in the tables -/

/-- `b` was given five milliseconds, and six went by when `c` was given as many. -/
def bThenC : List (List Nat × ServerEvent) :=
  [([], .command (.set [97] [49] [])), ([], .command (.set [98] [50] [[112, 120], [53]])),
    ([6], .command (.set [99] [51] [[112, 120], [53]]))]

/-- The server then: the deadline of `b` has passed, and `b` is still in its tables. -/
def bExpired : Server Unit where
  dict := ⟨⟨[[], [⟨[99], .string [51]⟩, ⟨[98], .string [50]⟩, ⟨[97], .string [49]⟩], [], []], 3⟩,
    Dictht.reset, none, 0⟩
  expires := ⟨⟨[[], [⟨[99], 1011⟩, ⟨[98], 1005⟩], [], []], 2⟩, Dictht.reset, none, 0⟩
  canResize := true
  loading := false
  masterhost := false
  now := 1006
  ticks := []

theorem keeps_bExpired : ∃ σ : Space Unit, Keeps byLength bExpired σ 0 ∧
    live (bExpired.now : Int) σ [98] = none := by
  obtain ⟨replies, s', σ, hrun, h, -⟩ :=
    serverRun_spec bThenC (keeps_emptyServer byLength) (by decide)
  have hstate : (serverRun byLength emptyServer bThenC).map Prod.snd = some bExpired := by
    decide +kernel
  rw [hrun] at hstate
  obtain rfl := Option.some.inj hstate
  refine ⟨σ, h, ?_⟩
  have hdue : (σ [98]).bind Prod.snd = some 1005 := (h.expires.get [98]).symm
  obtain ⟨⟨v, w⟩, he, rfl⟩ := Option.bind_eq_some_iff.mp hdue
  rw [live, he]
  rfl

/-- Asked for the other keys, and then for `b`. -/
def othersAndB : List (List Nat × ServerEvent) :=
  [([], .command (.exists [97])), ([], .rehash 1), ([1], .command (.keys [91, 97, 45, 98, 93, 42])),
    ([], .command (.get [98]))]

theorem expired_stays_away_b : ∃ replies s', ∃ σ' : Space Unit,
    serverRun byLength bExpired othersAndB = some (replies, s') ∧
    live (s'.now : Int) σ' [98] = none ∧ replies[3]? = some (some .nullbulk) := by
  obtain ⟨σ, h, hgone⟩ := keeps_bExpired
  obtain ⟨replies, s', σ', hrun, -, hend, hreplies⟩ :=
    expired_stays_away othersAndB h (by decide) hgone (by
      intro ticks c hmem
      simp only [othersAndB, List.mem_cons, Prod.mk.injEq, List.not_mem_nil, or_false] at hmem
      rcases hmem with ⟨-, h⟩ | ⟨-, h⟩ | ⟨-, h⟩ | ⟨-, h⟩ <;> cases h <;> decide)
  exact ⟨replies, s', σ', hrun, hend, hreplies 3 [] rfl⟩

/-- `PERSIST` brings back a key that `GET` would not have found. -/
theorem persist_revives :
    (serverRun byLength bExpired [([], .command (.get [98]))]).map Prod.fst =
      some [some .nullbulk] ∧
    (serverRun byLength bExpired [([], .command (.persist [98])), ([], .command (.get [98]))]).map
      Prod.fst = some [some Reply.cone, some (.bulk [50])] := by
  decide

end BetterEfisis.Redis

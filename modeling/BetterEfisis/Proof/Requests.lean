import BetterEfisis.Asking
import BetterEfisis.Lib.Chunks

/-!
# The requests of a refresh

`in_groups_of(10)` fills the last group up with `nil`, and an array goes through
`get_market_book` as it is. The requests are the market ids in tens exactly where
there is nothing to fill up.
-/

namespace BetterEfisis.Proof

open Lib Betfair RefreshOddsWorker

/-- Each request is for one to ten markets, and together they are for `ids`, in order. -/
def PartitionedBy (ids : List String) (requests : List MarketBookRequest) : Prop :=
  (∀ r ∈ requests, 1 ≤ r.marketIds.length ∧ r.marketIds.length ≤ 10 ∧ none ∉ r.marketIds)
    ∧ (requests.map MarketBookRequest.marketIds).flatten = ids.map some

/-! ## The groups -/

theorem flatten_inGroupsOf {α : Type} {n : Nat} (hn : 0 < n) (xs : List α) :
    (inGroupsOf n xs).flatten
      = xs.map some ++ List.replicate ((n - xs.length % n) % n) none :=
  flatten_toChunks hn _

theorem length_of_mem_inGroupsOf {α : Type} {n : Nat} (hn : 0 < n) {xs : List α}
    {m : List (Option α)} (h : m ∈ inGroupsOf n xs) : 0 < m.length ∧ m.length ≤ n :=
  length_of_mem_toChunks hn h

/-- Nothing is filled up where the groups come out even. -/
theorem padding_eq_zero_iff {n k : Nat} (hn : 0 < n) : (n - k % n) % n = 0 ↔ n ∣ k := by
  have hlt := Nat.mod_lt k hn
  rw [Nat.dvd_iff_mod_eq_zero]
  by_cases hk : k % n = 0
  · rw [hk, Nat.sub_zero, Nat.mod_self]
  · rw [Nat.mod_eq_of_lt (by omega)]
    omega

/-- The groups of ten are a partition exactly where they come out even. -/
theorem partitionedBy_iff {ids : List String} {requests : List MarketBookRequest}
    (h : requests.map MarketBookRequest.marketIds = inGroupsOf 10 ids) :
    PartitionedBy ids requests ↔ 10 ∣ ids.length := by
  have hten : 0 < 10 := by decide
  have hflat := flatten_inGroupsOf hten ids
  rw [← padding_eq_zero_iff hten]
  constructor
  · intro hpart
    rw [← h, hpart.2] at hflat
    -- as many entries as there are ids leaves no room for a `nil`
    have hlen := congrArg List.length hflat
    rw [List.length_append, List.length_replicate] at hlen
    omega
  · intro hpad
    rw [hpad, List.replicate_zero, List.append_nil] at hflat
    refine ⟨?_, by rw [h, hflat]⟩
    intro r hr
    have hgroup : r.marketIds ∈ inGroupsOf 10 ids := by
      rw [← h]
      exact List.mem_map_of_mem hr
    obtain ⟨hpos, hle⟩ := length_of_mem_inGroupsOf hten hgroup
    refine ⟨hpos, hle, ?_⟩
    intro hnone
    have hmem : none ∈ ids.map some := by
      rw [← hflat]
      exact List.mem_flatten_of_mem hgroup hnone
    obtain ⟨id, _, hid⟩ := List.mem_map.mp hmem
    exact absurd hid (by simp)

/-! ## The run -/

/-- What has been asked for, and what is still to be, are the groups of the ids. -/
def Groups (t : List (Saved Market)) (eventId : Int) (requests : List MarketBookRequest)
    (ids : List String) (groups : List (List (Option String))) : Prop :=
  marketArray t eventId = .ok ids
    ∧ requests.map MarketBookRequest.marketIds ++ groups = inGroupsOf 10 ids

/-- The requests of a run over the markets `t`, wherever it is. -/
def RequestsInv (t : List (Saved Market)) (eventId : Int) (s : Store)
    (requests : List MarketBookRequest) : Outcome Pc → Prop
  | .next .login | .next .load => s.markets = t ∧ requests = []
  | .next (.ask ids groups _) | .next (.parse ids _ groups _) =>
      Groups t eventId requests ids groups
  | .finished => ∃ ids, Groups t eventId requests ids []
  | .raised => True

variable {md5 : String → String} {same : String → String → Bool}
  {apiAccount : List Account → Option Account} {eventId : Int}
  {t : List (Saved Market)}

/-- Asking for the first group. -/
theorem Groups.ask {requests : List MarketBookRequest} {ids : List String}
    {m : List (Option String)} {groups : List (List (Option String))}
    (h : Groups t eventId requests ids (m :: groups)) :
    Groups t eventId (requests ++ [marketBookRequest (.array m)]) ids groups := by
  refine ⟨h.1, ?_⟩
  rw [List.map_append, List.append_assoc]
  exact h.2

theorem requestsInv_step {lg : EventWorker.Logon} {answer : Option (List MarketBook)} {s : Store}
    {requests : List MarketBookRequest} {pc : Pc}
    (h : RequestsInv t eventId s requests (.next pc)) :
    RequestsInv t eventId (step md5 same apiAccount lg answer eventId s pc).1
      (requests ++ Asking.asked ⟨s, .next pc⟩ (.perform lg answer))
      (step md5 same apiAccount lg answer eventId s pc).2 := by
  cases pc with
  | login =>
      rw [Asking.asked, List.append_nil, step]
      cases EventWorker.apiNew md5 same apiAccount lg s.accounts with
      | ok accounts => exact h
      | error x => trivial
  | load =>
      obtain ⟨hmarkets, hnil⟩ := h
      rw [Asking.asked, List.append_nil, step, hmarkets]
      cases hids : marketArray t eventId with
      | ok ids =>
          refine ⟨hids, ?_⟩
          rw [hnil]
          rfl
      | error x => trivial
  | ask ids groups books =>
      cases groups with
      | nil =>
          rw [Asking.asked, List.append_nil]
          exact ⟨ids, h⟩
      | cons m groups =>
          have hasked : Groups t eventId
              (requests ++ Asking.asked ⟨s, .next (.ask ids (m :: groups) books)⟩
                (.perform lg answer)) ids groups := Groups.ask h
          -- the request is out before it is known whether it is answered
          cases answer with
          | none => trivial
          | some result =>
              rw [step]
              split <;> exact hasked
  | parse ids results groups books =>
      rw [Asking.asked, List.append_nil]
      cases results with
      | nil => exact h
      | cons runners results =>
          rw [step]
          cases parseRunners s.selections runners with
          | ok books' => exact h
          | error x => trivial

theorem requestsInv_reachable {s : Store} {l : Logged Asking MarketBookRequest}
    (h : Lib.Reachable (logged (Asking.act md5 same apiAccount eventId) Asking.asked) always
      (unobserved (Asking.Init s)) l) :
    RequestsInv s.markets eventId l.state.store l.log l.state.at_ := by
  refine h.invariant (I := fun l => RequestsInv s.markets eventId l.state.store l.log l.state.at_)
    ?_ ?_
  · intro l hinit
    obtain ⟨hstate, hlog⟩ := hinit
    rw [hstate, hlog]
    exact ⟨rfl, rfl⟩
  · intro l a l' hinv _ hs
    obtain ⟨hact, hlog⟩ := logged_eq_some.mp hs
    obtain ⟨lg, answer⟩ := a
    obtain ⟨⟨s₁, at_⟩, requests⟩ := l
    dsimp only at hinv hact hlog
    cases at_ with
    | next pc =>
        rw [hlog, ← Option.some.inj hact]
        exact requestsInv_step hinv
    | finished => exact absurd hact (by simp [Asking.act])
    | raised => exact absurd hact (by simp [Asking.act])

/-! ## The main result -/

/--
**The requests of a run that gets to its end are the market ids it has collected in
tens exactly where these come out even.**
-/
theorem requests_partition_iff (md5 : String → String) (same : String → String → Bool)
    (apiAccount : List Account → Option Account) (eventId : Int) (s : Store)
    (l : Logged Asking MarketBookRequest)
    (h : Lib.Reachable (logged (Asking.act md5 same apiAccount eventId) Asking.asked) always
      (unobserved (Asking.Init s)) l) (hend : l.state.at_ = .finished) :
    ∃ ids, marketArray s.markets eventId = .ok ids
      ∧ (PartitionedBy ids l.log ↔ 10 ∣ ids.length) := by
  have hinv := requestsInv_reachable h
  rw [hend] at hinv
  obtain ⟨ids, hids, hgroups⟩ := hinv
  rw [List.append_nil] at hgroups
  exact ⟨ids, hids, partitionedBy_iff hgroups⟩

/-- Event 7 with the one market, and the account it is asked for with. -/
def singleMarket : Store := { Store.boot with
  accounts := [Account.new (some "u") (some "p") (some "betfair")]
  markets := [⟨1, ⟨"1.1", 7, some "Match Odds", none, "unknown"⟩⟩] }

/-- A login, the read of the markets, the one request, and the import. -/
def oneRequest : List Asking.Act :=
  List.replicate 4 (.perform ⟨0, 0, 0, some "token"⟩ (some []))

theorem oneRequest_run :
    ∃ l, Lib.Reachable
      (logged (Asking.act id Collation.ignoreCase.same List.head? 7) Asking.asked) always
        (unobserved (Asking.Init singleMarket)) l
      ∧ l.state.at_ = .finished
      ∧ l.log = [marketBookRequest (.array (some "1.1" :: List.replicate 9 none))] :=
  reachable_of_run _ always oneRequest _ (s := ⟨⟨singleMarket, .next .login⟩, []⟩) ⟨rfl, rfl⟩
    (by decide +kernel)

theorem requests_partition_singleMarket :
    ∃ (l : Logged Asking MarketBookRequest) (ids : List String),
      l.state.at_ = .finished ∧ marketArray singleMarket.markets 7 = .ok ids
        ∧ (PartitionedBy ids l.log ↔ 10 ∣ ids.length) := by
  obtain ⟨l, h, hend, _⟩ := oneRequest_run
  obtain ⟨ids, hids, hiff⟩ := requests_partition_iff id Collation.ignoreCase.same List.head? 7
    singleMarket l h hend
  exact ⟨l, ids, hend, hids, hiff⟩

/-- **A single market is asked for with nine `nil`.** -/
theorem requests_not_partition :
    ¬ ∀ md5 same apiAccount eventId s l,
      Lib.Reachable (logged (Asking.act md5 same apiAccount eventId) Asking.asked) always
        (unobserved (Asking.Init s)) l → l.state.at_ = .finished →
      ∀ ids, marketArray s.markets eventId = .ok ids → PartitionedBy ids l.log := by
  intro hall
  obtain ⟨l, h, hend, hlog⟩ := oneRequest_run
  have hids : marketArray singleMarket.markets 7 = .ok ["1.1"] := by decide +kernel
  obtain ⟨hentries, _⟩ :=
    hall id Collation.ignoreCase.same List.head? 7 singleMarket l h hend ["1.1"] hids
  rw [hlog] at hentries
  exact (hentries _ List.mem_cons_self).2.2 (by decide)

end BetterEfisis.Proof

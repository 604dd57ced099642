import BetterEfisis.Proof.Serving
import BetterEfisis.Proof.Glob
import BetterEfisis.Proof.Snapshot
import BetterEfisis.Worker.Odds
import BetterEfisis.Lib.Form

/-!
# The workers as clients of the server

To the workers Redis is a map from texts to values. They use four commands, and give no
key a deadline. Here the map is what the server keeps of the keys that are theirs (`own`):
under the bytes of a text is what the client library writes for the value (`write`), and
nothing else is there. Other clients may have other keys on the server, with deadlines or
without.
-/

namespace BetterEfisis.Redis

open Lib (live bytes Purged)

/-- What the workers and the initializer call on `$redis`. -/
inductive WorkerCall where
  | get (key : String)
  | set (key : String) (v : RedisValue)
  | del (key : String)
  /-- `$redis.keys("event-web-monitor*")`. -/
  | monitorKeys
  deriving DecidableEq

namespace WorkerCall

/-- The command the server gets. -/
def command (write : RedisValue → Sds) : WorkerCall → Command
  | get key => .get (bytes key)
  | set key v => .set (bytes key) (write v) []
  | del key => .del [bytes key]
  | monitorKeys => .keys (bytes "event-web-monitor*")

/-- The store after the call. -/
def after (s : Store) : WorkerCall → Store
  | set key v => s.redisSet key v
  | del key => s.redisDel key
  | get _ | monitorKeys => s

/-- The key of the call is one of those that are the workers'. -/
def On (own : Sds → Prop) : WorkerCall → Prop
  | get key | set key _ | del key => own (bytes key)
  | monitorKeys => True

instance decidableOn (own : Sds → Prop) [DecidablePred own] (c : WorkerCall) :
    Decidable (c.On own) :=
  match c with
  | get key | set key _ | del key => inferInstanceAs (Decidable (own (bytes key)))
  | monitorKeys => inferInstanceAs (Decidable True)

/-- What the reply says of the store before the call. -/
def Tells (write : RedisValue → Sds) (s : Store) (r : Reply) : WorkerCall → Prop
  | get key => r = ((s.redis key).map fun v => Reply.bulk (write v)).getD .nullbulk
  | set _ _ => r = .ok
  | del key => r = .integer 1 ∨ r = .integer 0 ∧ s.redis key = none
  | monitorKeys => ∃ keys : List String,
      r = .multi (keys.map bytes) ∧ keys.Nodup ∧ Proof.Lists s keys

end WorkerCall

/-- A call of a worker, or something the cron of the server does. -/
inductive ClientEvent where
  | call (c : WorkerCall)
  | cron (e : ServerEvent) (hcron : ∀ c, e ≠ .command c)

/-- The event at the server. -/
def ClientEvent.event (write : RedisValue → Sds) : ClientEvent → ServerEvent
  | call c => .command (c.command write)
  | cron e _ => e

/-- A run as the workers see it. -/
inductive Informed (write : RedisValue → Sds) :
    Store → List (List Nat × ClientEvent) → List (Option Reply) → Store → Prop where
  | nil (s : Store) : Informed write s [] [] s
  | call {s s' : Store} {ticks : List Nat} {c : WorkerCall} {r : Reply}
      {events : List (List Nat × ClientEvent)} {replies : List (Option Reply)} :
      c.Tells write s r → Informed write (c.after s) events replies s' →
      Informed write s ((ticks, .call c) :: events) (some r :: replies) s'
  | cron {s s' : Store} {ticks : List Nat} {e : ServerEvent} {hcron : ∀ c, e ≠ .command c}
      {events : List (List Nat × ClientEvent)} {replies : List (Option Reply)} :
      Informed write s events replies s' →
      Informed write s ((ticks, .cron e hcron) :: events) (none :: replies) s'

variable {π : Type} {write : RedisValue → Sds} {own : Sds → Prop} {σ σ' σ'' : Space π}
  {store : Store} {t t₀ : Int}

/-- Of the keys in `own` the key space holds what the store has, without deadlines. -/
structure Mirrors (write : RedisValue → Sds) (own : Sds → Prop) (σ : Space π) (store : Store) :
    Prop where
  here : ∀ key, own (bytes key) →
    σ (bytes key) = (store.redis key).map fun v => (.string (write v), none)
  only : ∀ k, own k → σ k ≠ none → ∃ key, k = bytes key
  /-- The store has no other keys. -/
  within : ∀ key, store.redis key ≠ none → own (bytes key)

/-- A key space that is the same in the keys of the workers. -/
theorem Mirrors.same (h : Mirrors write own σ store) (hσ : ∀ k, own k → σ' k = σ k) :
    Mirrors write own σ' store where
  here key hkey := by rw [hσ _ hkey, h.here key hkey]
  only k hk hne := h.only k hk (hσ k hk ▸ hne)
  within := h.within

/-- None of them has a deadline. -/
theorem Mirrors.undated (h : Mirrors write own σ store) {k : Sds} (hk : own k)
    {v : Robj π} {w : Option Int} (he : σ k = some (v, w)) : w = none := by
  obtain ⟨key, rfl⟩ := h.only k hk (by rw [he]; simp)
  rw [h.here key hk] at he
  obtain ⟨x, -, hx⟩ := Option.map_eq_some_iff.mp he
  cases hx
  rfl

/-- Nothing of them goes with time. -/
theorem Mirrors.later (h : Mirrors write own (live t₀ σ) store) (hle : t₀ ≤ t) :
    Mirrors write own (live t σ) store := by
  refine h.same fun k hk => ?_
  cases he : live t₀ σ k with
  | none => exact Lib.live_none_of_earlier hle he
  | some e =>
      obtain ⟨v, w⟩ := e
      cases h.undated hk he
      exact Lib.live_eq_some.mpr ⟨(Lib.live_eq_some.mp he).1, rfl⟩

/-- Nor with what the cron does. -/
theorem Mirrors.sheds (h : Mirrors write own (live t σ) store) (hσ : Sheds t σ σ') :
    Mirrors write own (live t σ') store := by
  refine h.same fun k hk => ?_
  rcases hσ k with hsame | ⟨hnone, v, w, he, -⟩
  · rw [live, hsame, live]
  · rw [Lib.live_none hnone]
    cases hl : live t σ k with
    | none => rfl
    | some e =>
        rw [(Lib.live_eq_some.mp hl).1] at he
        cases he
        exact absurd (h.undated hk hl) (by simp)

theorem Mirrors.set (h : Mirrors write own (live t σ) store) {key : String} (hkey : own (bytes key))
    (v : RedisValue) :
    Mirrors write own (live t (Function.update σ (bytes key) (some (.string (write v), none))))
      (store.redisSet key v) := by
  rw [Lib.live_update]
  constructor
  · intro key' hown
    by_cases hk : key' = key
    · rw [hk, Function.update_self, Store.redisSet_self]
      rfl
    · rw [Function.update_of_ne fun he => hk (Lib.bytes_inj.mp he), h.here key' hown,
        Store.redisSet]
      simp only [if_neg hk]
  · intro k hown hne
    by_cases hk : k = bytes key
    · exact ⟨key, hk⟩
    · rw [Function.update_of_ne hk] at hne
      exact h.only k hown hne
  · intro key' hne
    by_cases hk : key' = key
    · exact hk ▸ hkey
    · rw [Store.redisSet] at hne
      simp only [if_neg hk] at hne
      exact h.within key' hne

theorem Mirrors.del (h : Mirrors write own (live t σ) store) (key : String) :
    Mirrors write own (live t fun k => if k ∈ [bytes key] then none else σ k)
      (store.redisDel key) := by
  have hlive : ∀ k, live t (fun k => if k ∈ [bytes key] then none else σ k) k =
      if k = bytes key then none else live t σ k := by
    intro k
    by_cases hk : k = bytes key
    · rw [if_pos hk, Lib.live_none]
      simp [hk]
    · rw [if_neg hk, live, live]
      simp [hk]
  constructor
  · intro key' hown
    rw [hlive]
    by_cases hk : key' = key
    · simp [hk]
    · rw [if_neg fun he => hk (Lib.bytes_inj.mp he), h.here key' hown, Store.redisDel]
      simp only [if_neg hk]
  · intro k hown hne
    rw [hlive] at hne
    refine h.only k hown fun hn => hne ?_
    rw [hn, ite_self]
  · intro key' hne
    refine h.within key' fun hn => hne ?_
    rw [Store.redisDel]
    simp only [hn, ite_self]

/-! ## The pattern of the scan -/

theorem allkeys_monitor : allkeys (bytes "event-web-monitor*") = false := by decide

/-- The pattern takes the keys the scan is for. -/
theorem keyMatches_monitor (k : Sds) :
    keyMatches (bytes "event-web-monitor*") k =
      some (decide (bytes "event-web-monitor" <+: k)) := by
  have hpattern : bytes "event-web-monitor*" = bytes "event-web-monitor" ++ [42] := by decide
  rw [keyMatches, allkeys_monitor, hpattern]
  exact stringmatch_prefix (by decide +kernel) (by decide +kernel) k

theorem keys_iff (k : Sds) (key : String) (hk : k = bytes key) :
    keyMatches (bytes "event-web-monitor*") k = some true ↔
      B91Worker.isMonitorKey key = true := by
  have hall : ("event-web-monitor".toList.all fun c => decide (c.val.toNat ≤ 127)) = true := by
    decide
  have hascii : ∀ c ∈ "event-web-monitor".toList, c.val.toNat ≤ 127 := fun c hc =>
    of_decide_eq_true (List.all_eq_true.mp hall c hc)
  rw [keyMatches_monitor, hk, Option.some_inj, decide_eq_true_iff,
    Lib.bytes_prefix hascii, B91Worker.isMonitorKey, List.isPrefixOf_iff_prefix]

theorem fits_workers (hash : Sds → UInt32) (s : Server π)
    (events : List (List Nat × ClientEvent)) :
    Fits hash s (events.map fun x => (x.1, x.2.event write)) := by
  induction events generalizing s with
  | nil => exact trivial
  | cons x events ih =>
      obtain ⟨ticks, e⟩ := x
      refine ⟨?_, ?_⟩
      · cases e with
        | call c =>
            cases c with
            | monitorKeys =>
                intro k _
                rw [keyMatches_monitor]
                rfl
            | get _ | set _ _ | del _ => exact trivial
        | cron e hcron =>
            cases e with
            | command c => exact absurd rfl (hcron c)
            | activeExpire _ | resize | rehash _ | resizePolicy _ => exact trivial
      · dsimp only [List.map_cons]
        split
        · exact trivial
        · exact ih _

/-! ## What a call does -/

/-- The keys of a reply are those of texts. -/
theorem exists_texts {bulks : List Sds} (h : ∀ k ∈ bulks, ∃ key, k = bytes key) :
    ∃ keys : List String, bulks = keys.map bytes := by
  induction bulks with
  | nil => exact ⟨[], rfl⟩
  | cons k bulks ih =>
      obtain ⟨key, rfl⟩ := h k List.mem_cons_self
      obtain ⟨keys, rfl⟩ := ih fun k hk => h k (List.mem_cons_of_mem _ hk)
      exact ⟨key :: keys, rfl⟩

theorem monitorKeys_tells (hmonitor : ∀ k, bytes "event-web-monitor" <+: k → own k)
    (h : Mirrors write own (live t₀ σ) store) (hle : t₀ ≤ t) {r : Reply}
    (ha : Answers σ t₀ t σ' r (.keys (bytes "event-web-monitor*"))) :
    WorkerCall.monitorKeys.Tells write store r ∧ σ' = σ := by
  obtain ⟨rfl, bulks, rfl, hnodup, hgiven, hall⟩ := ha
  have hown : ∀ {k}, keyMatches (bytes "event-web-monitor*") k = some true → own k := by
    intro k hk
    rw [keyMatches_monitor, Option.some_inj, decide_eq_true_iff] at hk
    exact hmonitor k hk
  obtain ⟨keys, rfl⟩ := exists_texts fun k hk => h.only k (hown (hgiven k hk).1) (hgiven k hk).2
  have hstored : ∀ key, own (bytes key) →
      (live t₀ σ' (bytes key) ≠ none ↔ store.redis key ≠ none) := by
    intro key hkey
    rw [h.here key hkey]
    simp
  have hstored' : ∀ key, own (bytes key) →
      (live t σ' (bytes key) ≠ none ↔ store.redis key ≠ none) := by
    intro key hkey
    rw [(h.later hle).here key hkey]
    simp
  refine ⟨⟨keys, rfl, hnodup.of_map bytes, fun key => ⟨fun hkey => ?_, fun hkey => ?_⟩⟩, rfl⟩
  · obtain ⟨hmatch, hne⟩ := hgiven _ (List.mem_map_of_mem hkey)
    exact ⟨(keys_iff _ key rfl).mp hmatch, (hstored key (hown hmatch)).mp hne⟩
  · have hmatch := (keys_iff _ key rfl).mpr hkey.1
    have hmem := hall (bytes key) ((hstored' key (hown hmatch)).mpr hkey.2) hmatch
    obtain ⟨key', hmem', he⟩ := List.mem_map.mp hmem
    rwa [← Lib.bytes_inj.mp he]

/-- **A call of a worker.** The reply is what the store says, and the server follows it. -/
theorem answers_tells (hmonitor : ∀ k, bytes "event-web-monitor" <+: k → own k)
    (h : Mirrors write own (live t₀ σ) store) (hle : t₀ ≤ t) {c : WorkerCall} (hc : c.On own)
    {r : Reply} (ha : Answers σ t₀ t σ' r (c.command write)) :
    c.Tells write store r ∧ Mirrors write own (live t σ') (c.after store) := by
  have h' := h.later hle
  cases c with
  | get key =>
      obtain ⟨rfl, rfl⟩ := ha
      refine ⟨?_, h'⟩
      rw [WorkerCall.Tells, h'.here key hc]
      cases store.redis key with
      | none => rfl
      | some v => rfl
  | set key v =>
      obtain ⟨-, -, hno⟩ | ⟨rfl, -, -, rfl⟩ := ha
      · simp at hno
      · exact ⟨rfl, h'.set hc v⟩
  | del key =>
      obtain ⟨rfl, rfl⟩ := ha
      refine ⟨?_, h'.del key⟩
      rw [WorkerCall.Tells, List.toFinset_cons, List.toFinset_nil, insert_empty_eq,
        Finset.filter_singleton]
      by_cases hthere : (σ (bytes key)).isSome = true
      · rw [if_pos hthere]
        exact Or.inl rfl
      · rw [if_neg hthere]
        have hnone := Lib.live_none (Option.not_isSome_iff_eq_none.mp hthere) t
        rw [h'.here key hc] at hnone
        exact Or.inr ⟨rfl, Option.map_eq_none_iff.mp hnone⟩
  | monitorKeys =>
      obtain ⟨htells, rfl⟩ := monitorKeys_tells hmonitor h hle ha
      exact ⟨htells, h'⟩

/-! ## The keys of others -/

theorem Sheds.refl (t : Int) (σ : Space π) : Sheds t σ σ := fun _ => Or.inl rfl

/-- What is gone has a deadline that has passed. -/
theorem Sheds.of_purged (h : Purged t σ σ') : Sheds t σ σ' := by
  intro k
  rcases h k with hk | ⟨hk, hn⟩
  · exact Or.inl hk
  · cases he : σ k with
    | none => exact Or.inl hk
    | some e =>
        obtain ⟨v, w⟩ := e
        cases w with
        | none =>
            rw [live_undated (by rw [he]; rfl), he] at hn
            simp at hn
        | some w =>
            rw [live_dated he] at hn
            split at hn
            · simp at hn
            · exact Or.inr ⟨hk, v, w, rfl, by omega⟩

/-- Outside `own`, keys are as they were, or removed since their deadlines have passed. -/
def Spared (own : Sds → Prop) (t : Int) (σ σ' : Space π) : Prop :=
  ∀ k, ¬ own k → σ' k = σ k ∨ σ' k = none ∧ ∃ v w, σ k = some (v, some w) ∧ w < t

theorem Spared.refl (own : Sds → Prop) (t : Int) (σ : Space π) : Spared own t σ σ :=
  fun _ _ => Or.inl rfl

theorem Spared.trans (h : Spared own t₀ σ σ') (h' : Spared own t σ' σ'') (hle : t₀ ≤ t) :
    Spared own t σ σ'' := by
  intro k hk
  have hmono := (h k hk).imp_right fun ⟨hn, v, w, he, hw⟩ => (⟨hn, v, w, he, by omega⟩ :
    σ' k = none ∧ ∃ v w, σ k = some (v, some w) ∧ w < t)
  rcases h' k hk with hsame | ⟨hnone, v, w, he, hw⟩
  · rw [hsame]
    exact hmono
  · rcases hmono with hsame | hgone
    · exact Or.inr ⟨hnone, v, w, hsame ▸ he, hw⟩
    · rw [hgone.1] at he
      cases he

/-- A call on a key of the workers. -/
theorem answers_spared {c : WorkerCall} (hc : c.On own) {r : Reply}
    (ha : Answers σ t₀ t σ' r (c.command write)) : ∀ k, ¬ own k → σ' k = σ k := by
  intro k hk
  have hne : ∀ {key : String}, own (bytes key) → k ≠ bytes key := by
    rintro key hkey rfl
    exact hk hkey
  cases c with
  | get key | monitorKeys => exact congrFun ha.1 k
  | set key v =>
      obtain ⟨-, hσ, -⟩ | ⟨-, -, -, hσ⟩ := ha
      · exact congrFun hσ k
      · rw [hσ]
        exact Function.update_of_ne (hne hc) ..
  | del key =>
      rw [ha.2]
      simp [hne hc]

theorem served_informed (hmonitor : ∀ k, bytes "event-web-monitor" <+: k → own k)
    {events : List (List Nat × ClientEvent)} {replies : List (Option Reply)}
    (h : Mirrors write own (live t₀ σ) store)
    (hcalls : ∀ ticks c, (ticks, ClientEvent.call c) ∈ events → c.On own)
    (hserved : Served σ t₀ (events.map fun x => (x.1, x.2.event write)) replies σ' t) :
    ∃ store', Informed write store events replies store' ∧
      Mirrors write own (live t σ') store' ∧ Spared own t σ σ' ∧ t₀ ≤ t := by
  induction events generalizing σ store t₀ replies with
  | nil =>
      cases hserved
      exact ⟨store, Informed.nil store, h, Spared.refl own _ _, le_refl _⟩
  | cons x events ih =>
      obtain ⟨ticks, e⟩ := x
      have hcalls' := fun ticks c hmem => hcalls ticks c (List.mem_cons_of_mem _ hmem)
      cases e with
      | call c =>
          rw [List.map_cons, ClientEvent.event] at hserved
          cases hserved with
          | command hle ha hpurged hrest =>
              have hc := hcalls ticks c List.mem_cons_self
              obtain ⟨htells, h'⟩ := answers_tells hmonitor h hle hc ha
              have hsheds := Sheds.of_purged hpurged
              obtain ⟨store', hinformed, hm, hspared, hle'⟩ := ih (h'.sheds hsheds) hcalls' hrest
              refine ⟨store', Informed.call htells hinformed, hm, ?_, hle.trans hle'⟩
              refine Spared.trans (fun k hk => ?_) hspared hle'
              rw [← answers_spared hc ha k hk]
              exact hsheds k
          | cron hcron _ _ _ => exact absurd rfl (hcron _)
      | cron e hcron =>
          rw [List.map_cons, ClientEvent.event] at hserved
          cases hserved with
          | command _ _ _ _ => exact absurd rfl (hcron _)
          | cron _ hle hsheds hrest =>
              obtain ⟨store', hinformed, hm, hspared, hle'⟩ :=
                ih ((h.later hle).sheds hsheds) hcalls' hrest
              exact ⟨store', Informed.cron hinformed, hm,
                Spared.trans (fun k _ => hsheds k) hspared hle', hle.trans hle'⟩

/--
**The server is the map the workers take it for.** Whatever the workers call on keys of
theirs, in whatever order, and whatever the cron does in between: no call fails at the server,
each reply says what the store says, in the end the server keeps the store there is then, and
what others have on the server is left alone.
-/
theorem workers_served {hash : Sds → UInt32} {s : Server π}
    (events : List (List Nat × ClientEvent))
    (hmonitor : ∀ k, bytes "event-web-monitor" <+: k → own k)
    (hcalls : ∀ ticks c, (ticks, ClientEvent.call c) ∈ events → c.On own) (h : Keeps hash s σ 0)
    (hm : Mirrors write own (live (s.now : Int) σ) store) :
    ∃ replies s' σ' store',
      serverRun hash s (events.map fun x => (x.1, x.2.event write)) = some (replies, s') ∧
      Keeps hash s' σ' 0 ∧ Informed write store events replies store' ∧
      Mirrors write own (live (s'.now : Int) σ') store' ∧ Spared own s'.now σ σ' := by
  obtain ⟨replies, s', σ', hrun, hkeeps, hserved⟩ :=
    serverRun_spec _ h (fits_workers hash s events)
  obtain ⟨store', hinformed, hm', hspared, -⟩ := served_informed hmonitor hm hcalls hserved
  exact ⟨replies, s', σ', store', hrun, hkeeps, hinformed, hm', hspared⟩

/-! ## A monitor comes and goes -/

/-- The keys of this application: the four stamps, and what begins like a monitor's. -/
def OwnKey (k : Sds) : Prop :=
  k ∈ [OddsWorker.Range.soon, .later, .tomorow, .someday].map (fun r => bytes r.key) ∨
    bytes "event-web-monitor" <+: k

instance decidableOwnKey (k : Sds) : Decidable (OwnKey k) :=
  inferInstanceAs (Decidable (_ ∈ _ ∨ _))

theorem ownKey_monitor (k : Sds) (h : bytes "event-web-monitor" <+: k) : OwnKey k := Or.inr h

/-- Redis before anything is set. -/
def blankStore : Store := { Store.boot with redis := fun _ => none }

/-- A server that has none of the keys yet. -/
theorem mirrors_blankStore {hash : Sds → UInt32} {s : Server π} (h : Keeps hash s σ 0)
    (hkeys : ∀ k ∈ s.dict.entries.keys, ¬ own k) (write : RedisValue → Sds) (t : Int) :
    Mirrors write own (live t σ) blankStore := by
  have hnone : ∀ k, own k → live t σ k = none := by
    intro k hk
    refine Lib.live_none ?_ t
    by_contra hne
    refine hkeys k (h.dict.mem.mpr ?_) hk
    rw [Option.isSome_map]
    exact Option.isSome_iff_ne_none.mpr hne
  exact ⟨fun key hk => hnone _ hk, fun k hk hne => absurd (hnone k hk) hne,
    fun key hne => absurd rfl hne⟩

/-- Numbers as `to_s` has them; the hash of a snapshot is not looked at here. -/
def plainText : RedisValue → Sds
  | .blank => []
  | .int n => bytes (toString n)
  | .json _ => bytes "{}"

theorem activeExpire_cron (pick : Nat) : ∀ c, ServerEvent.activeExpire pick ≠ .command c := by
  intro c h
  cases h

/-- A server on which another client has a list, under its own key. -/
def queuedServer : Server Unit :=
  { emptyServer with
    dict := ⟨⟨[[], [⟨bytes "queue:default", .other ()⟩], [], []], 1⟩, Dictht.reset, none, 0⟩ }

/-- What is on it. -/
def queued : Space Unit :=
  Function.update (fun _ => none) (bytes "queue:default") (some (.other (), none))

theorem keeps_queuedServer : Keeps byLength queuedServer queued 0 := by
  have hempty := keeps_emptyServer byLength
  obtain ⟨d, hd, hholds⟩ : ∃ d, dictAdd byLength true emptyServer.dict (bytes "queue:default")
      (.other ()) = some (true, d) ∧
      Holds byLength d (Function.update _ (bytes "queue:default") (some (.other ()))) 0 :=
    hempty.dict.add true rfl (.other ())
  have hstate : dictAdd byLength true emptyServer.dict (bytes "queue:default") (.other ()) =
      some (true, queuedServer.dict) := by
    decide +kernel
  rw [hd] at hstate
  cases hstate
  refine hempty.update (e := some (.other (), none)) hholds ?_
  have hnone : Function.update (fun _ => none : Sds → Option Int) (bytes "queue:default") none =
      fun _ => none := Function.update_eq_self ..
  exact hnone.symm ▸ hempty.expires

def setAndDeleted : List (List Nat × ClientEvent) :=
  [([], .call (.set "soon" (.int 0))), ([], .call (.set "event-web-monitor-7" .blank)),
    ([2], .call (.get "soon")), ([], .call .monitorKeys),
    ([], .cron (.activeExpire 0) (activeExpire_cron 0)),
    ([5], .call (.del "event-web-monitor-7")), ([], .call .monitorKeys)]

theorem workers_served_setAndDeleted : ∃ replies s' store', ∃ σ' : Space Unit,
    serverRun byLength queuedServer (setAndDeleted.map fun x => (x.1, x.2.event plainText)) =
      some (replies, s') ∧
    replies = [some .ok, some .ok, some (.bulk [48]),
      some (.multi [bytes "event-web-monitor-7"]), none, some (.integer 1), some (.multi [])] ∧
    Informed plainText blankStore setAndDeleted replies store' ∧
    Mirrors plainText OwnKey (live (s'.now : Int) σ') store' ∧
    σ' (bytes "queue:default") = some (.other (), none) := by
  obtain ⟨replies, s', σ', store', hrun, -, hinformed, hm, hspared⟩ :=
    workers_served setAndDeleted ownKey_monitor (by
      intro ticks c hmem
      simp only [setAndDeleted, List.mem_cons, Prod.mk.injEq, List.not_mem_nil, or_false] at hmem
      rcases hmem with ⟨-, h⟩ | ⟨-, h⟩ | ⟨-, h⟩ | ⟨-, h⟩ | ⟨-, h⟩ | ⟨-, h⟩ | ⟨-, h⟩ <;>
        cases h <;> decide +kernel)
      keeps_queuedServer (mirrors_blankStore keeps_queuedServer (by decide +kernel) plainText _)
  have hreplies : (serverRun byLength queuedServer
      (setAndDeleted.map fun x => (x.1, x.2.event plainText))).map Prod.fst =
        some [some .ok, some .ok, some (.bulk [48]),
          some (.multi [bytes "event-web-monitor-7"]), none, some (.integer 1),
          some (.multi [])] := by
    decide +kernel
  rw [hrun] at hreplies
  refine ⟨replies, s', store', σ', hrun, Option.some.inj hreplies, hinformed, hm, ?_⟩
  rcases hspared (bytes "queue:default") (by decide +kernel) with hsame | ⟨-, v, w, he, -⟩
  · rw [hsame]
    rfl
  · exact absurd he (by simp [queued])

end BetterEfisis.Redis

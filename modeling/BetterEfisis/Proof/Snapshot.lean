import BetterEfisis.Proof.Key
import BetterEfisis.Worker.B91

/-!
# The snapshot, written and read

A monitor stores its snapshot under its key as an encoded hash. `B91Worker` asks
Redis for the keys and takes each key for the hash: `k['time_elapsed']` looks for
the text `time_elapsed` in the name of the key, and whether it is there or not the
comparison with 90 raises. The value is never fetched.

So the scan reads what was written exactly as long as nothing is: as soon as a
monitor has set its key, at any moment of its run, the scan raises.
-/

namespace BetterEfisis.Proof

open Lib B91Worker

/-- A column of the snapshot as the scan is to read it. -/
def ofInt : Option Int → Value
  | none => .nil
  | some n => .int n

/-- The entry for a snapshot. A total with a score that is not known yet is not known. -/
def candidateOf (s : Snapshot) : Candidate where
  id := .int s.id
  homeId := ofInt (s.runnerHome.map Int.ofNat)
  awayId := ofInt (s.runnerAway.map Int.ofNat)
  homeScore := ofInt s.homeScore
  awayScore := ofInt s.awayScore
  totalScore := ofInt (s.homeScore.bind (fun h => s.awayScore.map (fun a => h + a)))

/-- The entry of a stored value: a snapshot is picked from the 90th minute on. -/
def entryOf : RedisValue → Option Candidate
  | .json s => if s.timeElapsed.any (fun m => decide (90 ≤ m)) then some (candidateOf s) else none
  | _ => none

/-- `keys` is what `$redis.keys("event-web-monitor*")` answers. -/
def Lists (s : Store) (keys : List String) : Prop :=
  ∀ k, k ∈ keys ↔ isMonitorKey k = true ∧ s.redis k ≠ none

/-- The scan raises nowhere, and picks the snapshots it is to pick, read as they were written. -/
def ReadAsWritten (s : Store) (keys : List String) : Prop :=
  scan keys = .ok (keys.filterMap (fun k => (s.redis k).bind entryOf))

/-- The test of the first line raises whatever the key is called. -/
theorem pick_raises (k : String) : ∃ x, pick k = .error x := by
  unfold pick field
  split
  · exact ⟨.argumentError, rfl⟩
  · exact ⟨.noMethodError, rfl⟩

theorem scan_ok_iff {keys : List String} {cs : List Candidate} :
    scan keys = .ok cs ↔ keys = [] ∧ cs = [] := by
  unfold scan
  rw [foldlM_append_eq_ok]
  constructor
  · intro h
    obtain ⟨ps, hps, rfl⟩ := h
    cases keys with
    | nil =>
        cases hps
        exact ⟨rfl, rfl⟩
    | cons k ks =>
        obtain ⟨p, _, hp, _, _⟩ := mapM_cons_eq_ok.mp hps
        obtain ⟨x, hx⟩ := pick_raises k
        rw [hx] at hp
        exact absurd hp (by simp)
  · intro h
    obtain ⟨rfl, rfl⟩ := h
    exact ⟨[], rfl, rfl⟩

/--
**The scan reads the snapshots as they were written if and only if no monitor key
is stored**, whatever is stored under it.
-/
theorem readAsWritten_iff_no_key :
    ∀ s keys, Lists s keys →
      (ReadAsWritten s keys ↔ ∀ k, isMonitorKey k = true → s.redis k = none) := by
  intro s keys hkeys
  unfold ReadAsWritten
  rw [scan_ok_iff]
  constructor
  · intro h k hk
    obtain ⟨hnil, _⟩ := h
    by_contra hne
    have hmem := (hkeys k).mpr ⟨hk, hne⟩
    rw [hnil] at hmem
    exact List.not_mem_nil hmem
  · intro h
    have hnil : keys = [] := by
      refine List.eq_nil_iff_forall_not_mem.mpr ?_
      intro k hk
      obtain ⟨hkey, hne⟩ := (hkeys k).mp hk
      exact hne (h k hkey)
    rw [hnil]
    exact ⟨rfl, rfl⟩

theorem isMonitorKey_redisKey (id : Int) : isMonitorKey (redisKey id) = true := by
  unfold isMonitorKey redisKey
  rw [List.isPrefixOf_iff_prefix, String.toList_append]
  have hpre : "event-web-monitor".toList <+: "event-web-monitor-".toList := by decide
  exact hpre.trans (List.prefix_append _ _)

/-- A fresh store has no monitor key, and its scan finds nothing. -/
theorem readAsWritten_boot : ReadAsWritten Store.boot [] ∧ Lists Store.boot [] := by
  have hnone : ∀ k, isMonitorKey k = true → Store.boot.redis k = none := by
    intro k hk
    refine if_neg ?_
    intro h
    rcases h with rfl | rfl | rfl | rfl <;> exact absurd hk (by decide)
  have hlists : Lists Store.boot [] := by
    intro k
    constructor
    · intro h
      exact absurd h List.not_mem_nil
    · intro h
      exact absurd (hnone k h.1) h.2
  exact ⟨(readAsWritten_iff_no_key Store.boot [] hlists).mpr hnone, hlists⟩

/-- A monitor that has just set its key, in front of its look-ups. -/
def keySet : Store := alone.store.redisSet (redisKey 7) .blank

theorem keySet_reachable :
    ∃ w, Reachable (Solo.act ⟨.binary, .persistence⟩) always (Solo.Init 7) w
      ∧ w.store = keySet := by
  have hrun : run (Solo.act ⟨.binary, .persistence⟩) always alone
      [.start, .perform (.json firstHalf), .perform (.json firstHalf)]
      = some ⟨keySet, ⟨7, .running (.findHome firstHalf), 0⟩, [firstHalf], []⟩ := rfl
  exact ⟨_, ⟨alone, alone_init, path_of_run hrun⟩, rfl⟩

theorem lists_keySet : Lists keySet [redisKey 7] := by
  intro k
  rw [List.mem_singleton]
  constructor
  · intro h
    rw [h]
    exact ⟨isMonitorKey_redisKey 7, by simp [keySet]⟩
  · intro h
    by_contra hne
    have hboot : keySet.redis k = Store.boot.redis k := if_neg hne
    rw [hboot] at h
    -- the other keys are those of the stamps
    refine h.2 (if_neg ?_)
    intro hk
    rcases hk with rfl | rfl | rfl | rfl <;> exact absurd h.1 (by decide)

/-- **While a monitor runs the scan raises.** -/
theorem snapshot_not_read :
    ¬ ∀ id w keys, Reachable (Solo.act ⟨.binary, .persistence⟩) always (Solo.Init id) w →
        Lists w.store keys → ReadAsWritten w.store keys := by
  intro hall
  obtain ⟨w, hr, hw⟩ := keySet_reachable
  have hread := hall 7 w [redisKey 7] hr (hw ▸ lists_keySet)
  obtain ⟨hnil, _⟩ := scan_ok_iff.mp hread
  exact absurd hnil (by simp)

end BetterEfisis.Proof

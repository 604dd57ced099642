import BetterEfisis.Proof.Batches
import BetterEfisis.Proof.Scopes
import Mathlib.Data.List.Perm.Subperm

/-!
# What a tick has enqueued

An attempt that raises nowhere goes through the refresh lines in order. At each
place of it the scopes queried so far are those of the ranges found due so far,
and what it has enqueued, with what the line it stands in has still to enqueue, is
what these scopes select in the table as it was at the start. The run itself
writes `monitored` there, which no scope looks at.
-/

namespace BetterEfisis.Proof

open Lib OddsWorker

def allRanges : List Range := [.soon, .later, .tomorow, .someday]

/-- The scopes queried when the ranges `rs` were found due. -/
def scopesOf (rs : List Range) : List Scope := .now :: rs.map .range

/-- The scopes `scs` have been queried, and `rest` is still to be enqueued of them. -/
structure Queried (t : List Event) (w : Tick) (scs : List Scope) (rest : List Int) : Prop where
  ids : (w.enqueued ++ rest).Perm (selectedIds t w.readings scs)
  read : ∀ sc ∈ scs, (w.readings sc).1 ≤ (w.readings sc).2 ∧ (w.readings sc).2 ≤ w.now
  ordered : scs.Pairwise (fun a b => (w.readings a).2 ≤ (w.readings b).1)

/-- Between two lines, all ranges found due being among `rs`. -/
def Between (t : List Event) (w : Tick) (rs : List Range) : Prop :=
  (w.due.map Due.range).Sublist rs ∧ Queried t w (scopesOf (w.due.map Due.range)) []

/-- What holds at each place of a run over the events `t`. -/
def Place (t : List Event) (w : Tick) : Phase Pc → Prop
  | .running (.stampGet r) | .running (.stampTest r _) => Between t w (linesBefore r)
  | .running (.stampRead r) | .running (.stampSet r _)
  | .running (.refreshLoad (.range r)) => ∃ rs, w.due.map Due.range = rs ++ [r]
      ∧ rs.Sublist (linesBefore r) ∧ Queried t w (scopesOf rs) []
  | .running (.refresh .now ids) => w.due = [] ∧ Queried t w [.now] ids
  | .running (.refresh (.range r) ids) => ∃ rs, w.due.map Due.range = rs ++ [r]
      ∧ rs.Sublist (linesBefore r) ∧ Queried t w (scopesOf (rs ++ [r])) ids
  | .finished => Between t w allRanges
  | .queued | .running _ => w.enqueued = [] ∧ w.due = []
  | .retrying | .discarded => False

/-- Nothing is queried or enqueued, and the clock moves on. -/
theorem Queried.later {t : List Event} {w w' : Tick} {scs : List Scope} {rest : List Int}
    (h : Queried t w scs rest) (he : w'.enqueued = w.enqueued) (hr : w'.readings = w.readings)
    (hnow : w.now ≤ w'.now) : Queried t w' scs rest where
  ids := by
    rw [he, hr]
    exact h.ids
  read := by
    intro sc hsc
    rw [hr]
    obtain ⟨h1, h2⟩ := h.read sc hsc
    exact ⟨h1, Int.le_trans h2 hnow⟩
  ordered := by
    rw [hr]
    exact h.ordered

theorem Queried.of_quiet {t : List Event} {w w' : Tick} {scs : List Scope} {rest : List Int}
    (h : Queried t w scs rest) (hq : Quiet w w') : Queried t w' scs rest :=
  h.later hq.enqueued hq.readings hq.now

theorem Between.of_quiet {t : List Event} {w w' : Tick} {rs : List Range}
    (h : Between t w rs) (hq : Quiet w w') : Between t w' rs := by
  unfold Between
  rw [hq.due]
  exact ⟨h.1, h.2.of_quiet hq⟩

/-- Where the run stands still, nothing changes. -/
theorem place_of_quiet {t : List Event} {w w' : Tick} (hq : Quiet w w') {ph : Phase Pc}
    (h : Place t w ph) : Place t w' ph := by
  unfold Place at h ⊢
  split at h
  · exact h.of_quiet hq
  · exact h.of_quiet hq
  · obtain ⟨rs, h1, h2, h3⟩ := h
    exact ⟨rs, by rw [hq.due, h1], h2, h3.of_quiet hq⟩
  · obtain ⟨rs, h1, h2, h3⟩ := h
    exact ⟨rs, by rw [hq.due, h1], h2, h3.of_quiet hq⟩
  · obtain ⟨rs, h1, h2, h3⟩ := h
    exact ⟨rs, by rw [hq.due, h1], h2, h3.of_quiet hq⟩
  · exact ⟨by rw [hq.due, h.1], h.2.of_quiet hq⟩
  · obtain ⟨rs, h1, h2, h3⟩ := h
    exact ⟨rs, by rw [hq.due, h1], h2, h3.of_quiet hq⟩
  · exact h.of_quiet hq
  · exact ⟨by rw [hq.enqueued, h.1], by rw [hq.due, h.2]⟩
  · exact ⟨by rw [hq.enqueued, h.1], by rw [hq.due, h.2]⟩
  · exact h
  · exact h

theorem place_inFirstLoop {t : List Event} {w : Tick} {pc : Pc}
    (h : inFirstLoop pc = true ∨ pc = .refreshLoad .now) :
    Place t w (.running pc) ↔ w.enqueued = [] ∧ w.due = [] := by
  rcases h with h | rfl
  · cases pc with
    | load | monitor _ | save _ _ => exact Iff.rfl
    | refreshLoad _ | refresh _ _ | stampGet _ | stampTest _ _ | stampRead _ | stampSet _ _ =>
        exact absurd h (by simp [inFirstLoop])
  · exact Iff.rfl

/-- The place behind the line of a range. -/
theorem place_after {t : List Event} {w : Tick} {job : Job Unit Pc} {r : Range}
    (h : Between t w (linesBefore r ++ [r])) : Place t w (job.settle r.after).phase := by
  cases r <;> exact h

theorem Between.mono {t : List Event} {w : Tick} {rs rs' : List Range} (h : Between t w rs)
    (hle : rs.Sublist rs') : Between t w rs' := ⟨h.1.trans hle, h.2⟩

theorem not_mem_linesBefore (r : Range) : r ∉ linesBefore r := by
  cases r <;> decide

/-- An id moves from what is to come to what is enqueued. -/
theorem queried_enqueue {t : List Event} {w w' : Tick} {scs : List Scope} {id : Int}
    {ids : List Int} (h : Queried t w scs (id :: ids)) (he : w'.enqueued = w.enqueued ++ [id])
    (hr : w'.readings = w.readings) (hnow : w.now ≤ w'.now) : Queried t w' scs ids := by
  refine ⟨by rw [he, hr]; simpa using h.ids, ?_, by rw [hr]; exact h.ordered⟩
  intro s hs
  rw [hr]
  obtain ⟨h1, h2⟩ := h.read s hs
  exact ⟨h1, Int.le_trans h2 hnow⟩

/-- A scope that has not been queried yet is queried. -/
theorem queried_load {t : List Event} {w w' : Tick} {d : Nat} {scs : List Scope} {sc : Scope}
    (h : Queried t w scs []) (hsc : sc ∉ scs) (ht : SameEvents t w.store.events)
    (he : w'.enqueued = w.enqueued)
    (hr : w'.readings = Function.update w.readings sc (w.now, w.now + d))
    (hnow : w'.now = w.now + d) :
    Queried t w' (scs ++ [sc])
      ((sc.load w.store.events w.now (w.now + d)).map Event.id) := by
  have hnew : w'.readings sc = (w.now, w.now + d) := by rw [hr, Function.update_self]
  have hold : ∀ s ∈ scs, w'.readings s = w.readings s := by
    intro s hs
    have hne : s ≠ sc := fun heq => hsc (heq ▸ hs)
    rw [hr, Function.update_of_ne hne]
  constructor
  · have hids : selectedIds t w'.readings scs = selectedIds t w.readings scs := by
      unfold selectedIds
      refine List.flatMap_congr ?_
      intro s hs
      have hsel : selects w'.readings s = selects w.readings s := by
        funext e
        simp only [selects, hold s hs]
      rw [hsel]
    have hload := (load_perm w.store.events w'.readings sc).map Event.id
    rw [hnew, selected_congr ht] at hload
    have hsplit : selectedIds t w'.readings (scs ++ [sc])
        = selectedIds t w'.readings scs ++ (t.filter (selects w'.readings sc)).map Event.id := by
      simp [selectedIds]
    rw [hsplit, hids, he]
    have hids' := h.ids
    rw [List.append_nil] at hids'
    exact hids'.append hload
  · intro s hs
    rcases List.mem_append.mp hs with hs' | hs'
    · rw [hold s hs', hnow]
      obtain ⟨h1, h2⟩ := h.read s hs'
      exact ⟨h1, by omega⟩
    · rw [List.mem_singleton.mp hs', hnew, hnow]
      constructor
      · show w.now ≤ w.now + d
        omega
      · exact Int.le_refl _
  · rw [List.pairwise_append]
    refine ⟨?_, by simp, ?_⟩
    · refine h.ordered.imp_of_mem ?_
      intro a b ha hb hab
      rw [hold a ha, hold b hb]
      exact hab
    · intro a ha b hb
      rw [List.mem_singleton.mp hb, hnew, hold a ha]
      exact (h.read a ha).2

/-- What the run of a tick maintains over the events `t` it started with. -/
structure RunInv (t : List Event) (w : Tick) : Prop where
  events : SameEvents t w.store.events
  place : Place t w w.job.phase

theorem sameEvents_turn {t : List Event} {w w' : Tick} {a : Tick.Act}
    (h : SameEvents t w.store.events) (hs : Turn w w' a) : SameEvents t w'.store.events := by
  cases hs with
  | due _ _ _ _ _ _ hstore _ => exact hstore ▸ h
  | stamped _ _ _ _ _ hstore _ => exact hstore ▸ h
  | loaded _ _ _ _ _ hstore _ => exact hstore ▸ h
  | enqueued _ _ _ _ _ hstore _ => exact hstore ▸ h
  | later hq _ => exact h.trans hq.events
  | started hq _ _ => exact h.trans hq.events
  | raised hq _ _ => exact h.trans hq.events
  | looped hq _ _ _ _ => exact h.trans hq.events
  | got hq _ _ => exact h.trans hq.events
  | notDue hq _ _ _ => exact h.trans hq.events
  | taken hq _ _ => exact h.trans hq.events
  | lineDone hq _ _ => exact h.trans hq.events

/-- **One step of an attempt that does not raise.** -/
theorem runInv_step {t : List Event} {w w' : Tick} {a : Tick.Act} (h : RunInv t w)
    (hok : NoRaise w a) (hs : Turn w w' a) : RunInv t w' := by
  refine ⟨sameEvents_turn h.events hs, ?_⟩
  have hplace := h.place
  cases hs with
  | later hq hj =>
      rw [hj]
      exact place_of_quiet hq hplace
  | started hq hwait hp' =>
      rw [hp']
      rcases hwait with hp | hp
      · rw [hp] at hplace
        exact ⟨by rw [hq.enqueued, hplace.1], by rw [hq.due, hplace.2]⟩
      · -- nothing has raised, so no run has to be retried
        rw [hp] at hplace
        exact absurd hplace id
  | raised _ _ _ => exact absurd hok (by simp [NoRaise])
  | looped hq hp hl hp' hl' =>
      rw [hp, place_inFirstLoop (Or.inl hl)] at hplace
      rw [hp', place_inFirstLoop hl']
      exact ⟨by rw [hq.enqueued, hplace.1], by rw [hq.due, hplace.2]⟩
  | got hq hp hp' =>
      rw [hp] at hplace
      rw [hp']
      exact Between.of_quiet hplace hq
  | @notDue d r timestamp hq hp _ hj =>
      rw [hp] at hplace
      rw [hj]
      refine place_after (Between.mono ?_ (List.sublist_append_left _ _))
      exact Between.of_quiet hplace hq
  | @due d r timestamp hp _ hp' he hd hr hev hnow =>
      rw [hp] at hplace
      rw [hp']
      obtain ⟨hsub, hq⟩ := hplace
      exact ⟨w.due.map Due.range, by rw [hd, List.map_append]; rfl, hsub, hq.later he hr hnow⟩
  | taken hq hp hp' =>
      rw [hp] at hplace
      rw [hp']
      obtain ⟨rs, h1, h2, h3⟩ := hplace
      exact ⟨rs, by rw [hq.due, h1], h2, h3.of_quiet hq⟩
  | @stamped d r stamp hp hp' he hd hr hev hnow =>
      rw [hp] at hplace
      rw [hp']
      obtain ⟨rs, h1, h2, h3⟩ := hplace
      exact ⟨rs, by rw [hd, h1], h2, h3.later he hr hnow⟩
  | @loaded d sc hp hp' he hd hr hev hnow =>
      rw [hp] at hplace
      rw [hp']
      cases sc with
      | now =>
          obtain ⟨h1, h2⟩ := hplace
          have hnone : Queried t w [] [] := ⟨by simp [h1, selectedIds], by simp, by simp⟩
          exact ⟨by rw [hd, h2], queried_load hnone (by simp) h.events he hr hnow⟩
      | range r =>
          obtain ⟨rs, h1, h2, h3⟩ := hplace
          have hnot : Scope.range r ∉ scopesOf rs := by
            intro hm
            have hr : r ∈ rs := by simpa [scopesOf] using hm
            exact not_mem_linesBefore r (h2.subset hr)
          have hload := queried_load h3 hnot h.events he hr hnow
          refine ⟨rs, by rw [hd, h1], h2, ?_⟩
          have hscs : scopesOf (rs ++ [r]) = scopesOf rs ++ [.range r] := by simp [scopesOf]
          rw [hscs]
          exact hload
  | @enqueued d sc id ids hp hp' he hd hr hev hnow =>
      rw [hp] at hplace
      rw [hp']
      cases sc with
      | now => exact ⟨by rw [hd, hplace.1], queried_enqueue hplace.2 he hr hnow⟩
      | range r =>
          obtain ⟨rs, h1, h2, h3⟩ := hplace
          exact ⟨rs, by rw [hd, h1], h2, queried_enqueue h3 he hr hnow⟩
  | @lineDone d sc hq hp hj =>
      rw [hp] at hplace
      rw [hj]
      cases sc with
      | now =>
          obtain ⟨h1, h2⟩ := hplace
          have hb : Between t w (linesBefore .soon) := by
            unfold Between
            rw [h1]
            exact ⟨List.nil_sublist _, h2⟩
          exact hb.of_quiet hq
      | range r =>
          obtain ⟨rs, h1, h2, h3⟩ := hplace
          have hb : Between t w (linesBefore r ++ [r]) := by
            unfold Between
            rw [h1]
            exact ⟨h2.append (List.Sublist.refl _), h3⟩
          exact place_after (hb.of_quiet hq)

theorem runInv_path {s w : Tick} (hs : Tick.Init s) (h : Path Tick.act NoRaise s w) :
    RunInv s.store.events w := by
  refine h.preserves (I := RunInv s.store.events) ?_ ?_
  · intro w a w' hi hok hstep
    exact runInv_step hi hok (act_turn hstep)
  · refine ⟨rfl, ?_⟩
    rw [hs.job]
    exact ⟨hs.enqueued, hs.due⟩

/-- An attempt of a fresh job that has finished, and found all four ranges due. -/
structure FullTick (s w : Tick) : Prop where
  init : Tick.Init s
  path : Path Tick.act NoRaise s w
  finished : w.job.phase = .finished
  due : ∀ r, ∃ e ∈ w.due, e.range = r

/-- Such an attempt has queried all five scopes. -/
theorem queried_fullTick {s w : Tick} (h : FullTick s w) :
    Queried s.store.events w allScopes [] := by
  have hinv := runInv_path h.init h.path
  have hplace := hinv.place
  rw [h.finished] at hplace
  obtain ⟨hsub, hq⟩ := hplace
  have hall : allRanges ⊆ w.due.map Due.range := by
    intro r _
    obtain ⟨e, he, hr⟩ := h.due r
    exact List.mem_map.mpr ⟨e, he, hr⟩
  have hlen : allRanges.length ≤ (w.due.map Due.range).length :=
    (List.subperm_of_subset (by decide) hall).length_le
  rw [hsub.eq_of_length_le hlen] at hq
  exact hq

theorem inOrder_fullTick {s w : Tick} (h : FullTick s w) : InOrder w.readings := by
  have hq := queried_fullTick h
  exact ⟨fun sc hsc => (hq.read sc hsc).1, hq.ordered⟩

/-- As often as there are scopes that select it is an event enqueued. -/
theorem count_fullTick {s w : Tick} (h : FullTick s w) (hids : Keyed Event.id s.store.events)
    {e : Event} (he : e ∈ s.store.events) :
    w.enqueued.count e.id = allScopes.countP (fun sc => selects w.readings sc e) := by
  have hperm := (queried_fullTick h).ids
  rw [List.append_nil] at hperm
  rw [hperm.count_eq]
  exact hids.count_flatMap he (selects w.readings) allScopes

/--
**A full tick refreshes an event that has not ended exactly once if and only if a
scope covers it**, and no event twice.
-/
theorem refreshed_once_iff_covered :
    ∀ s w, FullTick s w → Keyed Event.id s.store.events →
      ∀ e ∈ s.store.events,
        w.enqueued.count e.id ≤ 1
          ∧ (e.status ≠ some .ended → (w.enqueued.count e.id = 1 ↔ Covered w.readings e)) := by
  intro s w h hids e he
  rw [count_fullTick h hids he]
  exact countP_selects (inOrder_fullTick h) e

/-- An attempt of `n` statements, the clock moving on by `d` in front of each. -/
def attempt (n d : Nat) : List Tick.Act :=
  .start :: (List.replicate n [Tick.Act.advance d, .perform d]).flatten

/-- A run from `s` that is a full tick, replayed. -/
theorem fullTick_of_run {s : Tick} (hs : Tick.Init s) (as : List Tick.Act) (p : Tick → Prop)
    [DecidablePred p] (h : (run Tick.act NoRaise s as).any (fun w =>
      decide (w.job.phase = .finished ∧ w.due.map Due.range = allRanges ∧ p w)) = true) :
    ∃ w, FullTick s w ∧ p w := by
  obtain ⟨w, ⟨s₀, rfl, hpath⟩, hfin, hdue, hp⟩ := reachable_of_run Tick.act NoRaise as
    (fun w => w.job.phase = .finished ∧ w.due.map Due.range = allRanges ∧ p w)
    (rfl : (fun x => x = s) s) h
  refine ⟨w, ⟨hs, hpath, hfin, ?_⟩, hp⟩
  intro r
  have hr : r ∈ w.due.map Due.range := by
    rw [hdue]
    cases r <;> decide
  obtain ⟨e, he, hr⟩ := List.mem_map.mp hr
  exact ⟨e, he, hr⟩

/-- A match in each scope, under a clock that moves on all the time. -/
theorem refreshed_once_attempt :
    ∃ w : Tick, w.enqueued = [1, 2, 3, 4, 5]
      ∧ (w.enqueued.count 2 = 1 ↔ Covered w.readings (opening 2 12000)) := by
  obtain ⟨w, h, he⟩ := fullTick_of_run
    (tickWith_init [opening 1 9000, opening 2 12000, opening 3 20000, opening 4 40000,
      opening 5 90000]) (attempt 35 1) (fun w => w.enqueued = [1, 2, 3, 4, 5]) (by decide +kernel)
  exact ⟨w, he, (refreshed_once_iff_covered _ w h (by decide) (opening 2 12000) (by decide)).2
    (by decide)⟩

/-- **An event between two scopes is not refreshed, though the clock stands still.** -/
theorem event_missed :
    ¬ ∀ s w, FullTick s w → Keyed Event.id s.store.events →
      ∀ e ∈ s.store.events, e.status ≠ some .ended → w.enqueued.count e.id = 1 := by
  intro hall
  obtain ⟨w, h, he⟩ := fullTick_of_run (tickWith_init [opening 1 10630]) (attempt 28 0)
    (fun w => w.enqueued = []) (by decide +kernel)
  have hone := hall _ w h (by decide) (opening 1 10630) (by decide) (by decide)
  rw [he] at hone
  exact absurd hone (by decide)

end BetterEfisis.Proof

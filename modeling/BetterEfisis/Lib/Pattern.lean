import Mathlib.Data.List.Basic

/-!
# Patterns with captures, as a backtracking engine runs them

A match is tried at every place of the subject from the left, and at one place
the alternatives of a pattern are tried in a fixed order, the longest run of a
greedy star first. `Re.alternatives` lists the ways a pattern can match from a
cursor **in that order**, so the match the engine reports is the head of the
list. `scan` collects the matches one after the other without overlap.
-/

namespace BetterEfisis.Lib

/-- A place in the subject: the characters behind it, last one first, and those ahead. -/
structure Cursor where
  behind : List Char
  ahead : List Char
deriving DecidableEq, Repr

/-- The patterns the development needs: classes, greedy stars of a class, groups, line anchors. -/
inductive Re where
  | empty
  | one (p : Char → Bool)
  | star (p : Char → Bool)
  | seq (r s : Re)
  | group (r : Re)
  | lineStart
  | lineEnd

/-- A cursor and the captures made on the way to it, oldest first. -/
abbrev Progress := Cursor × List (List Char)

/-- The cursors after a run of characters in `p`, the longest run first. -/
def greedy (p : Char → Bool) (behind : List Char) : List Char → List Cursor
  | [] => [⟨behind, []⟩]
  | c :: cs => if p c then greedy p (c :: behind) cs ++ [⟨behind, c :: cs⟩] else [⟨behind, c :: cs⟩]

/-- The characters between an earlier cursor and a later one. -/
def Cursor.upTo (start stop : Cursor) : List Char :=
  start.ahead.take (start.ahead.length - stop.ahead.length)

/-- All ways to match from a cursor, in the order the engine tries them. -/
def Re.alternatives : Re → Progress → List Progress
  | .empty, st => [st]
  | .one p, (c, caps) =>
      match c.ahead with
      | [] => []
      | x :: xs => if p x then [(⟨x :: c.behind, xs⟩, caps)] else []
  | .star p, (c, caps) => (greedy p c.behind c.ahead).map (fun c' => (c', caps))
  | .seq r s, st => (r.alternatives st).flatMap s.alternatives
  | .group r, (c, caps) =>
      (r.alternatives (c, caps)).map (fun st => (st.1, st.2 ++ [c.upTo st.1]))
  | .lineStart, (c, caps) =>
      match c.behind with
      | [] => [(c, caps)]
      | x :: _ => if x = '\n' then [(c, caps)] else []
  | .lineEnd, (c, caps) =>
      match c.ahead with
      | [] => [(c, caps)]
      | x :: _ => if x = '\n' then [(c, caps)] else []

/-- A fixed text. -/
def Re.text (s : String) : Re :=
  s.toList.foldr (fun c r => .seq (.one (fun x => x == c)) r) .empty

/-- One character further, where there is one. -/
def Cursor.advance (c : Cursor) : Option Cursor :=
  match c.ahead with
  | [] => none
  | x :: xs => some ⟨x :: c.behind, xs⟩

/--
The captures of every match from the cursor on. After a match the search goes
on where it ended, and one character further if it was empty. `fuel` bounds the
number of cursors looked at, and the subject's length is enough.
-/
def Re.scanFrom (r : Re) : Nat → Cursor → List (List (List Char))
  | 0, _ => []
  | fuel + 1, c =>
      match r.alternatives (c, []) with
      | [] =>
          match c.advance with
          | none => []
          | some c' => r.scanFrom fuel c'
      | (stop, caps) :: _ =>
          if stop = c then
            match c.advance with
            | none => [caps]
            | some c' => caps :: r.scanFrom fuel c'
          else caps :: r.scanFrom fuel stop

/-- `String#scan` with a pattern that has groups: the captures of each match. -/
def Re.scan (r : Re) (s : String) : List (List (List Char)) :=
  r.scanFrom (s.toList.length + 1) ⟨[], s.toList⟩

/-- The pattern matches somewhere in the subject. -/
def Re.matches (r : Re) (s : String) : Bool := !(r.scan s).isEmpty

/-! ## Where a match leads to -/

/-- The subject a cursor is in. -/
def Cursor.subject (c : Cursor) : List Char := c.behind.reverse ++ c.ahead

/-- The cursor `x` further on, with `rest` ahead. -/
def Cursor.after (c : Cursor) (x rest : List Char) : Cursor := ⟨x.reverse ++ c.behind, rest⟩

/-- `c'` is a place ahead of `c`, or `c` itself. -/
def Cursor.Later (c c' : Cursor) : Prop := ∃ x rest, c.ahead = x ++ rest ∧ c' = c.after x rest

/-- What is between a place and the one `x` further on is `x`. -/
theorem Cursor.upTo_after {c : Cursor} {x rest : List Char} (h : c.ahead = x ++ rest) :
    c.upTo (c.after x rest) = x := by
  simp [Cursor.upTo, Cursor.after, h]

theorem Cursor.Later.refl (c : Cursor) : c.Later c := ⟨[], c.ahead, rfl, rfl⟩

theorem Cursor.Later.trans {c c' c'' : Cursor} (h : c.Later c') (h' : c'.Later c'') :
    c.Later c'' := by
  obtain ⟨x, rest, hx, rfl⟩ := h
  obtain ⟨y, rest', hy, rfl⟩ := h'
  have hrest : rest = y ++ rest' := hy
  refine ⟨x ++ y, rest', by rw [hx, hrest, List.append_assoc], ?_⟩
  simp [Cursor.after]

theorem Cursor.Later.subject {c c' : Cursor} (h : c.Later c') : c'.subject = c.subject := by
  obtain ⟨x, rest, hx, rfl⟩ := h
  simp [Cursor.subject, Cursor.after, hx]

theorem Cursor.Later.length_le {c c' : Cursor} (h : c.Later c') :
    c'.ahead.length ≤ c.ahead.length := by
  obtain ⟨x, rest, hx, rfl⟩ := h
  rw [hx, List.length_append]
  exact Nat.le_add_left _ _

/-- A later place with as much ahead is the place itself. -/
theorem Cursor.Later.eq_of_length {c c' : Cursor} (h : c.Later c')
    (hlen : c.ahead.length ≤ c'.ahead.length) : c' = c := by
  obtain ⟨x, rest, hx, rfl⟩ := h
  have hnil : x = [] := by
    have hle : c.ahead.length ≤ rest.length := hlen
    rw [hx, List.length_append] at hle
    exact List.length_eq_zero_iff.mp (by omega)
  obtain ⟨behind, ahead⟩ := c
  cases hnil
  cases hx
  rfl

theorem later_of_advance {c c' : Cursor} (h : c.advance = some c') :
    c.Later c' ∧ c.ahead.length = c'.ahead.length + 1 := by
  unfold Cursor.advance at h
  split at h
  · cases h
  · rename_i x xs hahead
    cases h
    exact ⟨⟨[x], xs, hahead, rfl⟩, by rw [hahead]; rfl⟩

/-- What lies ahead of a place lies one character further on, or is the place. -/
theorem eq_or_later_of_advance {c c' d : Cursor} (h : c.advance = some c') (hd : c.Later d) :
    d = c ∨ c'.Later d := by
  -- the cases are those of the characters in between
  obtain ⟨x, rest, hx, rfl⟩ := hd
  unfold Cursor.advance at h
  split at h
  · cases h
  · rename_i y ys hahead
    cases h
    cases x with
    | nil =>
        left
        obtain ⟨behind, ahead⟩ := c
        cases hx
        rfl
    | cons y' x =>
        rw [hahead] at hx
        cases hx
        exact Or.inr ⟨x, rest, rfl, by simp [Cursor.after]⟩

theorem eq_of_advance_none {c d : Cursor} (h : c.advance = none) (hd : c.Later d) : d = c := by
  refine hd.eq_of_length ?_
  unfold Cursor.advance at h
  split at h
  · rename_i hnil
    rw [hnil]
    exact Nat.zero_le _
  · cases h

/-- The places a greedy run can end at. -/
theorem mem_greedy {p : Char → Bool} {behind ahead : List Char} {c : Cursor} :
    c ∈ greedy p behind ahead ↔
      ∃ x rest, ahead = x ++ rest ∧ (∀ y ∈ x, p y = true) ∧ c = ⟨x.reverse ++ behind, rest⟩ := by
  induction ahead generalizing behind with
  | nil =>
      rw [greedy, List.mem_singleton]
      constructor
      · intro h
        exact ⟨[], [], rfl, by simp, h⟩
      · intro h
        obtain ⟨x, rest, hx, _, rfl⟩ := h
        obtain ⟨rfl, rfl⟩ := List.append_eq_nil_iff.mp hx.symm
        rfl
  | cons y ys ih =>
      have hstop : c = ⟨behind, y :: ys⟩ → ∃ x rest, y :: ys = x ++ rest
          ∧ (∀ z ∈ x, p z = true) ∧ c = ⟨x.reverse ++ behind, rest⟩ :=
        fun h => ⟨[], y :: ys, rfl, by simp, h⟩
      constructor
      · intro h
        rw [greedy] at h
        split at h
        · rename_i hy
          rcases List.mem_append.mp h with hmore | h
          · obtain ⟨x, rest, rfl, hx, rfl⟩ := ih.mp hmore
            exact ⟨y :: x, rest, rfl, List.forall_mem_cons.mpr ⟨hy, hx⟩, by simp⟩
          · exact hstop (List.mem_singleton.mp h)
        · exact hstop (List.mem_singleton.mp h)
      · intro h
        obtain ⟨x, rest, hx, hp, rfl⟩ := h
        rw [greedy]
        cases x with
        | nil =>
            cases hx
            split <;> simp
        | cons z x =>
            cases hx
            obtain ⟨hz, hp⟩ := List.forall_mem_cons.mp hp
            rw [if_pos hz]
            exact List.mem_append_left _ (ih.mpr ⟨x, rest, rfl, hp, by simp⟩)

theorem mem_one {p : Char → Bool} {c : Cursor} {caps : List (List Char)} {st : Progress} :
    st ∈ (Re.one p).alternatives (c, caps) ↔
      ∃ x xs, c.ahead = x :: xs ∧ p x = true ∧ st = (⟨x :: c.behind, xs⟩, caps) := by
  unfold Re.alternatives
  split
  · rename_i hnil
    simp [hnil]
  · rename_i x xs hahead
    by_cases hp : p x = true
    · rw [if_pos hp, List.mem_singleton]
      constructor
      · intro h
        exact ⟨x, xs, hahead, hp, h⟩
      · intro h
        obtain ⟨y, ys, heq, _, rfl⟩ := h
        rw [hahead] at heq
        cases heq
        rfl
    · rw [if_neg hp]
      refine iff_of_false List.not_mem_nil ?_
      intro h
      obtain ⟨y, ys, heq, hy, _⟩ := h
      rw [hahead] at heq
      cases heq
      exact hp hy

theorem mem_seq {r s : Re} {st st' : Progress} :
    st' ∈ (Re.seq r s).alternatives st ↔
      ∃ st₁, st₁ ∈ r.alternatives st ∧ st' ∈ s.alternatives st₁ := List.mem_flatMap

/-- The beginning of a line. -/
theorem mem_lineStart {c : Cursor} {caps : List (List Char)} {st : Progress} :
    st ∈ Re.lineStart.alternatives (c, caps) ↔
      (∀ x, c.behind.head? = some x → x = '\n') ∧ st = (c, caps) := by
  unfold Re.alternatives
  split
  · rename_i hnil
    simp [hnil]
  · rename_i x xs hbehind
    by_cases hx : x = '\n' <;> simp [hbehind, hx]

/-- The end of a line. -/
theorem mem_lineEnd {c : Cursor} {caps : List (List Char)} {st : Progress} :
    st ∈ Re.lineEnd.alternatives (c, caps) ↔
      (∀ x, c.ahead.head? = some x → x = '\n') ∧ st = (c, caps) := by
  unfold Re.alternatives
  split
  · rename_i hnil
    simp [hnil]
  · rename_i x xs hahead
    by_cases hx : x = '\n' <;> simp [hahead, hx]

/-- To match is to move the cursor on. -/
theorem alternatives_later {r : Re} {st st' : Progress} (h : st' ∈ r.alternatives st) :
    st.1.Later st'.1 := by
  induction r generalizing st st' with
  | empty =>
      rw [List.mem_singleton.mp h]
      exact Cursor.Later.refl _
  | one p =>
      obtain ⟨x, xs, hahead, _, rfl⟩ := mem_one.mp h
      exact ⟨[x], xs, hahead, rfl⟩
  | star p =>
      obtain ⟨c, hc, rfl⟩ := List.mem_map.mp h
      obtain ⟨x, rest, hx, _, rfl⟩ := mem_greedy.mp hc
      exact ⟨x, rest, hx, rfl⟩
  | seq r s ihr ihs =>
      obtain ⟨st₁, h₁, h₂⟩ := List.mem_flatMap.mp h
      exact (ihr h₁).trans (ihs h₂)
  | group r ih =>
      obtain ⟨st₁, h₁, rfl⟩ := List.mem_map.mp h
      have hsame := ih h₁
      exact hsame
  | lineStart =>
      rw [(mem_lineStart.mp h).2]
      exact Cursor.Later.refl _
  | lineEnd =>
      rw [(mem_lineEnd.mp h).2]
      exact Cursor.Later.refl _

/-! ## What a match says about its subject -/

theorem advance_subject {c c' : Cursor} (h : c.advance = some c') : c'.subject = c.subject :=
  (later_of_advance h).1.subject

/-- A match stays within its subject. -/
theorem alternatives_subject {r : Re} {st st' : Progress} (h : st' ∈ r.alternatives st) :
    st'.1.subject = st.1.subject := (alternatives_later h).subject

/-- No match without a character in `p`. -/
def Re.Requires (p : Char → Bool) : Re → Prop
  | .one q => ∀ x, q x = true → p x = true
  | .seq r s => r.Requires p ∨ s.Requires p
  | .group r => r.Requires p
  | _ => False

theorem exists_mem_of_requires {p : Char → Bool} {r : Re} (hr : r.Requires p) {st st' : Progress}
    (h : st' ∈ r.alternatives st) : ∃ x ∈ st.1.subject, p x = true := by
  induction r generalizing st st' with
  | one q =>
      obtain ⟨x, xs, hahead, hq, rfl⟩ := mem_one.mp h
      exact ⟨x, by simp [Cursor.subject, hahead], hr x hq⟩
  | seq r s ihr ihs =>
      obtain ⟨st₁, h₁, h₂⟩ := List.mem_flatMap.mp h
      rcases hr with hr | hs
      · exact ihr hr h₁
      · rw [← alternatives_subject h₁]
        exact ihs hs h₂
  | group r ih =>
      obtain ⟨st₁, h₁, rfl⟩ := List.mem_map.mp h
      exact ih hr h₁
  | empty => exact hr.elim
  | star => exact hr.elim
  | lineStart => exact hr.elim
  | lineEnd => exact hr.elim

theorem scanFrom_requires {p : Char → Bool} {r : Re} (hr : r.Requires p) {fuel : Nat} {c : Cursor}
    (h : r.scanFrom fuel c ≠ []) : ∃ x ∈ c.subject, p x = true := by
  induction fuel generalizing c with
  | zero => exact absurd rfl h
  | succ fuel ih =>
      cases hm : r.alternatives (c, []) with
      | nil =>
          rw [Re.scanFrom, hm] at h
          dsimp only at h
          split at h
          · exact absurd rfl h
          · rename_i c' hc'
            rw [← advance_subject hc']
            exact ih h
      | cons st rest =>
          have hst : st ∈ r.alternatives (c, []) := by rw [hm]; exact List.mem_cons_self
          exact exists_mem_of_requires hr hst

/-- **A subject in which the pattern is found has the characters it requires.** -/
theorem scan_requires {p : Char → Bool} {r : Re} (hr : r.Requires p) {s : String}
    (h : r.scan s ≠ []) : ∃ x ∈ s.toList, p x = true :=
  scanFrom_requires hr h

/-! ## What a scan finds -/

/-- **A scan finds nothing exactly where the pattern matches nowhere.** -/
theorem scanFrom_eq_nil_iff {r : Re} {fuel : Nat} {c : Cursor} (hf : c.ahead.length < fuel) :
    r.scanFrom fuel c = [] ↔ ∀ d, c.Later d → r.alternatives (d, []) = [] := by
  induction fuel generalizing c with
  | zero => exact absurd hf (Nat.not_lt_zero _)
  | succ fuel ih =>
      rw [Re.scanFrom]
      cases hm : r.alternatives (c, []) with
      | nil =>
          cases ha : c.advance with
          | none =>
              refine iff_of_true rfl ?_
              intro d hd
              rw [eq_of_advance_none ha hd]
              exact hm
          | some c' =>
              obtain ⟨hlater, hlen⟩ := later_of_advance ha
              show r.scanFrom fuel c' = [] ↔ _
              rw [ih (by omega)]
              constructor
              · intro h d hd
                rcases eq_or_later_of_advance ha hd with rfl | hd'
                · exact hm
                · exact h d hd'
              · intro h d hd
                exact h d (hlater.trans hd)
      -- a match here is a match somewhere
      | cons st rest =>
          refine iff_of_false ?_ ?_
          · dsimp only
            split
            · split <;> simp
            · simp
          · intro h
            have hnil := h c (Cursor.Later.refl c)
            rw [hm] at hnil
            exact absurd hnil (by simp)

/--
**The first match of a scan is that at the first place the pattern matches at**, and
the scan goes on where it ends.
-/
theorem scanFrom_first {r : Re} {fuel : Nat} {c d stop : Cursor} {caps : List (List Char)}
    {rest : List Progress} (hf : c.ahead.length < fuel) (hd : c.Later d)
    (hnone : ∀ e, c.Later e → e.Later d → e ≠ d → r.alternatives (e, []) = [])
    (hm : r.alternatives (d, []) = (stop, caps) :: rest) (hne : stop ≠ d) :
    ∃ fuel', stop.ahead.length < fuel' ∧ r.scanFrom fuel c = caps :: r.scanFrom fuel' stop := by
  induction fuel generalizing c with
  | zero => exact absurd hf (Nat.not_lt_zero _)
  | succ fuel ih =>
      -- either the match is here, or this place is passed over
      by_cases hcd : c = d
      · subst hcd
        have hmem : (stop, caps) ∈ r.alternatives (c, []) := by
          rw [hm]
          exact List.mem_cons_self
        have hlater : c.Later stop := alternatives_later hmem
        -- the match is not empty, so the fuel is still enough behind it
        have hshort : stop.ahead.length < c.ahead.length := by
          by_contra hlong
          exact hne (hlater.eq_of_length (Nat.le_of_not_lt hlong))
        refine ⟨fuel, by omega, ?_⟩
        rw [Re.scanFrom, hm]
        dsimp only
        rw [if_neg hne]
      · have hc := hnone c (Cursor.Later.refl c) hd hcd
        cases ha : c.advance with
        | none => exact absurd (eq_of_advance_none ha hd).symm hcd
        | some c' =>
            obtain ⟨hlater, hlen⟩ := later_of_advance ha
            have hd' : c'.Later d := by
              rcases eq_or_later_of_advance ha hd with heq | hd'
              · exact absurd heq.symm hcd
              · exact hd'
            obtain ⟨fuel', hfuel', hscan⟩ := ih (c := c') (by omega) hd'
              (fun e he => hnone e (hlater.trans he))
            refine ⟨fuel', hfuel', ?_⟩
            rw [Re.scanFrom, hc, ha]
            exact hscan

/-- The number of groups of a pattern. -/
def Re.groups : Re → Nat
  | .seq r s => r.groups + s.groups
  | .group r => r.groups + 1
  | _ => 0

theorem alternatives_groups {r : Re} {st st' : Progress} (h : st' ∈ r.alternatives st) :
    st'.2.length = st.2.length + r.groups := by
  induction r generalizing st st' with
  | empty =>
      rw [List.mem_singleton.mp h]
      rfl
  | one p =>
      obtain ⟨x, xs, _, _, rfl⟩ := mem_one.mp h
      rfl
  | star p =>
      obtain ⟨c, _, rfl⟩ := List.mem_map.mp h
      rfl
  | seq r s ihr ihs =>
      obtain ⟨st₁, h₁, h₂⟩ := List.mem_flatMap.mp h
      rw [ihs h₂, ihr h₁, Re.groups, Nat.add_assoc]
  | group r ih =>
      obtain ⟨st₁, h₁, rfl⟩ := List.mem_map.mp h
      have hlen := ih h₁
      rw [List.length_append, hlen]
      rfl
  | lineStart =>
      rw [(mem_lineStart.mp h).2]
      rfl
  | lineEnd =>
      rw [(mem_lineEnd.mp h).2]
      rfl

/-- Every match has a capture to each group. -/
theorem scanFrom_groups {r : Re} {fuel : Nat} {c : Cursor} {caps : List (List Char)}
    (h : caps ∈ r.scanFrom fuel c) : caps.length = r.groups := by
  induction fuel generalizing c with
  | zero => exact absurd h List.not_mem_nil
  | succ fuel ih =>
      rw [Re.scanFrom] at h
      cases hm : r.alternatives (c, []) with
      | nil =>
          rw [hm] at h
          dsimp only at h
          split at h
          · exact absurd h List.not_mem_nil
          · exact ih h
      | cons st rest =>
          have hcaps : st.2.length = r.groups := by
            have hmem : st ∈ r.alternatives (c, []) := by
              rw [hm]
              exact List.mem_cons_self
            rw [alternatives_groups hmem]
            exact Nat.zero_add _
          rw [hm] at h
          dsimp only at h
          split at h
          · split at h
            · rw [List.mem_singleton.mp h]
              exact hcaps
            · rcases List.mem_cons.mp h with rfl | h
              · exact hcaps
              · exact ih h
          · rcases List.mem_cons.mp h with rfl | h
            · exact hcaps
            · exact ih h

/-- The pattern matches somewhere if there is a place it matches at. -/
theorem matches_iff {r : Re} {s : String} :
    r.matches s = true ↔ ∃ a b, s.toList = a ++ b ∧ r.alternatives (⟨a.reverse, b⟩, []) ≠ [] := by
  have hnil := scanFrom_eq_nil_iff (r := r) (c := ⟨[], s.toList⟩) (Nat.lt_succ_self _)
  have hmatches : r.matches s = true ↔ ¬ r.scan s = [] := by
    unfold Re.matches
    rw [Bool.not_eq_true', List.isEmpty_eq_false_iff]
  rw [hmatches]
  unfold Re.scan
  rw [hnil]
  constructor
  · intro h
    simp only [not_forall] at h
    obtain ⟨d, ⟨a, b, hab, rfl⟩, hd⟩ := h
    refine ⟨a, b, hab, ?_⟩
    simpa [Cursor.after] using hd
  · intro h hall
    obtain ⟨a, b, hab, hne⟩ := h
    refine hne (hall _ ⟨a, b, hab, ?_⟩)
    simp [Cursor.after]

/-! ## Captured runs and fixed texts -/

/-- A captured run. -/
theorem mem_group_star {p : Char → Bool} {c : Cursor} {caps : List (List Char)} {st : Progress} :
    st ∈ (Re.group (.star p)).alternatives (c, caps) ↔
      ∃ x rest, c.ahead = x ++ rest ∧ (∀ y ∈ x, p y = true)
        ∧ st = (c.after x rest, caps ++ [x]) := by
  constructor
  · intro h
    obtain ⟨st₁, h₁, rfl⟩ := List.mem_map.mp h
    obtain ⟨c', hc', rfl⟩ := List.mem_map.mp h₁
    obtain ⟨x, rest, hx, hp, rfl⟩ := mem_greedy.mp hc'
    exact ⟨x, rest, hx, hp, by rw [← Cursor.after, Cursor.upTo_after hx]⟩
  · intro h
    obtain ⟨x, rest, hx, hp, rfl⟩ := h
    refine List.mem_map.mpr ⟨(c.after x rest, caps), List.mem_map.mpr
      ⟨c.after x rest, mem_greedy.mpr ⟨x, rest, hx, hp, rfl⟩, rfl⟩, ?_⟩
    dsimp only
    rw [Cursor.upTo_after hx]

/-- A fixed text matches itself. -/
theorem mem_text {s : String} {c : Cursor} {caps : List (List Char)} {st : Progress} :
    st ∈ (Re.text s).alternatives (c, caps) ↔
      ∃ rest, c.ahead = s.toList ++ rest ∧ st = (c.after s.toList rest, caps) := by
  unfold Re.text
  generalize s.toList = cs
  induction cs generalizing c with
  | nil =>
      show st ∈ [(c, caps)] ↔ _
      rw [List.mem_singleton]
      constructor
      · intro h
        exact ⟨c.ahead, rfl, h⟩
      · intro h
        obtain ⟨rest, hrest, rfl⟩ := h
        obtain ⟨behind, ahead⟩ := c
        cases hrest
        rfl
  | cons x xs ih =>
      rw [List.foldr_cons, mem_seq]
      constructor
      · intro h
        obtain ⟨st₁, h₁, h₂⟩ := h
        obtain ⟨y, ys, hahead, hy, rfl⟩ := mem_one.mp h₁
        obtain ⟨rest, hrest, rfl⟩ := ih.mp h₂
        have hxs : ys = xs ++ rest := hrest
        refine ⟨rest, by rw [hahead, hxs, eq_of_beq hy]; rfl, ?_⟩
        simp [Cursor.after, eq_of_beq hy]
      · intro h
        obtain ⟨rest, hahead, rfl⟩ := h
        refine ⟨_, mem_one.mpr ⟨x, xs ++ rest, hahead, beq_self_eq_true x, rfl⟩,
          ih.mpr ⟨rest, rfl, ?_⟩⟩
        simp [Cursor.after]

/-! ## The first way a pattern matches -/

/-- The first of the ways on from a greedy run, where every longer run leads nowhere. -/
theorem greedy_first {β : Type} {p : Char → Bool} {f : Cursor → List β} {b : β} {bs : List β}
    (behind x rest : List Char) (hx : ∀ c ∈ x, p c = true)
    (hf : f ⟨x.reverse ++ behind, rest⟩ = b :: bs)
    (hmore : ∀ y rest', rest = y ++ rest' → y ≠ [] → (∀ c ∈ y, p c = true) →
      f ⟨(x ++ y).reverse ++ behind, rest'⟩ = []) :
    ∃ bs', (greedy p behind (x ++ rest)).flatMap f = b :: bs' := by
  induction x generalizing behind with
  | nil =>
      cases rest with
      | nil => exact ⟨bs, by simpa [greedy] using hf⟩
      | cons c cs =>
          refine ⟨bs, ?_⟩
          rw [List.nil_append, greedy]
          split
          · rename_i hc
            -- the longer runs are tried first, and none of them leads on
            have hlonger : (greedy p (c :: behind) cs).flatMap f = [] := by
              rw [List.flatMap_eq_nil_iff]
              intro d hd
              obtain ⟨y, rest', rfl, hy, rfl⟩ := mem_greedy.mp hd
              have hnil := hmore (c :: y) rest' rfl (by simp) (List.forall_mem_cons.mpr ⟨hc, hy⟩)
              simpa using hnil
            rw [List.flatMap_append, hlonger]
            simpa using hf
          · simpa using hf
  | cons c x ih =>
      obtain ⟨hc, hx⟩ := List.forall_mem_cons.mp hx
      obtain ⟨bs', hbs'⟩ := ih (c :: behind) hx (by simpa using hf) (by
        intro y rest' hrest hne hy
        simpa using hmore y rest' hrest hne hy)
      refine ⟨bs' ++ f ⟨behind, c :: (x ++ rest)⟩, ?_⟩
      rw [List.cons_append, greedy, if_pos hc, List.flatMap_append, hbs']
      simp

/-- With a captured run in front: the longest run that leads on is the first one tried. -/
theorem group_star_first {p : Char → Bool} {r : Re} {c : Cursor} {caps : List (List Char)}
    {x rest : List Char} {st : Progress} {sts : List Progress} (hc : c.ahead = x ++ rest)
    (hx : ∀ y ∈ x, p y = true) (hr : r.alternatives (c.after x rest, caps ++ [x]) = st :: sts)
    (hmore : ∀ y rest', rest = y ++ rest' → y ≠ [] → (∀ z ∈ y, p z = true) →
      r.alternatives (c.after (x ++ y) rest', caps ++ [x ++ y]) = []) :
    ∃ sts', (Re.seq (.group (.star p)) r).alternatives (c, caps) = st :: sts' := by
  have hways : (Re.seq (.group (.star p)) r).alternatives (c, caps)
      = (greedy p c.behind (x ++ rest)).flatMap
        (fun c' => r.alternatives (c', caps ++ [c.upTo c'])) := by
    simp only [Re.alternatives, hc, List.map_map, List.flatMap_map, Function.comp_def]
  -- what is captured is the run, wherever it ends
  rw [hways]
  have hhead : r.alternatives (c.after x rest, caps ++ [c.upTo (c.after x rest)]) = st :: sts := by
    rw [Cursor.upTo_after hc]
    exact hr
  refine greedy_first c.behind x rest hx hhead ?_
  intro y rest' hrest hne hy
  rw [← Cursor.after, Cursor.upTo_after (by rw [hc, hrest, List.append_assoc])]
  exact hmore y rest' hrest hne hy

/-- With a character in front. -/
theorem one_seq {p : Char → Bool} {r : Re} {c : Cursor} {caps : List (List Char)} {x : Char}
    {xs : List Char} (hc : c.ahead = x :: xs) (hx : p x = true) :
    (Re.seq (.one p) r).alternatives (c, caps) = r.alternatives (c.after [x] xs, caps) := by
  obtain ⟨behind, ahead⟩ := c
  cases hc
  simp only [Re.alternatives, if_pos hx, List.flatMap_cons, List.flatMap_nil, List.append_nil]
  rfl

/-- At the beginning of a line. -/
theorem lineStart_seq {r : Re} {c : Cursor} {caps : List (List Char)}
    (hc : ∀ x, c.behind.head? = some x → x = '\n') :
    (Re.seq .lineStart r).alternatives (c, caps) = r.alternatives (c, caps) := by
  have hstart : Re.lineStart.alternatives (c, caps) = [(c, caps)] := by
    unfold Re.alternatives
    split
    · rfl
    · rename_i x xs hbehind
      exact if_pos (hc x (by rw [hbehind]; rfl))
  rw [Re.alternatives, hstart, List.flatMap_cons, List.flatMap_nil, List.append_nil]

theorem lineEnd_alternatives {c : Cursor} {caps : List (List Char)}
    (hc : ∀ x, c.ahead.head? = some x → x = '\n') :
    Re.lineEnd.alternatives (c, caps) = [(c, caps)] := by
  unfold Re.alternatives
  split
  · rfl
  · rename_i x xs hahead
    exact if_pos (hc x (by rw [hahead]; rfl))

/-- The number of captures of all matches together. -/
theorem length_flatten_scan (r : Re) (s : String) :
    (r.scan s).flatten.length = (r.scan s).length * r.groups := by
  rw [List.length_flatten]
  have hlens : (r.scan s).map List.length = List.replicate (r.scan s).length r.groups := by
    rw [List.eq_replicate_iff, List.length_map]
    refine ⟨rfl, ?_⟩
    intro n hn
    obtain ⟨caps, hcaps, rfl⟩ := List.mem_map.mp hn
    exact scanFrom_groups hcaps
  rw [hlens, List.sum_replicate_nat]

end BetterEfisis.Lib

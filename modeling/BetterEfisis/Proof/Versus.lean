import BetterEfisis.Worker.Events
import Mathlib.Data.List.Induction
import Mathlib.Data.List.TakeWhile
import Mathlib.Order.WellFounded

/-!
# What `valid_event?` accepts

The pattern is anchored to lines and the scan goes on behind a match, so what is
counted are the lines of a name that have a separated `v`, or nearly so: a match may
take two line breaks for white space. One such line makes an event valid. What stands
around the `v` is not looked at, and the test of the country can never fail.
-/

namespace BetterEfisis.Proof

open Lib EventWorker

/-- `cs` is `x`, a `v` between the white space `w₁` and `w₂`, and `y`. -/
structure Separated (cs x : List Char) (w₁ w₂ : Char) (y : List Char) : Prop where
  split : cs = x ++ w₁ :: 'v' :: w₂ :: y
  left : patternSpace w₁ = true
  right : patternSpace w₂ = true

/-- Some character is not blank. -/
def Nonblank (cs : List Char) : Prop := ∃ c ∈ cs, isSpace c = false

/-- The name as a whole is a home part, a separated `v`, and an away part. -/
def TwoTeams (name : String) : Prop :=
  ∃ x w₁ w₂ y, Separated name.toList x w₁ w₂ y ∧ Nonblank x ∧ Nonblank y

/-- There is a separated `v` in the name. -/
def HasVersus (name : String) : Prop := ∃ x w₁ w₂ y, Separated name.toList x w₁ w₂ y

/-- The pattern matches behind the lines `p`, with `h` for the home part. -/
structure ReadAt (cs p h : List Char) (w₁ w₂ : Char) (y : List Char) : Prop where
  separated : Separated cs (p ++ h) w₁ w₂ y
  start : ∀ c, p.getLast? = some c → c = '\n'
  line : ∀ c ∈ h, (c != '\n') = true

/-- What is read first: on the first line possible, and with the longest home part. -/
structure FirstRead (cs p h : List Char) (w₁ w₂ : Char) (y : List Char) : Prop
    extends ReadAt cs p h w₁ w₂ y where
  first : ∀ p' h' w₁' w₂' y', ReadAt cs p' h' w₁' w₂' y' → p.length ≤ p'.length
  longest : ∀ h' w₁' w₂' y', ReadAt cs p h' w₁' w₂' y' → h'.length ≤ h.length

/-- The away part that is read: what is left of the line. -/
def away (y : List Char) : List Char := y.takeWhile (fun c => c != '\n')

/-- Behind what is read first, the pattern matches again. -/
def Twice (name : String) : Prop :=
  ∃ p h w₁ w₂ y, FirstRead name.toList p h w₁ w₂ y
    ∧ ∃ p' h' w₁' w₂' y', ReadAt name.toList p' h' w₁' w₂' y'
      ∧ p.length + h.length + 3 + (away y).length ≤ p'.length

/-! ## A match of the pattern -/

/-- The pattern behind its home part. -/
def separator : Re :=
  .seq (.one patternSpace) (.seq (.one (fun c => c == 'v')) (.seq (.one patternSpace)
    (.seq (.group (.star (fun c => c != '\n'))) .lineEnd)))

theorem versus_eq :
    versus = .seq .lineStart (.seq (.group (.star (fun c => c != '\n'))) separator) := rfl

/-- Behind the away part the line ends. -/
theorem head_dropWhile_away {y : List Char} {c : Char}
    (h : (y.dropWhile (fun c => c != '\n')).head? = some c) : c = '\n' := by
  have hnot := List.head?_dropWhile_not (fun c => c != '\n') y
  rw [h] at hnot
  simpa using hnot

/-- The separator is read with all of the line behind it. -/
theorem separator_first {c : Cursor} (caps : List (List Char)) {w₁ w₂ : Char} {y : List Char}
    (hc : c.ahead = w₁ :: 'v' :: w₂ :: y) (h₁ : patternSpace w₁ = true)
    (h₂ : patternSpace w₂ = true) :
    ∃ rest, separator.alternatives (c, caps)
      = (c.after (w₁ :: 'v' :: w₂ :: away y) (y.dropWhile (fun c => c != '\n')),
          caps ++ [away y]) :: rest := by
  let c₁ := c.after [w₁] ('v' :: w₂ :: y)
  let c₂ := c₁.after ['v'] (w₂ :: y)
  let c' := c₂.after [w₂] y
  let rest := y.dropWhile (fun c => c != '\n')
  have hone : separator.alternatives (c, caps)
      = (Re.seq (.group (.star (fun c => c != '\n'))) .lineEnd).alternatives (c', caps) := by
    unfold separator
    rw [one_seq hc h₁, one_seq (c := c₁) (p := fun c => c == 'v') (x := 'v') rfl rfl,
      one_seq (c := c₂) rfl h₂]
  -- three characters further, the rest of the line is the away part
  have hafter : c.after (w₁ :: 'v' :: w₂ :: away y) rest = c'.after (away y) rest := by
    simp [c', c₂, c₁, Cursor.after]
  have hsplit : y = away y ++ rest := List.takeWhile_append_dropWhile.symm
  rw [hone, hafter]
  refine group_star_first hsplit ?_ (lineEnd_alternatives fun _ => head_dropWhile_away) ?_
  · intro z hz
    exact List.mem_takeWhile_imp (p := fun c => c != '\n') hz
  · -- a longer away part would not be on the line
    intro z rest' hrest hne hz
    obtain ⟨x, z, rfl⟩ := List.exists_cons_of_ne_nil hne
    have hx : x = '\n' := by
      refine head_dropWhile_away (y := y) ?_
      show rest.head? = some x
      rw [hrest]
      rfl
    have hnot := hz x List.mem_cons_self
    rw [hx] at hnot
    exact absurd hnot (by decide)

/-- It is read wherever there is one. -/
theorem separator_ne_nil {c : Cursor} {caps : List (List Char)} :
    separator.alternatives (c, caps) ≠ [] ↔ ∃ w₁ w₂ y, c.ahead = w₁ :: 'v' :: w₂ :: y
      ∧ patternSpace w₁ = true ∧ patternSpace w₂ = true := by
  constructor
  · intro h
    obtain ⟨st, hst⟩ := List.exists_mem_of_ne_nil _ h
    obtain ⟨_, h₁, hst⟩ := mem_seq.mp hst
    obtain ⟨w₁, rest, hw₁, hs₁, rfl⟩ := mem_one.mp h₁
    obtain ⟨_, h₂, hst⟩ := mem_seq.mp hst
    obtain ⟨v, rest', hv, hv', rfl⟩ := mem_one.mp h₂
    obtain ⟨_, h₃, _⟩ := mem_seq.mp hst
    obtain ⟨w₂, y, hw₂, hs₂, rfl⟩ := mem_one.mp h₃
    have hrest : rest = v :: rest' := hv
    have hrest' : rest' = w₂ :: y := hw₂
    exact ⟨w₁, w₂, y, by rw [hw₁, hrest, hrest', eq_of_beq hv'], hs₁, hs₂⟩
  · intro h
    obtain ⟨w₁, w₂, y, hc, h₁, h₂⟩ := h
    obtain ⟨rest, hrest⟩ := separator_first caps hc h₁ h₂
    rw [hrest]
    simp

/-- **The places the pattern matches at.** -/
theorem versus_ne_nil {p q : List Char} :
    versus.alternatives (⟨p.reverse, q⟩, []) ≠ [] ↔ ∃ h w₁ w₂ y, ReadAt (p ++ q) p h w₁ w₂ y := by
  rw [versus_eq]
  constructor
  · intro hne
    obtain ⟨st, hst⟩ := List.exists_mem_of_ne_nil _ hne
    obtain ⟨_, h₁, hst⟩ := mem_seq.mp hst
    obtain ⟨hstart, rfl⟩ := mem_lineStart.mp h₁
    obtain ⟨_, h₂, hst⟩ := mem_seq.mp hst
    obtain ⟨h, rest, hq, hline, rfl⟩ := mem_group_star.mp h₂
    -- what the pattern matches, piece by piece, is what is read there
    obtain ⟨w₁, w₂, y, hrest, hs₁, hs₂⟩ := separator_ne_nil.mp (List.ne_nil_of_mem hst)
    have hq' : q = h ++ rest := hq
    have hrest' : rest = w₁ :: 'v' :: w₂ :: y := hrest
    refine ⟨h, w₁, w₂, y, ⟨by rw [hq', hrest', List.append_assoc], hs₁, hs₂⟩, ?_, hline⟩
    simpa [List.head?_reverse] using hstart
  · intro hread
    obtain ⟨h, w₁, w₂, y, hread⟩ := hread
    have hq : q = h ++ w₁ :: 'v' :: w₂ :: y := by
      have hsplit := hread.separated.split
      rw [List.append_assoc] at hsplit
      exact List.append_cancel_left hsplit
    have hstart : ∀ x, (p.reverse).head? = some x → x = '\n' := by
      rw [List.head?_reverse]
      exact hread.start
    rw [lineStart_seq hstart]
    have hsep : separator.alternatives
        ((⟨p.reverse, q⟩ : Cursor).after h (w₁ :: 'v' :: w₂ :: y), [] ++ [h]) ≠ [] :=
      separator_ne_nil.mpr ⟨w₁, w₂, y, rfl, hread.separated.left, hread.separated.right⟩
    obtain ⟨st, hst⟩ := List.exists_mem_of_ne_nil _ hsep
    exact List.ne_nil_of_mem
      (mem_seq.mpr ⟨_, mem_group_star.mpr ⟨h, _, hq, hread.line, rfl⟩, hst⟩)

/-- And so of the places of a name. -/
theorem read_of_later {name : String} {d : Cursor}
    (hd : (⟨[], name.toList⟩ : Cursor).Later d) (hne : versus.alternatives (d, []) ≠ []) :
    ∃ p h w₁ w₂ y, d.behind = p.reverse ∧ ReadAt name.toList p h w₁ w₂ y := by
  obtain ⟨p, q, hpq, rfl⟩ := hd
  have hplace : (⟨[], name.toList⟩ : Cursor).after p q = ⟨p.reverse, q⟩ := by
    simp [Cursor.after]
  rw [hplace] at hne ⊢
  obtain ⟨h, w₁, w₂, y, hread⟩ := versus_ne_nil.mp hne
  have hcs : name.toList = p ++ q := hpq
  rw [← hcs] at hread
  exact ⟨p, h, w₁, w₂, y, rfl, hread⟩

/-! ## What is read first -/

/-- The last line of `x`. -/
theorem exists_line (x : List Char) :
    ∃ p h, x = p ++ h ∧ (∀ c, p.getLast? = some c → c = '\n')
      ∧ ∀ c ∈ h, (c != '\n') = true := by
  induction x using List.reverseRecOn with
  | nil => exact ⟨[], [], rfl, by simp, by simp⟩
  | append_singleton x c ih =>
      by_cases hc : c = '\n'
      · exact ⟨x ++ [c], [], by simp, by simp [hc], by simp⟩
      · obtain ⟨p, h, rfl, hstart, hline⟩ := ih
        refine ⟨p, h ++ [c], by simp, hstart, ?_⟩
        intro d hd
        rcases List.mem_append.mp hd with hd | hd
        · exact hline d hd
        · rw [List.mem_singleton.mp hd]
          exact bne_iff_ne.mpr hc

/-- Where there is a separated `v`, something is read. -/
theorem readAt_of_hasVersus {name : String} (h : HasVersus name) :
    ∃ p h w₁ w₂ y, ReadAt name.toList p h w₁ w₂ y := by
  obtain ⟨x, w₁, w₂, y, hsep⟩ := h
  obtain ⟨p, h, rfl, hstart, hline⟩ := exists_line x
  exact ⟨p, h, w₁, w₂, y, hsep, hstart, hline⟩

/-- A place matched at is a place in the name. -/
theorem ReadAt.prefix_of {cs p h : List Char} {w₁ w₂ : Char} {y : List Char}
    (hread : ReadAt cs p h w₁ w₂ y) : p ++ h <+: cs := by
  rw [hread.separated.split]
  exact List.prefix_append _ _

/-- And something is read first. -/
theorem exists_firstRead {cs p h : List Char} {w₁ w₂ : Char} {y : List Char}
    (hread : ReadAt cs p h w₁ w₂ y) : ∃ p h w₁ w₂ y, FirstRead cs p h w₁ w₂ y := by
  -- the first line with a match, and on it the longest home part, which the name bounds
  obtain ⟨p, ⟨h, w₁, w₂, y, hread⟩, hp⟩ := (measure List.length).wf.has_min
    {p | ∃ h w₁ w₂ y, ReadAt cs p h w₁ w₂ y} ⟨p, h, w₁, w₂, y, hread⟩
  obtain ⟨h, ⟨w₁, w₂, y, hread⟩, hh⟩ := (measure (fun h => cs.length - h.length)).wf.has_min
    {h | ∃ w₁ w₂ y, ReadAt cs p h w₁ w₂ y} ⟨h, w₁, w₂, y, hread⟩
  refine ⟨p, h, w₁, w₂, y, hread, ?_, ?_⟩
  · intro p' h' w₁' w₂' y' hread'
    exact Nat.le_of_not_lt (hp p' ⟨h', w₁', w₂', y', hread'⟩)
  · intro h' w₁' w₂' y' hread'
    have hge : cs.length - h.length ≤ cs.length - h'.length :=
      Nat.le_of_not_lt (hh h' ⟨w₁', w₂', y', hread'⟩)
    have hle := hread.prefix_of.length_le
    have hle' := hread'.prefix_of.length_le
    rw [List.length_append] at hle hle'
    omega

/-- Where the scan goes on behind what is read first. -/
def behindFirst (p h : List Char) (w₁ w₂ : Char) (y : List Char) : Cursor :=
  ⟨(p ++ h ++ w₁ :: 'v' :: w₂ :: away y).reverse, y.dropWhile (fun c => c != '\n')⟩

/-- The match is with the longest home part. -/
theorem versus_first {cs p h : List Char} {w₁ w₂ : Char} {y : List Char}
    (hread : FirstRead cs p h w₁ w₂ y) :
    ∃ caps rest, versus.alternatives (⟨p.reverse, h ++ w₁ :: 'v' :: w₂ :: y⟩, [])
      = (behindFirst p h w₁ w₂ y, caps) :: rest := by
  let c : Cursor := ⟨p.reverse, h ++ w₁ :: 'v' :: w₂ :: y⟩
  let c' := c.after h (w₁ :: 'v' :: w₂ :: y)
  have hstart : ∀ x, c.behind.head? = some x → x = '\n' := by
    show ∀ x, p.reverse.head? = some x → x = '\n'
    rw [List.head?_reverse]
    exact hread.start
  obtain ⟨rest, hsep⟩ := separator_first (c := c') ([] ++ [h]) rfl
    hread.separated.left hread.separated.right
  have hstop : behindFirst p h w₁ w₂ y
      = c'.after (w₁ :: 'v' :: w₂ :: away y) (y.dropWhile (fun c => c != '\n')) := by
    simp [behindFirst, c, c', Cursor.after]
  rw [versus_eq, lineStart_seq hstart, hstop]
  refine ⟨_, group_star_first rfl hread.line hsep ?_⟩
  -- a longer home part would have been read first
  intro z rest' hrest hne hz
  by_contra hways
  obtain ⟨w₁', w₂', y', hahead, h₁, h₂⟩ := separator_ne_nil.mp hways
  have hrest' : rest' = w₁' :: 'v' :: w₂' :: y' := hahead
  have hlonger : ReadAt cs p (h ++ z) w₁' w₂' y' := by
    refine ⟨⟨?_, h₁, h₂⟩, hread.start, ?_⟩
    · rw [hread.separated.split, hrest, hrest']
      simp
    · intro d hd
      rcases List.mem_append.mp hd with hd | hd
      · exact hread.line d hd
      · exact hz d hd
  have hle := hread.longest _ _ _ _ hlonger
  have hpos := List.length_pos_iff.mpr hne
  rw [List.length_append] at hle
  omega

/-- What is read first, and the line it is on. -/
theorem FirstRead.split_line {cs p h : List Char} {w₁ w₂ : Char} {y : List Char}
    (hread : FirstRead cs p h w₁ w₂ y) :
    cs = (p ++ h ++ w₁ :: 'v' :: w₂ :: away y) ++ y.dropWhile (fun c => c != '\n') := by
  conv_lhs => rw [hread.separated.split]
  have hy : y = away y ++ y.dropWhile (fun c => c != '\n') :=
    List.takeWhile_append_dropWhile.symm
  conv_lhs => rw [hy]
  simp

/-- The places left to match at. -/
theorem later_reads {cs p h : List Char} {w₁ w₂ : Char} {y : List Char}
    (hread : FirstRead cs p h w₁ w₂ y) :
    (∃ d, (behindFirst p h w₁ w₂ y).Later d ∧ versus.alternatives (d, []) ≠ [])
      ↔ ∃ p' h' w₁' w₂' y', ReadAt cs p' h' w₁' w₂' y'
        ∧ p.length + h.length + 3 + (away y).length ≤ p'.length := by
  let q := p ++ h ++ w₁ :: 'v' :: w₂ :: away y
  have hq : q.length = p.length + h.length + 3 + (away y).length := by
    simp only [q, List.length_append, List.length_cons]
    omega
  have hcs := hread.split_line
  rw [← hq]
  constructor
  · intro hways
    obtain ⟨d, ⟨x, rest, hx, rfl⟩, hne⟩ := hways
    have hd : (behindFirst p h w₁ w₂ y).after x rest = ⟨(q ++ x).reverse, rest⟩ := by
      simp [behindFirst, q, Cursor.after]
    rw [hd] at hne
    obtain ⟨h', w₁', w₂', y', hread'⟩ := versus_ne_nil.mp hne
    have hsame : q ++ x ++ rest = cs := by
      rw [List.append_assoc, hcs]
      exact congrArg (q ++ ·) hx.symm
    rw [hsame] at hread'
    exact ⟨q ++ x, h', w₁', w₂', y', hread', (List.prefix_append q x).length_le⟩
  · intro hmore
    obtain ⟨p', h', w₁', w₂', y', hread', hle⟩ := hmore
    -- both are what the name begins with, and `q` is not the longer one
    have hpre : q <+: p' := List.prefix_of_prefix_length_le ⟨_, hcs.symm⟩
      ((List.prefix_append _ _).trans hread'.prefix_of) hle
    obtain ⟨x, rfl⟩ := hpre
    have hahead : y.dropWhile (fun c => c != '\n') = x ++ (h' ++ w₁' :: 'v' :: w₂' :: y') := by
      have hboth := hcs.symm.trans hread'.separated.split
      simp only [List.append_assoc] at hboth
      simpa [q] using hboth
    refine ⟨_, ⟨x, h' ++ w₁' :: 'v' :: w₂' :: y', hahead, rfl⟩, ?_⟩
    have hd : (behindFirst p h w₁ w₂ y).after x (h' ++ w₁' :: 'v' :: w₂' :: y')
        = ⟨(q ++ x).reverse, h' ++ w₁' :: 'v' :: w₂' :: y'⟩ := by
      simp [behindFirst, q, Cursor.after]
    rw [hd]
    refine versus_ne_nil.mpr ⟨h', w₁', w₂', y', ?_⟩
    have hsame : q ++ x ++ (h' ++ w₁' :: 'v' :: w₂' :: y') = cs := by
      rw [hread'.separated.split]
      simp
    rw [hsame]
    exact hread'

/-- **One match is all where nothing is left to match behind the first.** -/
theorem scan_of_firstRead {name : String} {p h : List Char} {w₁ w₂ : Char} {y : List Char}
    (hread : FirstRead name.toList p h w₁ w₂ y) :
    (versus.scan name).length = 1 ↔ ¬ ∃ p' h' w₁' w₂' y', ReadAt name.toList p' h' w₁' w₂' y'
      ∧ p.length + h.length + 3 + (away y).length ≤ p'.length := by
  let start : Cursor := ⟨[], name.toList⟩
  let c : Cursor := ⟨p.reverse, h ++ w₁ :: 'v' :: w₂ :: y⟩
  have hsplit : name.toList = p ++ (h ++ w₁ :: 'v' :: w₂ :: y) := by
    rw [hread.separated.split, List.append_assoc]
  have hlater : start.Later c := ⟨p, _, hsplit, by simp [c, start, Cursor.after]⟩
  have hnone : ∀ e, start.Later e → e.Later c → e ≠ c → versus.alternatives (e, []) = [] := by
    intro e he hec hne
    by_contra hways
    -- a match in front of the first one would be on an earlier line
    obtain ⟨p', h', w₁', w₂', y', hbehind, hread'⟩ := read_of_later he hways
    have hle := hread.first _ _ _ _ _ hread'
    have hlong : ¬ e.ahead.length ≤ c.ahead.length := fun hb => hne (hec.eq_of_length hb).symm
    have hlen := congrArg List.length hec.subject
    simp only [Cursor.subject, hbehind, c, List.reverse_reverse, List.length_append] at hlen hlong
    omega
  -- the match has a `v` in it
  have hmoves : behindFirst p h w₁ w₂ y ≠ c := by
    intro heq
    have hlen := congrArg (fun c : Cursor => c.behind.length) heq
    simp [behindFirst, c] at hlen
    omega
  obtain ⟨caps, rest, hfirst⟩ := versus_first hread
  have henough : start.ahead.length < name.toList.length + 1 := Nat.lt_succ_self _
  obtain ⟨fuel, hfuel, hscan⟩ := scanFrom_first henough hlater hnone hfirst hmoves
  have hrest := scanFrom_eq_nil_iff (r := versus) hfuel
  have hone : (versus.scan name).length = 1
      ↔ versus.scanFrom fuel (behindFirst p h w₁ w₂ y) = [] := by
    unfold Re.scan
    rw [hscan, List.length_cons]
    simp
  rw [hone, hrest, ← later_reads hread]
  simp

/-! ## What is accepted -/

/-- Nothing is found in a name without a separated `v`. -/
theorem scan_of_not_hasVersus {name : String} (h : ¬ HasVersus name) : versus.scan name = [] := by
  have hnil := scanFrom_eq_nil_iff (r := versus) (c := ⟨[], name.toList⟩) (Nat.lt_succ_self _)
  refine hnil.mpr ?_
  intro d hd
  by_contra hways
  obtain ⟨p, h', w₁, w₂, y, _, hread⟩ := read_of_later hd hways
  exact h ⟨p ++ h', w₁, w₂, y, hread.separated⟩

/-- **An event is valid where its name is read once.** -/
theorem validEvent_iff {e : ApiEvent} {name : String} (hname : e.name = some name) :
    validEvent e = .ok true ↔ HasVersus name ∧ ¬ Twice name := by
  have hcount : validEvent e = .ok true ↔ (versus.scan name).length = 1 := by
    -- there are two captures to a match, so a count of 2 is one match
    have hlen : (versus.scan name).flatten.length = (versus.scan name).length * 2 :=
      length_flatten_scan versus name
    simp only [validEvent, hname, notNil_some, bind, Except.bind, pure, Except.pure, hlen]
    split
    · rename_i hcond
      refine iff_of_false (by simp) ?_
      intro hone
      rw [hone] at hcond
      simp at hcond
    · rename_i hcond
      refine iff_of_true rfl ?_
      by_contra hne
      exact hcond (Or.inl ⟨by simp, by omega⟩)
  rw [hcount]
  by_cases hv : HasVersus name
  · obtain ⟨_, _, _, _, _, hread⟩ := readAt_of_hasVersus hv
    obtain ⟨p, h, w₁, w₂, y, hfirst⟩ := exists_firstRead hread
    constructor
    · intro hone
      refine ⟨hv, ?_⟩
      intro htwice
      obtain ⟨_, _, _, _, _, hfirst', hmore⟩ := htwice
      exact (scan_of_firstRead hfirst').mp hone hmore
    · intro honce
      exact (scan_of_firstRead hfirst).mpr fun hmore => honce.2 ⟨p, h, w₁, w₂, y, hfirst, hmore⟩
  · rw [scan_of_not_hasVersus hv]
    exact iff_of_false (by simp) (fun h => hv h.1)

/-! ## The main result -/

theorem TwoTeams.hasVersus {name : String} (h : TwoTeams name) : HasVersus name := by
  obtain ⟨x, w₁, w₂, y, hsep, _⟩ := h
  exact ⟨x, w₁, w₂, y, hsep⟩

/--
**`valid_event?` is right where nothing is read, where an event that can be stored is
read once, and where one that cannot is read twice.** It is so whatever is meant by a
country that is present.
-/
theorem validEvent_right_iff (present : Option String → Bool) (e : ApiEvent) (name : String)
    (hname : e.name = some name) :
    (validEvent e = .ok true ↔ present e.countryCode = true ∧ TwoTeams name)
      ↔ ¬ HasVersus name
        ∨ (present e.countryCode = true ∧ TwoTeams name) ∧ ¬ Twice name
        ∨ ¬ (present e.countryCode = true ∧ TwoTeams name) ∧ Twice name := by
  rw [validEvent_iff hname]
  by_cases hv : HasVersus name
  · by_cases ht : Twice name <;> simp [hv, ht]
  · have hnot : ¬ TwoTeams name := fun h => hv h.hasVersus
    exact iff_of_true (iff_of_false (fun h => hv h.1) (fun h => hnot h.2)) (Or.inl hv)

/-- An event with that name. -/
def named (name : String) (countryCode : Option String) : ApiEvent :=
  ⟨"7", some name, countryCode, none, none⟩

theorem twoTeams_oaks (more : String) : TwoTeams ("Oaks v Elms" ++ more) := by
  refine ⟨"Oaks".toList, ' ', ' ', ("Elms" ++ more).toList, ⟨?_, by decide, by decide⟩,
    ⟨'O', by decide, by decide⟩, ⟨'E', by simp, by decide⟩⟩
  simp

/-- The Oaks against the Elms are a match, and it is read once. -/
theorem validEvent_right_oaks :
    validEvent (named "Oaks v Elms" (some "GB")) = .ok true ∧ TwoTeams "Oaks v Elms"
      ∧ ¬ Twice "Oaks v Elms" := by
  have hvalid : validEvent (named "Oaks v Elms" (some "GB")) = .ok true := by decide +kernel
  have hteams : TwoTeams "Oaks v Elms" := twoTeams_oaks ""
  have hright := (validEvent_right_iff presentText (named "Oaks v Elms" (some "GB")) _ rfl).mp
    (iff_of_true hvalid ⟨by decide, hteams⟩)
  rcases hright with hnone | ⟨_, honce⟩ | ⟨hnot, _⟩
  · exact absurd hteams.hasVersus hnone
  · exact ⟨hvalid, hteams, honce⟩
  · exact absurd ⟨by decide, hteams⟩ hnot

/-- **A match without a country is valid, and one with another on the next line is not.** -/
theorem validEvent_not_right :
    (∀ present : Option String → Bool, present none = false →
      ¬ ∀ e name, e.name = some name →
        (validEvent e = .ok true ↔ present e.countryCode = true ∧ TwoTeams name))
      ∧ ¬ ∀ e name, e.name = some name → e.countryCode = some "GB" →
        (validEvent e = .ok true ↔ TwoTeams name) := by
  constructor
  · intro present hnone hall
    have hvalid : validEvent (named "Oaks v Elms" none) = .ok true := by decide +kernel
    have hcountry := ((hall (named "Oaks v Elms" none) _ rfl).mp hvalid).1
    rw [show (named "Oaks v Elms" none).countryCode = none from rfl, hnone] at hcountry
    exact absurd hcountry (by simp)
  · intro hall
    have hvalid := (hall (named "Oaks v Elms\nAshes v Yews" (some "GB")) _ rfl rfl).mpr
      (twoTeams_oaks "\nAshes v Yews")
    exact absurd hvalid (by decide +kernel)

end BetterEfisis.Proof

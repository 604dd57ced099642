import Mathlib.Data.List.Basic

/-!
# Loops that may fail

A loop in a program that raises is a fold in `Except`, and what such a fold is
worth, when it returns, is said by the list of what its steps returned. Two ways
of carrying a list through a loop are compared here: a variable that is appended
to, and one that is overwritten.
-/

namespace BetterEfisis.Lib

variable {ε α β : Type}

/-- What a sequence of two steps returned, they both returned. -/
theorem bind_eq_ok {x : Except ε α} {f : α → Except ε β} {b : β} :
    (x >>= f) = .ok b ↔ ∃ a, x = .ok a ∧ f a = .ok b := by
  cases x with
  | error e =>
      constructor
      · intro h
        cases h
      · rintro ⟨a, h, -⟩
        cases h
  | ok a =>
      constructor
      · intro h
        exact ⟨a, rfl, h⟩
      · rintro ⟨a', h, hf⟩
        cases h
        exact hf

/-- `mapM` over a list that is not empty, when it returns. -/
theorem mapM_cons_eq_ok {f : α → Except ε β} {x : α} {xs : List α} {ys : List β} :
    (x :: xs).mapM f = .ok ys ↔ ∃ y zs, f x = .ok y ∧ xs.mapM f = .ok zs ∧ ys = y :: zs := by
  rw [List.mapM_cons, bind_eq_ok]
  constructor
  · intro h
    obtain ⟨y, hy, h⟩ := h
    obtain ⟨zs, hzs, h'⟩ := bind_eq_ok.mp h
    cases h'
    exact ⟨y, zs, hy, hzs, rfl⟩
  · intro h
    obtain ⟨y, zs, hy, hzs, rfl⟩ := h
    exact ⟨y, hy, bind_eq_ok.mpr ⟨zs, hzs, rfl⟩⟩

theorem mapM_append_eq_ok {f : α → Except ε β} {xs xs' : List α} {ys : List β} :
    (xs ++ xs').mapM f = .ok ys ↔
      ∃ zs zs', xs.mapM f = .ok zs ∧ xs'.mapM f = .ok zs' ∧ ys = zs ++ zs' := by
  rw [List.mapM_append, bind_eq_ok]
  constructor
  · intro h
    obtain ⟨zs, hzs, h⟩ := h
    obtain ⟨zs', hzs', h'⟩ := bind_eq_ok.mp h
    cases h'
    exact ⟨zs, zs', hzs, hzs', rfl⟩
  · intro h
    obtain ⟨zs, zs', hzs, hzs', rfl⟩ := h
    exact ⟨zs, hzs, bind_eq_ok.mpr ⟨zs', hzs', rfl⟩⟩

/-- `mapM` returns where it returns on every element. -/
theorem mapM_ok {f : α → Except ε β} {xs : List α} (h : ∀ x ∈ xs, ∃ y, f x = .ok y) :
    ∃ ys, xs.mapM f = .ok ys := by
  induction xs with
  | nil => exact ⟨[], rfl⟩
  | cons x xs ih =>
      obtain ⟨y, hy⟩ := h x List.mem_cons_self
      obtain ⟨ys, hys⟩ := ih (fun x' hx' => h x' (List.mem_cons_of_mem _ hx'))
      exact ⟨y :: ys, mapM_cons_eq_ok.mpr ⟨y, ys, hy, hys, rfl⟩⟩

/-- And what it returns are the values, where they are known. -/
theorem mapM_eq_ok_map {f : α → Except ε β} {g : α → β} {xs : List α}
    (h : ∀ x ∈ xs, f x = .ok (g x)) : xs.mapM f = .ok (xs.map g) := by
  induction xs with
  | nil => rfl
  | cons x xs ih =>
      have hrest := ih (fun x' hx' => h x' (List.mem_cons_of_mem _ hx'))
      exact mapM_cons_eq_ok.mpr ⟨g x, xs.map g, h x List.mem_cons_self, hrest, rfl⟩

/-- A loop that returns has taken the step of every element. -/
theorem foldlM_step {f : β → α → Except ε β} {xs : List α} {b b' : β} {x : α} (hx : x ∈ xs)
    (h : xs.foldlM f b = .ok b') : ∃ c c', f c x = .ok c' := by
  induction xs generalizing b with
  | nil => exact absurd hx List.not_mem_nil
  | cons y ys ih =>
      rw [List.foldlM_cons] at h
      obtain ⟨b₁, h₁, hrest⟩ := bind_eq_ok.mp h
      rcases List.mem_cons.mp hx with rfl | hx'
      · exact ⟨b, b₁, h₁⟩
      · exact ih hx' hrest

/-- A loop whose steps fail by their element alone returns where none of them fails. -/
theorem foldlM_returns_iff {f : β → α → Except ε β} {P : α → Prop}
    (hstep : ∀ b x, (∃ b', f b x = .ok b') ↔ P x) {xs : List α} {b : β} :
    (∃ b', xs.foldlM f b = .ok b') ↔ ∀ x ∈ xs, P x := by
  induction xs generalizing b with
  | nil => exact iff_of_true ⟨b, rfl⟩ (fun _ hx => absurd hx List.not_mem_nil)
  | cons x xs ih =>
      rw [List.forall_mem_cons, ← hstep b x]
      constructor
      · intro h
        obtain ⟨b', h⟩ := h
        rw [List.foldlM_cons] at h
        obtain ⟨b₁, h₁, hrest⟩ := bind_eq_ok.mp h
        exact ⟨⟨b₁, h₁⟩, ih.mp ⟨b', hrest⟩⟩
      · intro h
        obtain ⟨⟨b₁, h₁⟩, hrest⟩ := h
        obtain ⟨b', hb'⟩ := ih.mpr hrest
        exact ⟨b', by rw [List.foldlM_cons]; exact bind_eq_ok.mpr ⟨b₁, h₁, hb'⟩⟩

/-- What every step of a loop keeps, the loop keeps. -/
theorem foldlM_preserves {f : β → α → Except ε β} {P : β → Prop}
    (hstep : ∀ b x b', P b → f b x = .ok b' → P b') {xs : List α} {b b' : β} (hb : P b)
    (h : xs.foldlM f b = .ok b') : P b' := by
  induction xs generalizing b with
  | nil =>
      cases h
      exact hb
  | cons x xs ih =>
      rw [List.foldlM_cons] at h
      obtain ⟨b₁, h₁, hrest⟩ := bind_eq_ok.mp h
      exact ih (hstep b x b₁ hb h₁) hrest

/-- What holds of the variable of a loop that returns, given what each step adds to it. -/
theorem foldlM_ok_iff {f : β → α → Except ε β} {P : β → Prop} {Q : α → Prop}
    (hstep : ∀ b x b', f b x = .ok b' → (P b' ↔ P b ∨ Q x)) {xs : List α} {b b' : β}
    (h : xs.foldlM f b = .ok b') : P b' ↔ P b ∨ ∃ x ∈ xs, Q x := by
  induction xs generalizing b with
  | nil =>
      cases h
      simp
  | cons x xs ih =>
      rw [List.foldlM_cons] at h
      obtain ⟨b₁, h₁, hrest⟩ := bind_eq_ok.mp h
      rw [ih hrest, hstep b x b₁ h₁, List.exists_mem_cons_iff, or_assoc]

/-- What a loop appends to a list in its variable is what its steps append, one after the other. -/
theorem foldlM_flatMap {γ : Type} {f : β → α → Except ε β} {g : β → List γ} {k : α → List γ}
    (hstep : ∀ b x b', f b x = .ok b' → g b' = g b ++ k x) {xs : List α} {b b' : β}
    (h : xs.foldlM f b = .ok b') : g b' = g b ++ xs.flatMap k := by
  induction xs generalizing b with
  | nil =>
      cases h
      simp
  | cons x xs ih =>
      rw [List.foldlM_cons] at h
      obtain ⟨b₁, h₁, hrest⟩ := bind_eq_ok.mp h
      rw [ih hrest, hstep b x b₁ h₁, List.flatMap_cons, List.append_assoc]

/-- A loop that appends to its variable returns everything its steps returned. -/
theorem foldlM_append_eq_ok {f : α → Except ε (List β)} {xs : List α} {acc bs : List β} :
    xs.foldlM (fun books x => do return books ++ (← f x)) acc = .ok bs ↔
      ∃ ps, xs.mapM f = .ok ps ∧ bs = acc ++ ps.flatten := by
  induction xs generalizing acc with
  | nil =>
      constructor
      · intro h
        cases h
        exact ⟨[], rfl, by simp⟩
      · intro h
        obtain ⟨ps, hps, rfl⟩ := h
        cases hps
        simp
        rfl
  | cons x xs ih =>
      rw [List.foldlM_cons, bind_eq_ok]
      constructor
      · intro h
        obtain ⟨acc', h, hrest⟩ := h
        obtain ⟨p, hp, h'⟩ := bind_eq_ok.mp h
        cases h'
        obtain ⟨ps, hps, rfl⟩ := ih.mp hrest
        exact ⟨p :: ps, mapM_cons_eq_ok.mpr ⟨p, ps, hp, hps, rfl⟩, by simp⟩
      · intro h
        obtain ⟨ps, hps, rfl⟩ := h
        obtain ⟨p, ps', hp, hps', rfl⟩ := mapM_cons_eq_ok.mp hps
        refine ⟨acc ++ p, bind_eq_ok.mpr ⟨p, hp, rfl⟩, ih.mpr ⟨ps', hps', by simp⟩⟩

/-- A loop that overwrites its variable returns what its last step returned. -/
theorem foldlM_last_eq_ok {f : α → Except ε β} {xs : List α} {acc b : β} :
    xs.foldlM (fun _ x => f x) acc = .ok b ↔
      ∃ ps, xs.mapM f = .ok ps ∧ b = ps.getLastD acc := by
  induction xs generalizing acc with
  | nil =>
      constructor
      · intro h
        cases h
        exact ⟨[], rfl, rfl⟩
      · intro h
        obtain ⟨ps, hps, rfl⟩ := h
        cases hps
        rfl
  | cons x xs ih =>
      rw [List.foldlM_cons, bind_eq_ok]
      constructor
      · intro h
        obtain ⟨acc', hp, hrest⟩ := h
        obtain ⟨ps, hps, rfl⟩ := ih.mp hrest
        exact ⟨acc' :: ps, mapM_cons_eq_ok.mpr ⟨acc', ps, hp, hps, rfl⟩, by
          rw [List.getLastD_cons]⟩
      · intro h
        obtain ⟨ps, hps, rfl⟩ := h
        obtain ⟨p, ps', hp, hps', rfl⟩ := mapM_cons_eq_ok.mp hps
        exact ⟨p, hp, ih.mpr ⟨ps', hps', by rw [List.getLastD_cons]⟩⟩

/-- **Overwriting loses nothing exactly when there is nothing to lose before the last step.** -/
theorem getLastD_eq_flatten_iff {ps : List (List β)} :
    ps.getLastD [] = ps.flatten ↔ ∀ p ∈ ps.dropLast, p = [] := by
  rcases List.eq_nil_or_concat ps with rfl | ⟨qs, q, rfl⟩
  · simp
  · rw [List.concat_eq_append, List.dropLast_concat, List.flatten_append, List.getLastD_concat]
    constructor
    · intro h
      have hnil : qs.flatten = [] := by
        have hlen := congrArg List.length h
        simp only [List.flatten_cons, List.flatten_nil, List.append_nil, List.length_append]
          at hlen
        exact List.length_eq_zero_iff.mp (by omega)
      exact fun p hp => List.flatten_eq_nil_iff.mp hnil p hp
    · intro h
      rw [List.flatten_eq_nil_iff.mpr h]
      simp

end BetterEfisis.Lib

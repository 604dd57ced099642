import Mathlib.Data.List.Basic
import Mathlib.Data.List.Flatten
import Mathlib.Data.List.Nodup

/-!
# Validated batch inserts

A table is a list of rows, oldest first. A batch insert validates every row of
the batch **against the table as it was before the call**, drops the rows that
fail and appends the others, so two rows of one batch never see each other.

The validations are of two kinds: a predicate on the row alone, and the
uniqueness of a key. What follows from that and nothing else:

* the old table is a prefix of the new one (`importRows_prefix`);
* a batch inserted twice is inserted once (`importRows_idem`);
* so a job made of such inserts can be restarted from the beginning after any
  number of partial runs (`runStages_absorb`);
* leaving entries out of a batch changes nothing exactly where all their rows fail
  (`filter_whole_iff`).
-/

namespace BetterEfisis.Lib

variable {α κ : Type} [DecidableEq κ]

/-- What a table checks of a row: the row itself, and the key no other row may have. -/
structure Validation (α κ : Type) where
  present : α → Bool
  key : α → κ

namespace Validation

variable (V : Validation α κ)

/-- Some row of `t` has the key `k`. -/
def taken (t : List α) (k : κ) : Bool := t.any (fun r => decide (V.key r = k))

/-- A row that passes against the rows stored in `t`. -/
def valid (t : List α) (r : α) : Bool := V.present r && !V.taken t (V.key r)

/-- Insert a batch. -/
def importRows (t batch : List α) : List α := t ++ batch.filter (V.valid t)

variable {V}

theorem taken_iff {t : List α} {k : κ} : V.taken t k = true ↔ ∃ r ∈ t, V.key r = k := by
  simp [taken]

theorem valid_iff {t : List α} {r : α} :
    V.valid t r = true ↔ V.present r = true ∧ ∀ s ∈ t, V.key s ≠ V.key r := by
  simp [valid, taken]

/-- What is let through depends on the keys in the table only. -/
theorem valid_of_keys {t t' : List α} (h : t'.map V.key = t.map V.key) :
    V.valid t' = V.valid t := by
  have htaken : ∀ (l : List α) (k : κ),
      V.taken l k = (l.map V.key).any fun k' => decide (k' = k) := by
    intro l k
    rw [taken, List.any_map]
    rfl
  funext r
  rw [valid, valid, htaken, htaken, h]

theorem importRows_prefix (t batch : List α) : t <+: V.importRows t batch :=
  List.prefix_append _ _

theorem mem_importRows {t batch : List α} {r : α} :
    r ∈ V.importRows t batch ↔ r ∈ t ∨ (r ∈ batch ∧ V.valid t r = true) := by
  simp [importRows]

/-- Every presentable row of the batch has its key in the table afterwards. -/
theorem key_stored {t batch : List α} {r : α} (hr : r ∈ batch) (hp : V.present r = true) :
    ∃ s ∈ V.importRows t batch, V.key s = V.key r := by
  by_cases hk : V.taken t (V.key r) = true
  · obtain ⟨s, hs, he⟩ := taken_iff.mp hk
    exact ⟨s, mem_importRows.mpr (Or.inl hs), he⟩
  · have hk' : V.taken t (V.key r) = false := by simpa using hk
    exact ⟨r, mem_importRows.mpr (Or.inr ⟨hr, by simp [valid, hp, hk']⟩), rfl⟩

/-- And a key in the table afterwards was there before or comes from such a row. -/
theorem key_source {t batch : List α} {s : α} (hs : s ∈ V.importRows t batch) :
    s ∈ t ∨ (s ∈ batch ∧ V.present s = true) := by
  rcases mem_importRows.mp hs with h | ⟨h, hv⟩
  · exact Or.inl h
  · exact Or.inr ⟨h, (valid_iff.mp hv).1⟩

/-- The keys in the table afterwards. -/
theorem exists_key_iff {t batch : List α} {k : κ} :
    (∃ s ∈ V.importRows t batch, V.key s = k) ↔
      (∃ s ∈ t, V.key s = k) ∨ ∃ r ∈ batch, V.present r = true ∧ V.key r = k := by
  constructor
  · intro h
    obtain ⟨s, hs, hk⟩ := h
    rcases key_source hs with hold | ⟨hnew, hp⟩
    · exact Or.inl ⟨s, hold, hk⟩
    · exact Or.inr ⟨s, hnew, hp, hk⟩
  · intro h
    rcases h with ⟨s, hs, hk⟩ | ⟨r, hr, hp, hk⟩
    · exact ⟨s, mem_importRows.mpr (Or.inl hs), hk⟩
    · obtain ⟨s, hs, he⟩ := key_stored (t := t) hr hp
      exact ⟨s, hs, he.trans hk⟩

/-- No row of a batch that has been inserted passes a second time. -/
theorem not_valid_importRows {t batch : List α} {r : α} (hr : r ∈ batch) :
    V.valid (V.importRows t batch) r = false := by
  cases hp : V.present r with
  | false => simp [valid, hp]
  | true =>
      obtain ⟨s, hs, he⟩ := key_stored (t := t) hr hp
      have : V.taken (V.importRows t batch) (V.key r) = true := taken_iff.mpr ⟨s, hs, he⟩
      simp [valid, this]

theorem filter_valid_importRows (t batch : List α) :
    batch.filter (V.valid (V.importRows t batch)) = [] := by
  rw [List.filter_eq_nil_iff]
  intro r hr
  simp [not_valid_importRows hr]

/-- **A batch inserted twice is inserted once.** -/
theorem importRows_idem (t batch : List α) :
    V.importRows (V.importRows t batch) batch = V.importRows t batch := by
  conv_lhs => rw [importRows, filter_valid_importRows, List.append_nil]

end Validation

/-! ## Entries that are left out -/

section Marked

variable {β : Type}

/-- The entries, whether they are marked or not. -/
def whole (xs : List (β × Bool)) : List β := xs.map Prod.fst

/-- The entries that are not marked. -/
def kept (xs : List (β × Bool)) : List β := (xs.filter (fun x => !x.2)).map Prod.fst

theorem mem_whole {xs : List (β × Bool)} {x : β} :
    x ∈ whole xs ↔ x ∈ kept xs ∨ (x, true) ∈ xs := by
  unfold whole kept
  constructor
  · intro h
    obtain ⟨⟨x, b⟩, hx, rfl⟩ := List.mem_map.mp h
    cases b with
    | true => exact Or.inr hx
    | false => exact Or.inl (List.mem_map.mpr ⟨_, List.mem_filter.mpr ⟨hx, rfl⟩, rfl⟩)
  · intro h
    rcases h with h | h
    · obtain ⟨y, hy, rfl⟩ := List.mem_map.mp h
      exact List.mem_map_of_mem (List.mem_of_mem_filter hy)
    · exact List.mem_map_of_mem h

theorem kept_sublist (xs : List (β × Bool)) : (kept xs).Sublist (whole xs) :=
  List.filter_sublist.map Prod.fst

/--
What a filter lets through of the rows of all entries is what it lets through of those
of the entries not marked, exactly if it lets through no row of a marked one.
-/
theorem filter_whole_iff (p : α → Bool) (f : β → List α) (xs : List (β × Bool)) :
    ((whole xs).flatMap f).filter p = ((kept xs).flatMap f).filter p
      ↔ ∀ x, (x, true) ∈ xs → ∀ r ∈ f x, p r = false := by
  induction xs with
  | nil => simp [whole, kept]
  | cons x xs ih =>
      obtain ⟨x, b⟩ := x
      have hwhole : whole ((x, b) :: xs) = x :: whole xs := rfl
      rw [hwhole, List.flatMap_cons, List.filter_append]
      cases b with
      | false =>
          have hkept : kept ((x, false) :: xs) = x :: kept xs := rfl
          rw [hkept, List.flatMap_cons, List.filter_append, List.append_right_inj, ih]
          simp
      | true =>
          have hkept : kept ((x, true) :: xs) = kept xs := rfl
          have hnil : (f x).filter p = [] ↔ ∀ r ∈ f x, p r = false := by
            simp [List.filter_eq_nil_iff]
          rw [hkept]
          constructor
          · intro h
            -- the rows of the entries kept are no more than those of all
            have hle := (((kept_sublist xs).flatMap f).filter p).length_le
            have hlen := congrArg List.length h
            rw [List.length_append] at hlen
            have hx : (f x).filter p = [] := List.length_eq_zero_iff.mp (by omega)
            rw [hx, List.nil_append] at h
            intro y hy
            rcases List.mem_cons.mp hy with heq | hy
            · cases heq
              exact hnil.mp hx
            · exact ih.mp h y hy
          · intro h
            rw [hnil.mpr (h x List.mem_cons_self), List.nil_append]
            exact ih.mpr fun y hy => h y (List.mem_cons_of_mem _ hy)

end Marked

/-! ## Rows under generated ids -/

/-- A stored row of a table whose primary key the database generates. -/
structure Saved (α : Type) where
  id : Nat
  row : α
deriving DecidableEq, Repr

/-- The rows of such a table without their ids. -/
def rows (t : List (Saved α)) : List α := t.map Saved.row

/-- Give the `i`-th of the new rows the `i`-th generated id. -/
def number (ids : Nat → Nat) (rs : List α) : List (Saved α) :=
  rs.zipIdx.map (fun p => ⟨ids p.2, p.1⟩)

/-- Insert a batch into a table with generated ids. -/
def Validation.importSaved (V : Validation α κ) (ids : Nat → Nat) (t : List (Saved α))
    (batch : List α) : List (Saved α) :=
  t ++ number ids (batch.filter (V.valid (rows t)))

/-- The rows an insert adds, with their ids. -/
def Validation.inserted (V : Validation α κ) (ids : Nat → Nat) (t : List (Saved α))
    (batch : List α) : List (Saved α) := number ids (batch.filter (V.valid (rows t)))

theorem Validation.importSaved_eq (V : Validation α κ) (ids : Nat → Nat) (t : List (Saved α))
    (batch : List α) : V.importSaved ids t batch = t ++ V.inserted ids t batch := rfl

theorem rows_number (ids : Nat → Nat) (rs : List α) : rows (number ids rs) = rs := by
  simp [rows, number, List.map_map, Function.comp_def]

theorem mem_rows {t : List (Saved α)} {r : α} : r ∈ rows t ↔ ∃ a ∈ t, a.row = r := List.mem_map

/-- A row that is added is a valid one of the batch. -/
theorem Validation.row_inserted {V : Validation α κ} {ids : Nat → Nat} {t : List (Saved α)}
    {batch : List α} {a : Saved α} (h : a ∈ V.inserted ids t batch) :
    a.row ∈ batch ∧ V.valid (rows t) a.row = true := by
  have hmem : a.row ∈ rows (V.inserted ids t batch) := mem_rows.mpr ⟨a, h, rfl⟩
  rw [Validation.inserted, rows_number] at hmem
  exact List.mem_filter.mp hmem

/-- Without the ids it is the plain insert. -/
@[simp] theorem rows_importSaved {V : Validation α κ} (ids : Nat → Nat) (t : List (Saved α))
    (batch : List α) : rows (V.importSaved ids t batch) = V.importRows (rows t) batch := by
  have h := rows_number ids (batch.filter (V.valid (rows t)))
  simp only [rows, Validation.importSaved, Validation.importRows, List.map_append] at h ⊢
  rw [h]

/-- A batch whose rows are all stored, or all fail, leaves the table and its ids alone. -/
theorem importSaved_of_done {V : Validation α κ} {ids : Nat → Nat} {t : List (Saved α)}
    {batch : List α} (h : V.importRows (rows t) batch = rows t) :
    V.importSaved ids t batch = t := by
  have hnil : batch.filter (V.valid (rows t)) = [] := List.append_right_eq_self.mp h
  simp [Validation.importSaved, hnil, number]

/-! ## Jobs made of idempotent stages -/

section Stages

variable {σ : Type}

/-- Run the stages of a job in order. -/
def runStages (fs : List (σ → σ)) (s : σ) : σ := fs.foldl (fun s f => f s) s

/-- Stages that may be repeated, and that do not see each other's work. -/
structure Restartable (fs : List (σ → σ)) : Prop where
  /-- A stage done twice is done once. -/
  idem : ∀ f ∈ fs, ∀ s, f (f s) = f s
  /-- The order of two stages does not matter. -/
  comm : ∀ f ∈ fs, ∀ g ∈ fs, ∀ s, f (g s) = g (f s)

theorem Restartable.tail {f : σ → σ} {fs : List (σ → σ)} (h : Restartable (f :: fs)) :
    Restartable fs where
  idem := fun g hg => h.idem g (List.mem_cons_of_mem _ hg)
  comm := fun g hg k hk => h.comm g (List.mem_cons_of_mem _ hg) k (List.mem_cons_of_mem _ hk)

/-- One stage done ahead of a full run changes nothing about where it ends. -/
theorem runStages_absorb_one {fs : List (σ → σ)} (h : Restartable fs) {f : σ → σ}
    (hf : f ∈ fs) (s : σ) : runStages fs (f s) = runStages fs s := by
  induction fs generalizing s with
  | nil => exact absurd hf (by simp)
  | cons g gs ih =>
      show runStages gs (g (f s)) = runStages gs (g s)
      rcases List.mem_cons.mp hf with rfl | hf'
      · rw [h.idem f hf]
      · rw [h.comm g (by simp) f hf]
        exact ih h.tail hf' (g s)

/-- **Any stages done ahead of a full run change nothing about where it ends.** -/
theorem runStages_absorb {fs : List (σ → σ)} (h : Restartable fs) :
    ∀ (done : List (σ → σ)), (∀ f ∈ done, f ∈ fs) → ∀ s,
      runStages fs (runStages done s) = runStages fs s := by
  intro done
  induction done with
  | nil => intro _ s; rfl
  | cons f done ih =>
      intro hsub s
      show runStages fs (runStages done (f s)) = runStages fs s
      rw [ih (fun g hg => hsub g (List.mem_cons_of_mem _ hg))]
      exact runStages_absorb_one h (hsub f (by simp)) s

end Stages

end BetterEfisis.Lib

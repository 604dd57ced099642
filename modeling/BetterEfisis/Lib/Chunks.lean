import Mathlib.Data.List.Basic
import Mathlib.Data.List.Defs

/-!
# A list in groups

`List.toChunks n` builds its groups in two accumulators, the group at hand and those
before it. Whatever is in them, the groups are those before, the one at hand and what
is still to come.
-/

namespace BetterEfisis.Lib

variable {α : Type} {n : Nat}

/-- The loop: no group is empty or longer than `n`, and nothing is lost. -/
theorem toChunks_go (xs : List α) (group : Array α) (groups : Array (List α)) (hn : 0 < n)
    (hpos : 0 < group.size) (hle : group.size ≤ n)
    (hgroups : ∀ c ∈ groups.toList, 0 < c.length ∧ c.length ≤ n) :
    (∀ c ∈ List.toChunks.go n xs group groups, 0 < c.length ∧ c.length ≤ n)
      ∧ (List.toChunks.go n xs group groups).flatten
        = groups.toList.flatten ++ (group.toList ++ xs) := by
  induction xs generalizing group groups with
  | nil =>
      rw [List.toChunks.go, Array.toList_push]
      refine ⟨?_, by simp⟩
      intro c hc
      rcases List.mem_append.mp hc with hc | hc
      · exact hgroups c hc
      · rw [List.mem_singleton.mp hc]
        exact ⟨hpos, hle⟩
  | cons x xs ih =>
      rw [List.toChunks.go]
      split
      · -- the group at hand is full, and `x` begins the next
        have hgroups' : ∀ c ∈ (groups.push group.toList).toList, 0 < c.length ∧ c.length ≤ n := by
          intro c hc
          rw [Array.toList_push] at hc
          rcases List.mem_append.mp hc with hc | hc
          · exact hgroups c hc
          · rw [List.mem_singleton.mp hc]
            exact ⟨hpos, hle⟩
        obtain ⟨hlen, hflat⟩ := ih ((Array.mkEmpty n).push x) _ (by simp)
          (by rw [Array.size_push]; exact hn) hgroups'
        refine ⟨hlen, ?_⟩
        rw [hflat]
        simp
      · rename_i hfull
        have hlt : group.size < n := by
          have hne : group.size ≠ n := fun h => hfull (beq_iff_eq.mpr h)
          omega
        obtain ⟨hlen, hflat⟩ := ih (group.push x) groups (by simp)
          (by rw [Array.size_push]; exact hlt) hgroups
        refine ⟨hlen, ?_⟩
        rw [hflat]
        simp

theorem toChunks_spec (hn : 0 < n) (xs : List α) :
    (∀ c ∈ xs.toChunks n, 0 < c.length ∧ c.length ≤ n) ∧ (xs.toChunks n).flatten = xs := by
  obtain ⟨k, rfl⟩ : ∃ k, n = k + 1 := ⟨n - 1, by omega⟩
  cases xs with
  | nil => exact ⟨fun _ hc => absurd hc List.not_mem_nil, rfl⟩
  | cons x xs =>
      have hstart : (x :: xs).toChunks (k + 1) = List.toChunks.go (k + 1) xs #[x] #[] := rfl
      rw [hstart]
      exact toChunks_go xs #[x] #[] (by omega) (by simp) (by simp)
        (fun _ hc => absurd hc List.not_mem_nil)

/-- A group is not empty, and has at most `n` entries. -/
theorem length_of_mem_toChunks (hn : 0 < n) {xs c : List α} (h : c ∈ xs.toChunks n) :
    0 < c.length ∧ c.length ≤ n := (toChunks_spec hn xs).1 c h

/-- The groups in order are the list. -/
theorem flatten_toChunks (hn : 0 < n) (xs : List α) : (xs.toChunks n).flatten = xs :=
  (toChunks_spec hn xs).2

end BetterEfisis.Lib

import Mathlib.Data.List.Nodup
import Mathlib.Data.List.Perm.Subperm

/-!
# Arrival — the order in which parties come

A list without repetitions to which a party is added at the end when it
comes. The place of a party never changes once it has one; when everyone has
come, the list is a permutation of the parties, and the places are those of a
list of that length, each taken once.
-/

namespace Challenges.Lib

variable {α : Type}

/-- The order after a step in which only `i` may have come. -/
def Arrives (i : α) (xs ys : List α) : Prop := ys = xs ∨ i ∉ xs ∧ ys = xs ++ [i]

namespace Arrives

variable {i j : α} {xs ys : List α}

theorem none : Arrives i xs xs := .inl rfl

theorem last (h : i ∉ xs) : Arrives i xs (xs ++ [i]) := .inr ⟨h, rfl⟩

theorem mem_iff (h : Arrives i xs ys) (hj : j ≠ i) : j ∈ ys ↔ j ∈ xs := by
  rcases h with rfl | ⟨_, rfl⟩
  · rfl
  · simp [hj]

theorem mem_or (h : Arrives i xs ys) (hj : j ∈ ys) : j ∈ xs ∨ j = i := by
  by_cases hji : j = i
  · exact .inr hji
  · exact .inl ((h.mem_iff hji).mp hj)

theorem nodup (h : Arrives i xs ys) (hxs : xs.Nodup) : ys.Nodup := by
  rcases h with rfl | ⟨hi, rfl⟩
  · exact hxs
  · rw [← List.concat_eq_append]
    exact hxs.concat hi

theorem idxOf_eq [DecidableEq α] (h : Arrives i xs ys) (hj : j ∈ xs) :
    ys.idxOf j = xs.idxOf j := by
  rcases h with rfl | ⟨_, rfl⟩
  · rfl
  · exact List.idxOf_append_of_mem hj

end Arrives

/-- The place that a newcomer takes. -/
theorem idxOf_newcomer [DecidableEq α] {i : α} {xs : List α} (h : i ∉ xs) :
    (xs ++ [i]).idxOf i = xs.length := by
  rw [List.idxOf_append_of_notMem h]
  simp

/-- Everyone below `n` has come, once. -/
theorem perm_range {xs : List Nat} {n : Nat} (hnodup : xs.Nodup)
    (hmem : ∀ i, i ∈ xs ↔ i < n) : xs.Perm (List.range n) := by
  rw [List.perm_ext_iff_of_nodup hnodup List.nodup_range]
  intro i
  rw [hmem, List.mem_range]

/-- The places of everyone, in any order, are the numbers up to the length. -/
theorem places_perm [DecidableEq α] {xs ys : List α} (hnodup : xs.Nodup) (h : ys.Perm xs) :
    (ys.map (xs.idxOf ·)).Perm (List.range xs.length) := by
  have hplaces : xs.map (xs.idxOf ·) = List.range xs.length := by
    apply List.ext_getElem
    · simp
    · intro k hk _
      rw [List.getElem_map, List.getElem_range]
      exact hnodup.idxOf_getElem k (by simpa using hk)
  rw [← hplaces]
  exact h.map _

end Challenges.Lib

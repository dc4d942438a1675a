import Mathlib.Data.List.Infix
import Mathlib.Data.List.Sort
import Mathlib.Algebra.Order.Ring.Nat

/-!
# Find — where one list stands inside another

`OccursAt t s k` says that `t` stands in `s` at position `k`, the empty list
at every position up to the end. What remains of an occurrence when only a
window of `s` is looked at comes first; then `find t s k`, the least
position from `k` on, as `std::string::find` and its relatives compute it,
and `positions t s k`, all of them in order.
-/

namespace Challenges.Lib

variable {α : Type}

/-- `t` stands in `s` at position `k`. -/
def OccursAt (t s : List α) (k : Nat) : Prop := k ≤ s.length ∧ t <+: s.drop k

instance [DecidableEq α] (t s : List α) (k : Nat) : Decidable (OccursAt t s k) :=
  inferInstanceAs (Decidable (_ ∧ _))

theorem occursAt_iff {t s : List α} {k : Nat} : OccursAt t s k ↔
    k ≤ s.length ∧ ∀ i (h : i < t.length), s[k + i]? = some t[i] := by
  simp only [OccursAt, List.prefix_iff_getElem?, List.getElem?_drop]

theorem OccursAt.fits {t s : List α} {k : Nat} (h : OccursAt t s k) :
    k + t.length ≤ s.length := by
  obtain ⟨hk, hpre⟩ := h
  have := hpre.length_le
  rw [List.length_drop] at this
  omega

/-- A list ends with `t` exactly when an occurrence ends where it does. -/
theorem suffix_iff_occursAt {t s : List α} :
    t <:+ s ↔ ∃ p, OccursAt t s p ∧ p + t.length = s.length := by
  constructor
  · intro h
    obtain ⟨front, rfl⟩ := h
    refine ⟨front.length, ⟨?_, ?_⟩, List.length_append.symm⟩
    · rw [List.length_append]
      omega
    · rw [List.drop_left]
  · intro h
    obtain ⟨p, ⟨hle, hpre⟩, hend⟩ := h
    have heq : t = s.drop p := by
      apply hpre.eq_of_length
      rw [List.length_drop]
      omega
    rw [heq]
    exact List.drop_suffix p s

/-! ## Windows -/

section Windows

variable {t s : List α} {k m p : Nat} {z : α}

/-- In a window of `s` only the occurrences that end in it are left. -/
theorem occursAt_window (hfit : k + m ≤ s.length) :
    OccursAt t ((s.drop k).take m) p ↔ OccursAt t s (k + p) ∧ p + t.length ≤ m := by
  have hlen : ((s.drop k).take m).length = m := by
    rw [List.length_take, List.length_drop]
    omega
  constructor
  · intro h
    have hin := h.fits
    rw [hlen] at hin
    rw [occursAt_iff, hlen] at h
    refine ⟨occursAt_iff.mpr ⟨by omega, fun i hi => ?_⟩, hin⟩
    have := h.2 i hi
    rw [List.getElem?_take_of_lt (by omega), List.getElem?_drop] at this
    rw [Nat.add_assoc, this]
  · rintro ⟨h, hin⟩
    rw [occursAt_iff] at h
    refine occursAt_iff.mpr ⟨by omega, fun i hi => ?_⟩
    rw [List.getElem?_take_of_lt (by omega), List.getElem?_drop, ← Nat.add_assoc]
    exact h.2 i hi

/-- An element that is not in `t` makes no occurrence, and ends those before. -/
theorem occursAt_snoc (hz : z ∉ t) (ht : t ≠ []) :
    OccursAt t (s ++ [z]) p ↔ OccursAt t s p := by
  constructor
  · intro h
    have hin := h.fits
    rw [List.length_append, List.length_singleton] at hin
    have hpos := List.length_pos_iff.mpr ht
    rw [occursAt_iff] at h
    -- the last element of `t` would be `z` if it stood at the end
    have hend : p + t.length ≠ s.length + 1 := by
      intro heq
      have hlast := h.2 (t.length - 1) (by omega)
      rw [show p + (t.length - 1) = s.length by omega, List.getElem?_concat_length] at hlast
      rw [Option.some.inj hlast] at hz
      exact hz (List.getElem_mem _)
    refine occursAt_iff.mpr ⟨by omega, fun i hi => ?_⟩
    have := h.2 i hi
    rwa [List.getElem?_append_left (by omega)] at this
  · intro h
    have hin := h.fits
    rw [occursAt_iff] at h ⊢
    refine ⟨by rw [List.length_append]; omega, fun i hi => ?_⟩
    rw [List.getElem?_append_left (by omega)]
    exact h.2 i hi

end Windows

/-! ## Positions -/

section Positions

variable [DecidableEq α] {t s : List α} {k p : Nat}

/-- The least position of `t` in `s` from `k` on. -/
def find (t s : List α) (k : Nat) : Option Nat :=
  (List.range' k (s.length + 1 - k)).find? fun p => OccursAt t s p

/-- All positions of `t` in `s` from `k` on. -/
def positions (t s : List α) (k : Nat) : List Nat :=
  (List.range' k (s.length + 1 - k)).filter fun p => OccursAt t s p

theorem find_eq_some : find t s k = some p ↔
    k ≤ p ∧ OccursAt t s p ∧ ∀ q, k ≤ q → q < p → ¬ OccursAt t s q := by
  simp only [find, List.find?_range'_eq_some, decide_eq_true_eq, List.mem_range'_1,
    Bool.not_eq_true', decide_eq_false_iff_not]
  constructor
  · rintro ⟨hp, ⟨hk, _⟩, hmin⟩
    exact ⟨hk, hp, hmin⟩
  · rintro ⟨hk, hp, hmin⟩
    have := hp.1
    exact ⟨hp, ⟨hk, by omega⟩, hmin⟩

theorem find_eq_none : find t s k = none ↔ ∀ q, k ≤ q → ¬ OccursAt t s q := by
  simp only [find, List.find?_eq_none, List.mem_range'_1, decide_eq_true_eq]
  constructor
  · intro h q hq hocc
    have := hocc.1
    exact h q (by omega) hocc
  · intro h q hq
    exact h q hq.1

theorem mem_positions : p ∈ positions t s k ↔ k ≤ p ∧ OccursAt t s p := by
  simp only [positions, List.mem_filter, List.mem_range'_1, decide_eq_true_eq]
  constructor
  · rintro ⟨⟨hk, _⟩, hp⟩
    exact ⟨hk, hp⟩
  · rintro ⟨hk, hp⟩
    have := hp.1
    exact ⟨⟨hk, by omega⟩, hp⟩

/-- The positions are in increasing order, so none is listed twice. -/
theorem positions_sorted (t s : List α) (k : Nat) : (positions t s k).Pairwise (· < ·) :=
  List.Pairwise.filter _ (List.pairwise_lt_range' ..)

/-- Lists in which `t` stands at the same places have the same positions. -/
theorem positions_eq_iff {s' : List α} :
    positions t s 0 = positions t s' 0 ↔ ∀ p, OccursAt t s p ↔ OccursAt t s' p := by
  have hmem (s : List α) (p : Nat) : p ∈ positions t s 0 ↔ OccursAt t s p :=
    mem_positions.trans (and_iff_right p.zero_le)
  constructor
  · intro h p
    rw [← hmem, h, hmem]
  · intro h
    apply (positions_sorted t s 0).eq_of_mem_iff (positions_sorted t s' 0)
    intro p
    rw [hmem, hmem]
    exact h p

theorem positions_of_find_none (h : find t s k = none) : positions t s k = [] := by
  rw [List.eq_nil_iff_forall_not_mem]
  intro p hp
  rw [mem_positions] at hp
  exact find_eq_none.mp h p hp.1 hp.2

/-- The first position is what `find` finds, the others follow it. -/
theorem positions_of_find_some (h : find t s k = some p) :
    positions t s k = p :: positions t s (p + 1) := by
  obtain ⟨hk, hp, hmin⟩ := find_eq_some.mp h
  have hle := hp.1
  have hskip : (List.range' k (p - k)).filter (fun q => OccursAt t s q) = [] := by
    rw [List.filter_eq_nil_iff]
    intro q hq
    rw [List.mem_range'_1] at hq
    simpa using hmin q hq.1 (by omega)
  have hsplit : List.range' k (s.length + 1 - k)
      = List.range' k (p - k) ++ p :: List.range' (p + 1) (s.length + 1 - (p + 1)) := by
    have hn : s.length + 1 - k = (p - k) + (s.length + 1 - p) := by omega
    have hstart : k + 1 * (p - k) = p := by omega
    have hrest : s.length + 1 - p = s.length + 1 - (p + 1) + 1 := by omega
    rw [hn, ← List.range'_append, hstart, hrest, List.range'_succ]
  rw [positions, hsplit, List.filter_append, hskip, List.nil_append,
    List.filter_cons_of_pos (by simpa using hp)]
  rfl

end Positions

end Challenges.Lib

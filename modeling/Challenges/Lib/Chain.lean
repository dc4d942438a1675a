import Mathlib.Data.List.Perm.Subperm
import Mathlib.Data.List.Nodup

/-!
# Chain — null-terminated lists threaded through memory

`Chain next null h l`: starting at the pointer `h` and following `next`,
one visits exactly the nodes `l` and then meets `null`. The pointer type
and the way a link is read are parameters, so the predicate serves any
free list whose links live inside the nodes.
-/

namespace Challenges.Lib

variable {α : Type}

/-- The list that starts at a pointer. -/
inductive Chain (next : α → α) (null : α) : α → List α → Prop
  | nil : Chain next null null []
  | cons {a : α} {l : List α} :
      a ≠ null → Chain next null (next a) l → Chain next null a (a :: l)

namespace Chain

variable {next next' : α → α} {null a h : α} {l l' : List α}

theorem head_cons (hc : Chain next null h (a :: l)) : h = a := by
  cases hc; rfl

theorem tail (hc : Chain next null h (a :: l)) : Chain next null (next a) l := by
  cases hc with
  | cons _ ht => exact ht

theorem eq_null_iff (hc : Chain next null h l) : h = null ↔ l = [] := by
  cases hc with
  | nil => simp
  | cons hne _ => simp [hne]

/-- A pointer that is not `null` heads a non-empty list. -/
theorem exists_cons (hc : Chain next null h l) (hne : h ≠ null) :
    ∃ t, l = h :: t ∧ Chain next null (next h) t := by
  cases hc with
  | nil => exact absurd rfl hne
  | @cons _ t _ ht => exact ⟨t, rfl, ht⟩

theorem null_notMem (hc : Chain next null h l) : null ∉ l := by
  induction hc with
  | nil => simp
  | cons hne _ ih => simp [ih, Ne.symm hne]

/-- A pointer determines its list. -/
theorem unique (hc : Chain next null h l) (hc' : Chain next null h l') :
    l = l' := by
  induction hc generalizing l' with
  | nil =>
      cases hc' with
      | nil => rfl
      | cons hne _ => exact absurd rfl hne
  | cons hne _ ih =>
      cases hc' with
      | nil => exact absurd rfl hne
      | cons _ ht => rw [ih ht]

/-- Every node starts its own suffix of the list. -/
theorem suffix {pre post : List α} (hc : Chain next null h (pre ++ a :: post)) :
    Chain next null a (a :: post) := by
  induction pre generalizing h with
  | nil => cases hc.head_cons; exact hc
  | cons b pre ih => exact ih hc.tail

/-- A link leads to `null` or to another node of the list. -/
theorem next_mem (hc : Chain next null h l) {b : α} (hb : b ∈ l) :
    next b = null ∨ next b ∈ l := by
  obtain ⟨pre, post, rfl⟩ := List.append_of_mem hb
  have htail := (suffix hc).tail
  by_cases hnull : next b = null
  · exact .inl hnull
  · obtain ⟨t, rfl, _⟩ := htail.exists_cons hnull
    exact .inr (by simp)

/-- **No cycles**: a list that ends at `null` visits no node twice. -/
theorem nodup (hc : Chain next null h l) : l.Nodup := by
  induction hc with
  | nil => exact List.nodup_nil
  | @cons a l hne ht ih =>
      refine List.nodup_cons.mpr ⟨fun hmem => ?_, ih⟩
      obtain ⟨pre, post, rfl⟩ := List.append_of_mem hmem
      -- the suffix at the second visit of `a` would be the whole list again
      have heq := (Chain.suffix ht).unique (Chain.cons hne ht)
      have hlen := congrArg List.length heq
      simp at hlen
      omega

/-- A list is shorter than the address space it lives in. -/
theorem length_lt (hc : Chain next null h l) {f : α → Nat} (hf : Function.Injective f)
    {n : Nat} (hlt : ∀ a, f a < n) : l.length < n := by
  have hnodup : ((null :: l).map f).Nodup :=
    (List.nodup_cons.mpr ⟨hc.null_notMem, hc.nodup⟩).map hf
  have hsub : (null :: l).map f ⊆ List.range n := by
    intro k hk
    obtain ⟨a, _, rfl⟩ := List.mem_map.mp hk
    exact List.mem_range.mpr (hlt a)
  have hlen := (List.subperm_of_subset hnodup hsub).length_le
  simp only [List.length_map, List.length_cons, List.length_range] at hlen
  omega

/-- **Frame**: only the links of the visited nodes are read. -/
theorem congr (hc : Chain next null h l) (heq : ∀ a ∈ l, next' a = next a) :
    Chain next' null h l := by
  induction hc with
  | nil => exact .nil
  | @cons a l hne _ ih =>
      refine .cons hne ?_
      rw [heq a (by simp)]
      exact ih (fun b hb => heq b (by simp [hb]))

end Chain

/-- The nodes that the links go through from a pointer on, up to one that
leads to `null`. The first node may itself be `null`, as no one has tested it. -/
inductive Threaded (next : α → α) (null : α) : α → List α → Prop
  | nil : Threaded next null null []
  | cons {a : α} {l : List α} :
      Threaded next null (next a) l → Threaded next null a (a :: l)

theorem Threaded.head_cons {next : α → α} {null h a : α} {l : List α}
    (ht : Threaded next null h (a :: l)) : h = a := by
  cases ht; rfl

theorem Threaded.tail {next : α → α} {null h a : α} {l : List α}
    (ht : Threaded next null h (a :: l)) : Threaded next null (next a) l := by
  cases ht with
  | cons ht => exact ht

/-- Links through nodes that are not `null` are a list. -/
theorem Threaded.chain {next : α → α} {null h : α} {l : List α}
    (ht : Threaded next null h l) (hnull : null ∉ l) : Chain next null h l := by
  induction ht with
  | nil => exact .nil
  | cons _ ih =>
      simp only [List.mem_cons, not_or] at hnull
      exact .cons (Ne.symm hnull.1) (ih hnull.2)

/-- The nodes met from a pointer on, `n` at most. -/
def walk [DecidableEq α] (next : α → α) (null : α) : Nat → α → List α
  | 0, _ => []
  | n + 1, p => if p = null then [] else p :: walk next null n (next p)

/-- On a list that ends, walking finds its nodes. -/
theorem Chain.walk_eq [DecidableEq α] {next : α → α} {null h : α} {l : List α}
    (hc : Chain next null h l) {n : Nat} (hn : l.length < n) : walk next null n h = l := by
  induction hc generalizing n with
  | nil =>
      cases n with
      | zero => rfl
      | succ n => exact if_pos rfl
  | @cons a l hne _ ih =>
      cases n with
      | zero => simp at hn
      | succ n => rw [walk, if_neg hne, ih (Nat.lt_of_succ_lt_succ hn)]

/-- Walking `n` nodes finds the first `n`. -/
theorem Chain.walk_take [DecidableEq α] {next : α → α} {null h : α} {l : List α}
    (hc : Chain next null h l) (n : Nat) : walk next null n h = l.take n := by
  induction hc generalizing n with
  | nil =>
      cases n with
      | zero => rfl
      | succ n => exact if_pos rfl
  | @cons a l hne _ ih =>
      cases n with
      | zero => rfl
      | succ n => rw [walk, if_neg hne, ih, List.take_succ_cons]

end Challenges.Lib

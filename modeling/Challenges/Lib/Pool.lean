import Mathlib.Data.List.Pairwise
import Mathlib.Data.List.Nodup
import Mathlib.Data.List.Perm.Subperm
import Mathlib.Algebra.BigOperators.Group.List.Basic

/-!
# Pool — blocks that are live, free, or still in reserve

A slab allocator moves blocks between three lists: those its clients hold,
those that were given back, and those it has memory for but has not carved.
`Pool` carries in its type that no two of its blocks overlap; each move of an
allocator is a function from pools to pools. What a block is, and when two
are apart, are parameters; `Slots` are blocks of one size, as intervals.
-/

namespace Challenges.Lib

variable {β : Type}

/-- Blocks in three states, no two of which overlap. -/
structure Pool (Apart : β → β → Prop) where
  live : List β
  free : List β
  reserve : List β
  apart : (live ++ (free ++ reserve)).Pairwise Apart

namespace Pool

variable {Apart : β → β → Prop}

/-- Every block of the pool. -/
def all (P : Pool Apart) : List β := P.live ++ (P.free ++ P.reserve)

def empty : Pool Apart := ⟨[], [], [], .nil⟩

theorem mem_all {P : Pool Apart} {b : β} :
    b ∈ P.all ↔ b ∈ P.live ∨ b ∈ P.free ∨ b ∈ P.reserve := by
  simp [all]

/-! ## Moves -/

section Moves

variable (P : Pool Apart) {b : β} {bs rest : List β}

theorem reuse_perm (h : P.free = b :: rest) :
    P.all.Perm ((b :: P.live) ++ (rest ++ P.reserve)) := by
  rw [all, h]
  exact List.perm_middle

theorem carve_perm (h : P.reserve = b :: rest) :
    P.all.Perm ((b :: P.live) ++ (P.free ++ rest)) := by
  rw [all, h]
  exact (List.perm_middle.append_left P.live).trans List.perm_middle

theorem release_perm (h : P.live.Perm (b :: rest)) :
    P.all.Perm (rest ++ ((b :: P.free) ++ P.reserve)) :=
  (h.append_right _).trans List.perm_middle.symm

theorem grow_perm : (bs ++ P.all).Perm (P.live ++ (P.free ++ (bs ++ P.reserve))) := by
  have hswap : (bs ++ (P.live ++ P.free) ++ P.reserve).Perm
      (P.live ++ P.free ++ bs ++ P.reserve) := List.perm_append_comm.append_right P.reserve
  simpa [all, List.append_assoc] using hswap

variable [Std.Symm Apart]

theorem pairwise_of_perm {l : List β} (h : P.all.Perm l) : l.Pairwise Apart :=
  h.pairwise P.apart fun {x y} => Std.Symm.symm x y

/-- The first free block becomes live. -/
def reuse (h : P.free = b :: rest) : Pool Apart where
  live := b :: P.live
  free := rest
  reserve := P.reserve
  apart := P.pairwise_of_perm (P.reuse_perm h)

/-- The first block in reserve becomes live. -/
def carve (h : P.reserve = b :: rest) : Pool Apart where
  live := b :: P.live
  free := P.free
  reserve := rest
  apart := P.pairwise_of_perm (P.carve_perm h)

/-- A live block is given back, and becomes the first free one. -/
def release (h : P.live.Perm (b :: rest)) : Pool Apart where
  live := rest
  free := b :: P.free
  reserve := P.reserve
  apart := P.pairwise_of_perm (P.release_perm h)

/-- New blocks come in reserve. -/
def grow (hbs : bs.Pairwise Apart) (hnew : ∀ b ∈ bs, ∀ c ∈ P.all, Apart b c) : Pool Apart where
  live := P.live
  free := P.free
  reserve := bs ++ P.reserve
  apart := by
    have hall : (bs ++ P.all).Pairwise Apart := List.pairwise_append.mpr ⟨hbs, P.apart, hnew⟩
    exact P.grow_perm.pairwise hall fun {x y} => Std.Symm.symm x y

end Moves

/-! ## What the type says -/

section Facts

variable (P : Pool Apart)

theorem live_pairwise : P.live.Pairwise Apart := (List.pairwise_append.mp P.apart).1

/-- A live block is apart from those that are not. -/
theorem live_apart {b c : β} (hb : b ∈ P.live) (hc : c ∈ P.free ∨ c ∈ P.reserve) :
    Apart b c := (List.pairwise_append.mp P.apart).2.2 b hb c (List.mem_append.mpr hc)

theorem free_pairwise : P.free.Pairwise Apart :=
  (List.pairwise_append.mp (List.pairwise_append.mp P.apart).2.1).1

theorem free_apart {b c : β} (hb : b ∈ P.free) (hc : c ∈ P.reserve) : Apart b c :=
  (List.pairwise_append.mp (List.pairwise_append.mp P.apart).2.1).2.2 b hb c hc

end Facts

end Pool

/-! ## Blocks of one size -/

/-- The intervals of `size` from `p` and from `q` share nothing. -/
def SlotsApart (size p q : Nat) : Prop := p + size ≤ q ∨ q + size ≤ p

instance (size : Nat) : Std.Symm (SlotsApart size) := ⟨fun _ _ => Or.symm⟩

/-- Slots side by side are apart. -/
theorem pairwise_range' (size n : Nat) (start : Nat) :
    (List.range' start n size).Pairwise (SlotsApart size) := by
  induction n generalizing start with
  | zero => exact .nil
  | succ n ih =>
      rw [List.range'_succ, List.pairwise_cons]
      refine ⟨fun q hq => .inl ?_, ih _⟩
      obtain ⟨i, _, rfl⟩ := List.mem_range'.mp hq
      omega

/-- They lie in the interval they were cut from. -/
theorem mem_range'_inside {size n start q : Nat} (hq : q ∈ List.range' start n size) :
    start ≤ q ∧ q + size ≤ start + n * size := by
  obtain ⟨i, hi, rfl⟩ := List.mem_range'.mp hq
  have hmul := Nat.mul_le_mul_right size (show i + 1 ≤ n from hi)
  rw [Nat.add_mul, Nat.one_mul] at hmul
  rw [Nat.mul_comm size i]
  omega

/-- Slots that are apart fill no more than the interval they lie in. -/
theorem length_mul_le {size lo hi : Nat} {l : List Nat} (h : l.Pairwise (SlotsApart size))
    (hin : ∀ p ∈ l, lo ≤ p ∧ p + size ≤ hi) : l.length * size ≤ hi - lo := by
  have hnodup : (l.flatMap fun p => List.range' p size).Nodup := by
    rw [List.nodup_flatMap]
    refine ⟨fun p _ => List.nodup_range', h.imp fun {p q} hapart x hp hq => ?_⟩
    rw [List.mem_range'_1] at hp hq
    rw [SlotsApart] at hapart
    omega
  have hsubset : (l.flatMap fun p => List.range' p size) ⊆ List.range' lo (hi - lo) := by
    intro x hx
    obtain ⟨p, hp, hx⟩ := List.mem_flatMap.mp hx
    have hp := hin p hp
    rw [List.mem_range'_1] at hx ⊢
    omega
  have hlen := (List.subperm_of_subset hnodup hsubset).length_le
  rw [List.length_flatMap, List.length_range', List.map_congr_left fun p _ => List.length_range',
    List.map_const', List.sum_replicate] at hlen
  exact hlen

/-- Intervals with room for `cap` slots each have no more than that. -/
theorem length_le_mul {ι : Type} {lo hi : ι → Nat} {size cap : Nat} {rs : List ι} {l : List Nat}
    (hsize : 0 < size) (hcap : ∀ r ∈ rs, (hi r - lo r) / size ≤ cap)
    (h : l.Pairwise (SlotsApart size)) (hin : ∀ p ∈ l, ∃ r ∈ rs, lo r ≤ p ∧ p + size ≤ hi r) :
    l.length ≤ rs.length * cap := by
  induction rs generalizing l with
  | nil =>
      have hnil : l = [] := List.eq_nil_iff_forall_not_mem.mpr fun p hp => by
        obtain ⟨r, hr, _⟩ := hin p hp
        cases hr
      rw [hnil]
      exact Nat.zero_le _
  | cons r rest ih =>
      -- those in the first interval, and the others
      have hfirst := length_mul_le (h.filter fun p => lo r ≤ p ∧ p + size ≤ hi r) fun p hp =>
        of_decide_eq_true (List.mem_filter.mp hp).2
      have hothers := ih (fun s hs => hcap s (List.mem_cons_of_mem _ hs))
        (h.filter fun p => ¬ (lo r ≤ p ∧ p + size ≤ hi r)) fun p hp => by
          obtain ⟨hp, hout⟩ := List.mem_filter.mp hp
          obtain ⟨s, hs, hslot⟩ := hin p hp
          rcases List.mem_cons.mp hs with rfl | hs
          · exact absurd hslot (of_decide_eq_true hout)
          · exact ⟨s, hs, hslot⟩
      have hroom := hcap r List.mem_cons_self
      have hle := (Nat.le_div_iff_mul_le hsize).mpr hfirst
      have hsplit := List.length_eq_length_filter_add (l := l)
        (fun p => decide (lo r ≤ p ∧ p + size ≤ hi r))
      rw [List.length_cons, Nat.add_mul, Nat.one_mul]
      simp only [decide_not] at hothers
      omega

/-- Every byte of the interval is in one of them. -/
theorem exists_slot {size n start a : Nat} (hsize : 0 < size) (hle : start ≤ a)
    (hlt : a < start + n * size) : ∃ q ∈ List.range' start n size, q ≤ a ∧ a < q + size := by
  have hindex : (a - start) / size < n := by
    rw [Nat.div_lt_iff_lt_mul hsize]
    omega
  have hdiv := Nat.div_add_mod (a - start) size
  have hmod := Nat.mod_lt (a - start) hsize
  exact ⟨start + size * ((a - start) / size), List.mem_range'.mpr ⟨_, hindex, rfl⟩,
    by omega, by omega⟩

end Challenges.Lib

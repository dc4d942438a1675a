import Mathlib.Data.List.Pairwise
import Challenges.Lib.Tiles
import Challenges.Kmalloc.SizeClass

/-!
# Blocks — what the log of `sbrk` calls says exists

A successful `morecore(bucket)` turns the region it was handed into blocks:
a page's worth of them below the page size, one from the page size up. The
blocks of a log are a function of the log alone, so that "every block ever
carved" has a meaning independent of the free lists.

`Fresh` and `BreakOk` are the two assumptions on `sbrk`: that the regions
it hands to `morecore` are memory nobody else has, or, more strongly, that
the break is moved by this allocator only.
-/

namespace Challenges.Kmalloc

open Challenges.Lib

/-- A block: its header's address, its bucket, its bytes with the header. -/
structure Block where
  addr : UInt32
  bucket : Fin nbuckets
  size : Nat
  deriving DecidableEq, Repr

/-- What `kmalloc` returns for the block. -/
def Block.ptr (x : Block) : UInt32 := x.addr + overheadSize

/-- The two blocks share no byte. -/
def Block.Apart (x y : Block) : Prop :=
  x.addr.toNat + x.size ≤ y.addr.toNat ∨ y.addr.toNat + y.size ≤ x.addr.toNat

instance : Std.Symm Block.Apart := ⟨fun _ _ => Or.symm⟩

/-- How many blocks one `morecore(b)` makes. -/
def nblks (b : Nat) : Nat := max 1 (4096 / 2 ^ (b + 3))

/-- The call handed memory to `morecore`. -/
def SbrkCall.Grants (c : SbrkCall) : Prop :=
  (∃ b, c.caller = .morecore b) ∧ c.ret ≠ sbrkFailed

/-- The blocks that a call of `sbrk` made: each has its share of the bytes
handed out. -/
def SbrkCall.blocks (c : SbrkCall) : List Block :=
  match c.caller with
  | .morecore b =>
      if h : b.toUInt32.toNat < nbuckets ∧ c.ret ≠ sbrkFailed then
        let n := nblks b.toUInt32.toNat
        let size := c.amt.toNatClampNeg / n
        (tiles c.ret (UInt32.ofNat size) n).map fun a => ⟨a, ⟨_, h.1⟩, size⟩
      else []
  | _ => []

/-- Every block carved in the course of a log. -/
def carved (log : List SbrkCall) : List Block := log.flatMap SbrkCall.blocks

@[simp] theorem carved_nil : carved [] = [] := rfl

@[simp] theorem carved_snoc (log : List SbrkCall) (c : SbrkCall) :
    carved (log ++ [c]) = carved log ++ c.blocks := by
  simp [carved]

/-! ## The assumptions on `sbrk` -/

/-- The regions of two calls share no byte. -/
def SbrkCall.Apart (c d : SbrkCall) : Prop :=
  c.ret.toNat + c.amt.toNatClampNeg ≤ d.ret.toNat ∨
    d.ret.toNat + d.amt.toNatClampNeg ≤ c.ret.toNat

/-- `sbrk` hands `morecore` fresh memory: inside the address space, not at
the null pointer, and never the same byte twice. -/
structure Fresh (log : List SbrkCall) : Prop where
  inside : ∀ c ∈ log, c.Grants →
    0 < c.ret.toNat ∧ c.ret.toNat + c.amt.toNatClampNeg ≤ 2 ^ 32
  apart : log.Pairwise fun c d => c.Grants → d.Grants → c.Apart d

/-- The break after a call that was made at the break `brk`: a call that
succeeds answers with the old break and moves it, one that fails leaves it.
No other answer is one of a break that nobody else moves. -/
def moveBreak (brk : Nat) (c : SbrkCall) : Option Nat :=
  if c.ret.toNat = brk ∧ brk + c.amt.toNatClampNeg < 2 ^ 32 then
    some (brk + c.amt.toNatClampNeg)
  else if c.ret = sbrkFailed ∧ 0 < c.amt then some brk
  else none

/-- The break after a log, from the break `brk₀` on. -/
def breakAfter (brk₀ : Nat) (log : List SbrkCall) : Option Nat := log.foldlM moveBreak brk₀

/-- No call that was to align the break failed. -/
def InitOk (log : List SbrkCall) : Prop :=
  ∀ c ∈ log, c.caller = .align → c.ret ≠ sbrkFailed

/-- The break is moved by this allocator only, from `brk₀` on, and `sbrk` did
not refuse the first alignment. -/
def BreakOk (brk₀ : Nat) (log : List SbrkCall) : Prop :=
  (breakAfter brk₀ log).isSome ∧ InitOk log

instance (c : SbrkCall) : Decidable c.Grants :=
  decidable_of_iff ((match c.caller with | .morecore _ => true | _ => false) = true ∧
    c.ret ≠ sbrkFailed) <| by
      cases h : c.caller <;> simp [SbrkCall.Grants, h]

instance (c d : SbrkCall) : Decidable (c.Apart d) :=
  inferInstanceAs (Decidable (_ ∨ _))

instance (log : List SbrkCall) : Decidable (Fresh log) :=
  decidable_of_iff (_ ∧ _) ⟨fun h => ⟨h.1, h.2⟩, fun h => ⟨h.inside, h.apart⟩⟩

instance (log : List SbrkCall) : Decidable (InitOk log) :=
  inferInstanceAs (Decidable (∀ c ∈ log, c.caller = .align → c.ret ≠ sbrkFailed))

instance (brk₀ : Nat) (log : List SbrkCall) : Decidable (BreakOk brk₀ log) :=
  inferInstanceAs (Decidable (_ ∧ _))

theorem Fresh.nil : Fresh [] := ⟨by simp, by simp⟩

theorem Fresh.of_snoc {log : List SbrkCall} {c : SbrkCall}
    (h : Fresh (log ++ [c])) : Fresh log where
  inside := fun d hd => h.inside d (by simp [hd])
  apart := (List.pairwise_append.mp h.apart).1

theorem Fresh.of_not_grants {log : List SbrkCall} (h : ∀ c ∈ log, ¬ c.Grants) :
    Fresh log where
  inside := fun c hc hgrants => absurd hgrants (h c hc)
  apart := List.pairwise_of_forall_mem_list
    fun c hc _ _ hgrants => absurd hgrants (h c hc)

/-! ## The blocks of a fresh log -/

/-- The blocks of one call, from the call's numbers. -/
theorem mem_blocks {c : SbrkCall} {x : Block} :
    x ∈ c.blocks ↔ ∃ b, c.caller = .morecore b ∧ c.ret ≠ sbrkFailed ∧
      b.toUInt32.toNat = x.bucket.val ∧ x.size = c.amt.toNatClampNeg / nblks x.bucket ∧
      x.addr ∈ tiles c.ret (UInt32.ofNat x.size) (nblks x.bucket) := by
  obtain ⟨addr, bucket, size⟩ := x
  cases hc : c.caller with
  | query => simp [SbrkCall.blocks, hc]
  | align => simp [SbrkCall.blocks, hc]
  | morecore b =>
      simp only [SbrkCall.blocks, hc]
      split
      · rename_i h
        simp only [List.mem_map, Block.mk.injEq, Caller.morecore.injEq]
        constructor
        · rintro ⟨a, ha, rfl, rfl, rfl⟩
          exact ⟨b, rfl, h.2, rfl, rfl, ha⟩
        · rintro ⟨_, rfl, _, hb, rfl, ha⟩
          refine ⟨addr, ?_, rfl, Fin.ext hb, ?_⟩
          · simpa only [hb] using ha
          · simp only [hb]
      · rename_i h
        simp only [List.not_mem_nil, Caller.morecore.injEq, false_iff]
        rintro ⟨_, rfl, hret, hb, _⟩
        exact h ⟨by omega, hret⟩

theorem grants_of_mem {c : SbrkCall} {x : Block} (h : x ∈ c.blocks) : c.Grants := by
  obtain ⟨b, hb, hret, _⟩ := mem_blocks.mp h
  exact ⟨⟨b, hb⟩, hret⟩

theorem nblks_pos (b : Nat) : 0 < nblks b := Nat.le_max_left _ _

section InRegion

variable {c : SbrkCall} {x y : Block}

theorem size_lt (h : x ∈ c.blocks) : x.size < 2 ^ 32 := by
  obtain ⟨_, _, _, _, hsize, _⟩ := mem_blocks.mp h
  have := Nat.div_le_self c.amt.toNatClampNeg (nblks x.bucket)
  have := Int32.toNatClampNeg_lt c.amt
  omega

theorem size_mul_le (h : x ∈ c.blocks) :
    nblks x.bucket * x.size ≤ c.amt.toNatClampNeg := by
  obtain ⟨_, _, _, _, hsize, _⟩ := mem_blocks.mp h
  rw [hsize]
  exact Nat.mul_div_le _ _

/-- A block lies inside the region its call was handed. -/
theorem block_inside (h : x ∈ c.blocks) (hsize : 1 ≤ x.size)
    (hfit : c.ret.toNat + c.amt.toNatClampNeg ≤ 2 ^ 32) :
    c.ret.toNat ≤ x.addr.toNat ∧
      x.addr.toNat + x.size ≤ c.ret.toNat + c.amt.toNatClampNeg := by
  obtain ⟨_, _, _, _, _, htile⟩ := mem_blocks.mp h
  have hmul := size_mul_le h
  have hval : (UInt32.ofNat x.size).toNat = x.size :=
    UInt32.toNat_ofNat_of_lt' (size_lt h)
  rw [mem_tiles (by omega) (by rw [hval]; omega), hval] at htile
  obtain ⟨j, hj, hx⟩ := htile
  have := Nat.mul_le_mul_right x.size (show j + 1 ≤ nblks x.bucket by omega)
  rw [Nat.add_mul] at this
  omega

/-- Blocks of one call do not overlap. -/
theorem blocks_pairwise (hfit : c.ret.toNat + c.amt.toNatClampNeg ≤ 2 ^ 32)
    (hsize : ∀ x ∈ c.blocks, 1 ≤ x.size) : c.blocks.Pairwise Block.Apart := by
  cases hc : c.caller with
  | query => simp [SbrkCall.blocks, hc]
  | align => simp [SbrkCall.blocks, hc]
  | morecore b =>
      have hall : ∀ x ∈ c.blocks, 1 ≤ x.size ∧ x.size < 2 ^ 32 ∧
          nblks x.bucket * x.size ≤ c.amt.toNatClampNeg :=
        fun x hx => ⟨hsize x hx, size_lt hx, size_mul_le hx⟩
      simp only [SbrkCall.blocks, hc] at hall ⊢
      split
      · rename_i h
        rw [dif_pos h] at hall
        have hne := nblks_pos b.toUInt32.toNat
        obtain ⟨h1, h2, h3⟩ := hall _ (List.mem_map_of_mem
          (List.mem_iff_getElem?.mpr ⟨0, by
            rw [List.getElem?_eq_getElem (by simpa using hne)]⟩))
        dsimp only at h1 h2 h3
        have hval := UInt32.toNat_ofNat_of_lt' h2
        rw [List.pairwise_map]
        refine (tiles_pairwise (by omega) (by rw [hval]; omega)).imp ?_
        intro x y hxy
        rw [hval] at hxy
        exact .inl hxy
      · simp

end InRegion

/-- **Extents**: on a fresh log whose blocks are not empty, every carved
block lies in the address space, clear of null, and no two overlap. -/
theorem carved_pairwise {log : List SbrkCall} (hf : Fresh log)
    (hsize : ∀ x ∈ carved log, 1 ≤ x.size) :
    (carved log).Pairwise Block.Apart ∧
      ∀ x ∈ carved log, 0 < x.addr.toNat ∧ x.addr.toNat + x.size ≤ 2 ^ 32 := by
  have hin : ∀ c ∈ log, ∀ x ∈ c.blocks, c.ret.toNat ≤ x.addr.toNat ∧
      x.addr.toNat + x.size ≤ c.ret.toNat + c.amt.toNatClampNeg := by
    intro c hc x hx
    exact block_inside hx (hsize x (List.mem_flatMap.mpr ⟨c, hc, hx⟩))
      (hf.inside c hc (grants_of_mem hx)).2
  refine ⟨?_, fun x hx => ?_⟩
  · rw [carved, List.pairwise_flatMap]
    refine ⟨fun c hc => ?_, ?_⟩
    · rcases hblocks : c.blocks with _ | ⟨x, rest⟩
      · exact List.Pairwise.nil
      · rw [← hblocks]
        have hx : x ∈ c.blocks := by simp [hblocks]
        exact blocks_pairwise (hf.inside c hc (grants_of_mem hx)).2
          fun y hy => hsize y (List.mem_flatMap.mpr ⟨c, hc, hy⟩)
    · refine hf.apart.imp_of_mem fun {c d} hc hd hcd x hx y hy => ?_
      have hxc := hin c hc x hx
      have hyd := hin d hd y hy
      rcases hcd (grants_of_mem hx) (grants_of_mem hy) with h | h
      · exact .inl (by omega)
      · exact .inr (by omega)
  · obtain ⟨c, hc, hx⟩ := List.mem_flatMap.mp hx
    have := hin c hc x hx
    have := hf.inside c hc (grants_of_mem hx)
    omega

end Challenges.Kmalloc

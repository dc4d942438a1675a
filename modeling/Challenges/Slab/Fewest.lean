import Challenges.Lib.Stock
import Challenges.Slab.Refinement

/-!
# Fewest — the regions that `fixalloc` asks for

A block is cut only when every block that was cut is in use, so as many are
cut as were in use at once. The regions are then just those that these blocks
need: no allocator that gets its memory in chunks of this size, and places
blocks of this size in it, can do with fewer.
-/

namespace Challenges.Slab

open Challenges.Lib

/-- The most blocks that were in use at once. -/
def mostLive (states : List Sys) : Nat := peak (fun a => a.live.length) states

/-- The regions are those that `top` blocks need. -/
structure Fewest (a : Sys) (top : Nat) : Prop where
  exact : a.world.regions.length
    = (top + perChunk a.world.f.size.toNat - 1) / perChunk a.world.f.size.toNat
  least : ∀ (rs : List Region) (blocks : List Nat),
    (∀ r ∈ rs, r.size.toNat ≤ fixAllocChunk.toNat) →
    blocks.Pairwise (SlotsApart a.world.f.size.toNat) →
    (∀ b ∈ blocks, Inside rs a.world.f.size.toNat b) → top ≤ blocks.length →
    a.world.regions.length ≤ rs.length

/-! ## What `top` blocks need -/

/-- A chunk has room for that many blocks. -/
theorem length_le_perChunk {n : Nat} {rs : List Region} {blocks : List Nat} (hn : 0 < n)
    (hsize : ∀ r ∈ rs, r.size.toNat ≤ fixAllocChunk.toNat)
    (hapart : blocks.Pairwise (SlotsApart n)) (hin : ∀ b ∈ blocks, Inside rs n b) :
    blocks.length ≤ rs.length * perChunk n := by
  refine length_le_mul hn (fun r hr => ?_) hapart hin
  have hr := hsize r hr
  rw [Region.stop, Nat.add_sub_cancel_left]
  exact Nat.div_le_div_right hr

/-- `top` blocks were cut, and the chunk has `k` left: less than all. -/
structure Tight (n k : Nat) (a : Sys) (top : Nat) : Prop where
  cut : a.world.regions.length * perChunk n = top + k
  left : k < perChunk n

theorem Tight.congr {n k top : Nat} {a b : Sys} (h : Tight n k a top)
    (hregions : b.world.regions = a.world.regions) : Tight n k b top := by
  refine ⟨?_, h.left⟩
  rw [hregions]
  exact h.cut

theorem Tight.fewest {n k top : Nat} {a : Sys} (h : Tight n k a top) (hsized : Sized n a.world) :
    Fewest a top := by
  obtain ⟨hcut, hleft⟩ := h
  have hlink := hsized.link
  have hsize := hsized.size
  constructor
  case exact =>
    rw [hsize]
    refine (Nat.div_eq_of_lt_le ?_ ?_).symm
    · omega
    · rw [Nat.succ_mul]
      omega
  case least =>
    rw [hsize]
    intro rs blocks hrs hapart hin htop
    have hroom := length_le_perChunk (by omega) hrs hapart hin
    by_contra hmore
    have hmul := Nat.mul_le_mul_right (perChunk n) (Nat.succ_le_of_lt (Nat.lt_of_not_le hmore))
    rw [Nat.succ_mul] at hmul
    omega

/-! ## Steps and runs -/

section Steps

variable {d : UInt64} {n k top : Nat} {a b : Sys} {P : Pool (SlotsApart n)} {rt : Runtime}
  {V : Version} {out : World → UInt64} {l : Op × UInt64}

/-- Every block is live, on the list, or still to be cut. -/
theorem Books.total (h : Books d n k a P) : ∃ fl, Chain a.world.mem.load64 nil a.world.f.list fl ∧
    a.live.length + fl.length + k = a.world.regions.length * perChunk n := by
  obtain ⟨fl, hc, hfree⟩ := h.owns.free
  have hcount := h.count
  rw [Pool.all, h.owns.live, hfree, h.owns.reserve, List.length_append, List.length_append,
    List.length_map, List.length_map, List.length_range', ← Nat.add_assoc] at hcount
  exact ⟨fl, hc, hcount⟩

theorem Books.live_le (h : Books d n k a P) (ht : Tight n k a top) : a.live.length ≤ top := by
  obtain ⟨fl, _, htotal⟩ := h.total
  have hcut := ht.cut
  omega

/-- Without a free block, all that were cut are live. -/
theorem Books.live_eq (h : Books d n k a P) (hlist : a.world.f.list = nil) :
    a.live.length + k = a.world.regions.length * perChunk n := by
  obtain ⟨fl, hc, htotal⟩ := h.total
  have hnil : fl = [] := hc.eq_null_iff.mp hlist
  rw [hnil, List.length_nil, Nat.add_zero] at htotal
  exact htotal

/-- **The step lemma.** -/
theorem Books.tight_step (hV : V.Cuts out)
    (hout : ∀ w : World, w.f.size.toNat = n → out w = w.f.chunk + d) (h : Books d n k a P)
    (ht : Tight n k a top) (hclears : Clears rt) (hstep : V.Step rt Matched a l b)
    (hroom : ∀ r ∈ b.world.regions, r.stop + d.toNat ≤ 2 ^ 64) :
    ∃ k' P', Books d n k' b P' ∧ Tight n k' b (max top b.live.length) := by
  obtain ⟨hmatched, hperform, hfresh⟩ := hstep
  obtain ⟨op, r⟩ := l
  cases hV.effect (a := a) h.owns.sized.size_ne_zero hperform with
  | recycle hlist =>
      obtain ⟨P', hbooks⟩ := h.recycle hclears hlist
      have hkept : Tight n k ⟨a.world.recycled rt, a.world.f.list :: a.live⟩ top :=
        ht.congr (a.world.recycled_regions rt)
      rw [Nat.max_eq_left (hbooks.live_le hkept)]
      exact ⟨k, P', hbooks, hkept⟩
  | bump hlist =>
      obtain ⟨k', P', hfull⟩ := h.refill hlist hfresh hroom
      rw [hout _ hfull.size]
      obtain ⟨P'', hbooks⟩ := hfull.bump
      have hlist' : (a.world.refilled rt).f.list = nil := by
        rw [World.refilled]
        split
        · exact hlist
        · exact hlist
      have hbefore := h.live_eq hlist
      have hafter := hfull.live_eq hlist'
      have hcut := ht.cut
      dsimp only at hafter
      refine ⟨k', P'', hbooks, ?_, ?_⟩
      · rw [List.length_cons, Nat.max_eq_right (by omega)]
        exact hafter.symm.trans (by omega)
      · have hleft := ht.left
        by_cases hlt : a.world.f.nchunk.toUInt64 < a.world.f.size
        · obtain rfl : k = 0 := (h.owns.sized.empty_iff h.owns.left).mp hlt
          rw [(World.refilled_of_lt rt hlt).1, List.length_append, List.length_singleton,
            Nat.succ_mul] at hafter
          omega
        · rw [World.refilled_of_not_lt rt hlt] at hafter
          omega
  | free p =>
      obtain ⟨P', hbooks⟩ := h.release hmatched
      have hkept : Tight n k ⟨a.world.freed p, a.live.erase p⟩ top := ht.congr rfl
      rw [Nat.max_eq_left (hbooks.live_le hkept)]
      exact ⟨k, P', hbooks, hkept⟩
  | write p off byte =>
      rw [Nat.max_eq_left (h.live_le ht)]
      exact ⟨k, P, ⟨h.owns.write hmatched.1 hmatched.2 byte, h.count, h.inuse⟩, ht.congr rfl⟩

/-- **The run lemma.** -/
theorem tight_run {w : World} {tr : List ((Op × UInt64) × Sys)} (hV : V.Cuts out)
    (hout : ∀ w : World, w.f.size.toNat = n → out w = w.f.chunk + d) (hclears : Clears rt)
    (hbooks : Books d n 0 ⟨w, []⟩ .empty) (hw : w.regions = [])
    (hrun : Run (fun a l b => V.Step rt Matched a l b ∧
      ∀ r ∈ b.world.regions, r.stop + d.toNat ≤ 2 ^ 64) ⟨w, []⟩ tr a) :
    ∃ k P, Books d n k a P ∧ Tight n k a (mostLive (visited ⟨w, []⟩ tr)) := by
  induction hrun with
  | nil =>
      obtain ⟨c, hc⟩ := hbooks.owns.sized.exists_perChunk
      have hpos : 0 < perChunk n := by
        rw [hc]
        exact Nat.succ_pos c
      exact ⟨0, _, hbooks, by simp [hw, mostLive, peak, visited], hpos⟩
  | @snoc tr a l b _ hs ih =>
      obtain ⟨k, P, h, ht⟩ := ih
      rw [visited_snoc, mostLive, peak_snoc]
      exact h.tight_step hV hout ht hclears hs.1 hs.2

end Steps

/-! ## The theorem -/

end Challenges.Slab

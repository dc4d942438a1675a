import Challenges.Slab.Slots

/-!
# Overrun — the last block of a chunk of the C version

The C version returns the pointer behind the block that it takes. While a
chunk has more than one block left that is a block too, and the first block
of the chunk is the one that is never used. With one block left it is the
end of the chunk.
-/

namespace Challenges.Slab

open Challenges.Lib

namespace C

/-- The bytes left in the chunk that `alloc` cuts the next block from. -/
def rest (w : World) : UInt32 :=
  if w.f.nchunk.toUInt64 < w.f.size then w.f.nalloc else w.f.nchunk

/-- There is a free block, or the next one is not the last of its chunk. -/
def MoreLeft (w : World) : Prop := w.f.list ≠ nil ∨ w.f.size < (rest w).toUInt64

instance (w : World) : Decidable (MoreLeft w) :=
  inferInstanceAs (Decidable (w.f.list ≠ nil ∨ w.f.size < (rest w).toUInt64))

/-- Matched calls, the allocations with a block to spare. -/
def Spared (a : Sys) (op : Op) : Prop := Matched a op ∧ (op = .alloc → MoreLeft a.world)

instance (a : Sys) (op : Op) : Decidable (Spared a op) :=
  inferInstanceAs (Decidable (Matched a op ∧ (op = .alloc → MoreLeft a.world)))

/-- The chunk has `k` blocks left, all but the first in reserve, and is the
only region so far. -/
structure Owns (n k : Nat) (a : Sys) (P : Pool (SlotsApart n)) : Prop extends Repr n a P where
  left : a.world.f.nchunk.toNat = k * n
  reserve : P.reserve = List.range' (a.world.f.chunk.toNat + n) (k - 1) n
  only : k = 0 → a.world.regions = []
  stop : ∀ r ∈ a.world.regions, r.stop = a.world.f.chunk.toNat + k * n

theorem refilled_nchunk (rt : Runtime) (w : World) : (w.refilled rt).f.nchunk = rest w := by
  by_cases hroom : w.f.nchunk.toUInt64 < w.f.size
  · rw [(World.refilled_of_lt rt hroom).2.2, rest, if_pos hroom]
  · rw [World.refilled_of_not_lt rt hroom, rest, if_neg hroom]

namespace Owns

variable {n k : Nat} {a b : Sys} {P : Pool (SlotsApart n)} {rt : Runtime} {l : Op × UInt64}
  {r : UInt64}

theorem start {w : World} (h : Sized n w) (hw : w.regions = []) (hlist : w.f.list = nil)
    (hnchunk : w.f.nchunk = 0) : Owns n 0 ⟨w, []⟩ .empty where
  toRepr := .start h hw hlist
  left := by rw [hnchunk, UInt32.toNat_zero, Nat.zero_mul]
  reserve := rfl
  only _ := hw
  stop := by simp [hw]

theorem refill (h : Owns n k a P) (hlist : a.world.f.list = nil)
    (hfresh : Fresh (a.world.refilled rt).regions) :
    ∃ k' P', Owns n (k' + 1) ⟨a.world.refilled rt, a.live⟩ P' := by
  by_cases hroom : a.world.f.nchunk.toUInt64 < a.world.f.size
  · obtain ⟨hregions, _, hf⟩ := World.refilled_of_lt rt hroom
    have hsize := h.sized.next_size rt
    have hk : k = 0 := (h.sized.empty_iff h.left).mp hroom
    obtain ⟨k', hk'⟩ := h.sized.exists_perChunk
    obtain ⟨P', hrepr, hres, _⟩ := h.toRepr.refill hlist hregions hsize hf hfresh
      (pairwise_range' n k' ((a.world.next rt).addr.toNat + n)) (by
        intro b hb
        have hb := mem_range'_inside hb
        rw [Region.stop, hsize, hk', Nat.add_mul, Nat.one_mul]
        omega)
    refine ⟨k', P', hrepr, ?_, ?_, fun hzero => absurd hzero (Nat.succ_ne_zero k'), ?_⟩
    · simp only [hf]
      rw [h.sized.nalloc, hk']
    · rw [hres, h.reserve, hk, hf]
      exact List.append_nil _
    · intro r hr
      simp only [hregions, h.only hk, hf] at hr ⊢
      rw [List.mem_singleton.mp hr, Region.stop, hsize, hk']
  · rw [World.refilled_of_not_lt rt hroom]
    obtain ⟨k', rfl⟩ := Nat.exists_eq_add_one_of_ne_zero (mt (h.sized.empty_iff h.left).mpr hroom)
    exact ⟨k', P, h⟩

/-- A block that is not the last is one of the reserve. -/
theorem bump (h : Owns n (k + 2) a P) :
    ∃ P', Owns n (k + 1) ⟨a.world.bumped, a.world.bumped.f.chunk :: a.live⟩ P' := by
  have hres := h.reserve
  rw [show k + 2 - 1 = k + 1 from rfl, List.range'_succ] at hres
  have hmem : a.world.f.chunk.toNat + n ∈ P.all := Pool.mem_all.mpr (.inr (.inr (by simp [hres])))
  have hbound := h.bound hmem
  have hlink := h.sized.link
  have hchunk : a.world.bumped.f.chunk.toNat = a.world.f.chunk.toNat + n :=
    h.sized.bumped_chunk (by omega)
  rw [← hchunk] at hres
  obtain ⟨P', hrepr, hres', _⟩ := h.toRepr.cut hres
  have hleft := h.left
  rw [show k + 2 = k + 1 + 1 from rfl, Nat.add_mul, Nat.one_mul] at hleft
  refine ⟨P', hrepr, ?_, hres', fun hzero => absurd hzero (Nat.succ_ne_zero k), ?_⟩
  · have hnchunk := h.sized.bumped_nchunk (by omega)
    rw [hnchunk, hleft, Nat.add_sub_cancel]
  · intro r hr
    rw [h.stop r hr, hchunk, show k + 2 = k + 1 + 1 from rfl, Nat.add_mul (k + 1), Nat.one_mul]
    omega

/-- The last block lies behind the chunk. -/
theorem overrun (h : Owns n 1 a P) (r : Region) (hr : r ∈ a.world.regions) :
    ¬ (r.addr.toNat ≤ a.world.bumped.f.chunk.toNat ∧ a.world.bumped.f.chunk.toNat < r.stop) := by
  have hstop := h.stop r hr
  have hbound := h.fresh.bound hr
  have hwrap : a.world.bumped.f.chunk.toNat = (a.world.f.chunk.toNat + n) % 2 ^ 64 := by
    simp only [World.bumped]
    rw [UInt64.toNat_add, h.sized.size]
  omega

/-- The number of blocks before an allocation that needs the chunk. -/
theorem moreLeft_iff (h : Owns n (k + 1) ⟨a.world.refilled rt, a.live⟩ P)
    (hlist : a.world.f.list = nil) (hsize : a.world.f.size.toNat = n) :
    MoreLeft a.world ↔ k ≠ 0 := by
  have hleft := h.left
  have hlink := h.sized.link
  simp only [refilled_nchunk] at hleft
  rw [MoreLeft, UInt64.lt_iff_toNat_lt, UInt32.toNat_toUInt64, hleft, hsize, Nat.add_mul,
    Nat.one_mul]
  constructor
  · rintro (hne | hlt)
    · exact absurd hlist hne
    · rintro rfl
      omega
  · intro hne
    have hmul := Nat.le_mul_of_pos_left n (Nat.pos_of_ne_zero hne)
    exact .inr (by omega)

/-- A spared step keeps the blocks apart. -/
theorem step (h : Owns n k a P) (hclears : Clears rt)
    (hstep : version.Step rt Spared a l b) : ∃ k' P', Owns n k' b P' := by
  obtain ⟨⟨hmatched, hspared⟩, hperform, hfresh⟩ := hstep
  obtain ⟨op, r⟩ := l
  cases cuts.effect h.sized.size_ne_zero hperform with
  | recycle hlist =>
      obtain ⟨P', hrepr, hres, _⟩ := h.toRepr.recycle hclears hlist
      have hf := a.world.recycled_f rt
      have hregions := a.world.recycled_regions rt
      refine ⟨k, P', hrepr, ?_, ?_, ?_, ?_⟩
      · simp only [hf]
        exact h.left
      · rw [hres, h.reserve, hf]
      · rw [hregions]
        exact h.only
      · rw [hregions, hf]
        exact h.stop
  | bump hlist =>
      -- spared, so the refilled chunk still has a whole block
      have hregions : Fresh (a.world.refilled rt).regions := hfresh
      obtain ⟨k', P', hfull⟩ := h.refill hlist hregions
      have hk := (hfull.moreLeft_iff hlist h.sized.size).mp (hspared rfl)
      obtain ⟨k'', rfl⟩ := Nat.exists_eq_add_one_of_ne_zero hk
      exact ⟨k'' + 1, hfull.bump⟩
  | free p =>
      obtain ⟨P', hrepr, hres, _⟩ := h.toRepr.release hmatched
      exact ⟨k, P', hrepr, h.left, by rw [hres, h.reserve]; rfl, h.only, h.stop⟩
  | write p off byte =>
      exact ⟨k, P, h.toRepr.write hmatched.1 hmatched.2 byte, h.left, h.reserve, h.only, h.stop⟩

/-- An allocation that is not spared leaves the regions. -/
theorem alloc_iff (h : Owns n k a P) (hclears : Clears rt)
    (hstep : version.Step rt Matched a (.alloc, r) b) : Separate b ↔ MoreLeft a.world := by
  constructor
  · intro hseparate
    by_contra hmore
    obtain ⟨_, hperform, hfresh⟩ := hstep
    cases cuts.effect h.sized.size_ne_zero hperform with
    | recycle hlist => exact hmore (.inl hlist)
    | bump hlist =>
        have hregions : Fresh (a.world.refilled rt).regions := hfresh
        obtain ⟨k', P', hfull⟩ := h.refill hlist hregions
        rw [hfull.moreLeft_iff hlist h.sized.size, not_not] at hmore
        subst hmore
        obtain ⟨r, hr, hin⟩ := hseparate.inside _ List.mem_cons_self
        have hsize : (a.world.refilled rt).bumped.f.size.toNat = n := hfull.sized.size
        have hlink := hfull.sized.link
        have hfirst : (out (a.world.refilled rt)).toNat ∈
            Set.Ico (out (a.world.refilled rt)).toNat
              ((out (a.world.refilled rt)).toNat + (a.world.refilled rt).bumped.f.size.toNat) := by
          rw [hsize]
          exact ⟨Nat.le_refl _, by omega⟩
        exact hfull.overrun r hr (hin hfirst)
  · intro hmore
    obtain ⟨hmatched, hrest⟩ := hstep
    obtain ⟨k', P', howns⟩ := h.step hclears ⟨⟨hmatched, fun _ => hmore⟩, hrest⟩
    exact howns.separate

end Owns

section Runs

variable {rt : Runtime} {n : Nat} {w : World} {tr : List ((Op × UInt64) × Sys)} {a : Sys}

/-- Every state of a spared run has a pool. -/
theorem owns_run (hclears : Clears rt) (hsized : Sized n w) (hw : w.regions = [])
    (hlist : w.f.list = nil) (hnchunk : w.f.nchunk = 0)
    (hrun : Run (version.Step rt Spared) ⟨w, []⟩ tr a) :
    ∀ s ∈ visited ⟨w, []⟩ tr, ∃ k P, Owns n k s P := by
  refine hrun.forall_visited (I := fun a => ∃ k P, Owns n k a P)
    ⟨0, _, .start hsized hw hlist hnchunk⟩ ?_
  intro a l b hex hstep
  obtain ⟨k, P, howns⟩ := hex
  exact howns.step hclears hstep

/-- A run whose states are all separate is spared: it is so up to its last
step, and then `alloc_iff` speaks about this one. -/
theorem spared_of_separate (hclears : Clears rt) (hsized : Sized n w) (hw : w.regions = [])
    (hlist : w.f.list = nil) (hnchunk : w.f.nchunk = 0)
    (hrun : Run (version.Step rt Matched) ⟨w, []⟩ tr a)
    (hseparate : ∀ s ∈ visited ⟨w, []⟩ tr, Separate s) :
    Run (version.Step rt Spared) ⟨w, []⟩ tr a := by
  induction hrun with
  | nil => exact .nil
  | @snoc tr a l b _ hstep ih =>
      rw [visited_snoc] at hseparate
      have hspared := ih fun s hs => hseparate s (List.mem_append_left _ hs)
      obtain ⟨k, P, howns⟩ :=
        owns_run hclears hsized hw hlist hnchunk hspared a hspared.mem_visited
      refine .snoc hspared ⟨⟨hstep.1, fun halloc => ?_⟩, hstep.2⟩
      obtain ⟨op, r⟩ := l
      subst halloc
      exact (howns.alloc_iff hclears hstep).mp (hseparate b (by simp))

end Runs

end C

/-- **The C version stays inside its chunks** exactly in the runs that take
no last block of a chunk: whatever the size, and whatever is allocated,
given back and written, the blocks of all states of a run are within their
regions and apart from each other if and only if each allocation found a
free block, or more than one block left in the chunk. -/
theorem chunk_kept_iff {rt : Runtime} (hclears : Clears rt) {size : UInt64}
    (hsize : size ≤ fixAllocChunk) {w : World} (hw : w.regions = []) :
    ∃ w₀, (C.init size).run w = .ok ((), w₀) ∧ w₀.f.size.toNat = max size.toNat 8 ∧
      ∀ tr a, Run (C.version.Step rt Matched) ⟨w₀, []⟩ tr a →
        ((∀ s ∈ visited ⟨w₀, []⟩ tr, s.world.f.size = w₀.f.size ∧ Separate s) ↔
          Run (C.version.Step rt C.Spared) ⟨w₀, []⟩ tr a) := by
  obtain ⟨n, hsized, hn⟩ := Sized.prepared hsize hw
  refine ⟨w.prepared size, C.run_init hsize, hn ▸ hsized.size, fun tr a hrun => ?_⟩
  constructor
  · intro hall
    exact C.spared_of_separate hclears hsized hw rfl rfl hrun fun s hs => (hall s hs).2
  · intro hspared s hs
    obtain ⟨k, P, howns⟩ := C.owns_run hclears hsized hw rfl rfl hspared s hs
    exact ⟨UInt64.toNat_inj.mp (by rw [howns.sized.size, hsized.size]), howns.separate⟩

/-- Half a chunk, given back and handed out again. -/
theorem chunk_kept_iff_recycled : ∃ tr a,
    Run (C.version.Step (regionsFrom 0x10000 0x4000) C.Spared)
      ⟨World.blank.prepared 0x2000, []⟩ tr a ∧
    labels tr = [(.alloc, 0x12000), (.free 0x12000, nil), (.alloc, 0x12000)] ∧
    ∀ s ∈ visited ⟨World.blank.prepared 0x2000, []⟩ tr,
      s.world.f.size = 0x2000 ∧ Separate s := by
  obtain ⟨w₀, hinit, _, hall⟩ := chunk_kept_iff (regionsFrom_clears 0x10000 0x4000)
    (show 0x2000 ≤ fixAllocChunk by decide) (show World.blank.regions = [] from rfl)
  rw [C.run_init (by decide)] at hinit
  cases hinit
  obtain ⟨tr, a, hrun, hlabels, _⟩ := Version.exists_run C.version (regionsFrom 0x10000 0x4000)
    C.Spared ⟨World.blank.prepared 0x2000, []⟩ [.alloc, .free 0x12000, .alloc]
    [0x12000, nil, 0x12000] (fun _ => ()) () (by decide +kernel)
  have hmatched : Run (C.version.Step (regionsFrom 0x10000 0x4000) Matched)
      ⟨World.blank.prepared 0x2000, []⟩ tr a :=
    (hrun.mono (I := fun _ => True) trivial fun _ _ _ _ h => ⟨⟨h.1.1, h.2⟩, trivial⟩).1
  exact ⟨tr, a, hrun, hlabels, (hall tr a hmatched).mpr hrun⟩

/-- The second block of half a chunk starts where the chunk ends. -/
theorem chunk_left : ∃ w₀ tr a, (C.init 0x2000).run .blank = .ok ((), w₀) ∧
    Run (C.version.Step (regionsFrom 0x10000 0x4000) Matched) ⟨w₀, []⟩ tr a ∧
    labels tr = [(.alloc, 0x12000), (.alloc, 0x14000)] ∧
    a.world.regions = [⟨0x10000, 0x4000⟩] ∧ ¬ Separate a := by
  obtain ⟨tr, a, hrun, hlabels, hobs⟩ := Version.exists_run C.version (regionsFrom 0x10000 0x4000)
    Matched ⟨World.blank.prepared 0x2000, []⟩ [.alloc, .alloc] [0x12000, 0x14000]
    (fun s => (s.world.regions, s.live, s.world.f.size))
    ([⟨0x10000, 0x4000⟩], [0x14000, 0x12000], 0x2000) (by decide +kernel)
  simp only [Prod.mk.injEq] at hobs
  obtain ⟨hregions, hlive, hsize⟩ := hobs
  refine ⟨_, tr, a, C.run_init (by decide), hrun, hlabels, hregions, fun hseparate => ?_⟩
  obtain ⟨r, hr, hin⟩ := hseparate.inside 0x14000 (by simp [hlive])
  rw [hregions, List.mem_singleton] at hr
  have hmem := hin (show (0x14000 : UInt64).toNat ∈ a.block 0x14000 by
    rw [Sys.block, hsize]
    decide)
  rw [hr] at hmem
  exact absurd hmem.2 (by decide)

end Challenges.Slab

import Challenges.Slab.Slots

/-!
# Disjoint — the blocks of the Go version

The blocks in reserve are those of the rest of the chunk, side by side. A
call takes the first of them, and a new chunk is asked for when there is
none, so that blocks stay apart through any run.
-/

namespace Challenges.Slab

open Challenges.Lib

namespace Go

/-- The chunk has `k` blocks left, and these are in reserve. -/
structure Owns (n k : Nat) (a : Sys) (P : Pool (SlotsApart n)) : Prop extends Repr n a P where
  left : a.world.f.nchunk.toNat = k * n
  reserve : P.reserve = List.range' a.world.f.chunk.toNat k n

namespace Owns

variable {n k : Nat} {a b : Sys} {P : Pool (SlotsApart n)} {rt : Runtime} {l : Op × UInt64}

/-- After `init` there is neither a block nor a chunk. -/
theorem start {w : World} (h : Sized n w) (hw : w.regions = []) (hlist : w.f.list = nil)
    (hnchunk : w.f.nchunk = 0) : Owns n 0 ⟨w, []⟩ .empty where
  toRepr := .start h hw hlist
  left := by rw [hnchunk, UInt32.toNat_zero, Nat.zero_mul]
  reserve := rfl

/-- A new region is cut into blocks. -/
theorem grow (h : Owns n 0 a P) (hlist : a.world.f.list = nil) {w : World} {r : Region}
    (hregions : w.regions = a.world.regions ++ [r]) (hr : r.size.toNat = perChunk n * n)
    (hf : w.f = { a.world.f with chunk := r.addr, nchunk := a.world.f.nalloc })
    (hfresh : Fresh w.regions) :
    ∃ k' P', Owns n (k' + 1) ⟨w, a.live⟩ P' ∧ P'.all.length = P.all.length + perChunk n := by
  obtain ⟨k', hk'⟩ := h.sized.exists_perChunk
  obtain ⟨P', hrepr, hres, hperm⟩ := h.toRepr.refill hlist hregions hr hf hfresh
    (pairwise_range' n (perChunk n) r.addr.toNat) (by
      intro b hb
      rw [Region.stop, hr]
      exact mem_range'_inside hb)
  refine ⟨k', P', ⟨hrepr, ?_, ?_⟩, ?_⟩
  · simp only [hf]
    rw [h.sized.nalloc, hk']
  · rw [hres, h.reserve, hf, hk']
    exact List.append_nil _
  · rw [hperm.length_eq, List.length_append, List.length_range', Nat.add_comm]

theorem refill (h : Owns n k a P) (hlist : a.world.f.list = nil)
    (hfresh : Fresh (a.world.refilled rt).regions) :
    ∃ k' P', Owns n (k' + 1) ⟨a.world.refilled rt, a.live⟩ P' := by
  by_cases hroom : a.world.f.nchunk.toUInt64 < a.world.f.size
  · obtain ⟨hregions, _, hf⟩ := World.refilled_of_lt rt hroom
    obtain rfl : k = 0 := (h.sized.empty_iff h.left).mp hroom
    obtain ⟨k', P', howns, _⟩ := h.grow hlist hregions (h.sized.next_size rt) hf hfresh
    exact ⟨k', P', howns⟩
  · rw [World.refilled_of_not_lt rt hroom]
    obtain ⟨k', rfl⟩ := Nat.exists_eq_add_one_of_ne_zero (mt (h.sized.empty_iff h.left).mpr hroom)
    exact ⟨k', P, h⟩

/-- The block after the next one is in a region too, so that nothing wraps. -/
theorem bumped_chunk (h : Owns n (k + 2) a P) :
    a.world.bumped.f.chunk.toNat = a.world.f.chunk.toNat + n := by
  have hmem : a.world.f.chunk.toNat + n ∈ P.all :=
    Pool.mem_all.mpr (.inr (.inr (by simp [h.reserve, List.range'_succ])))
  have hbound := h.bound hmem
  have hlink := h.sized.link
  exact h.sized.bumped_chunk (by omega)

theorem bumped_nchunk (h : Owns n (k + 1) a P) : a.world.bumped.f.nchunk.toNat = k * n := by
  have hleft := h.left
  rw [Nat.add_mul, Nat.one_mul] at hleft
  have hnchunk := h.sized.bumped_nchunk (by omega)
  rw [hnchunk, hleft, Nat.add_sub_cancel]

theorem bump (h : Owns n (k + 1) a P) :
    ∃ P', Owns n k ⟨a.world.bumped, a.world.f.chunk :: a.live⟩ P' ∧ P'.all.Perm P.all := by
  have hres := h.reserve
  rw [List.range'_succ] at hres
  obtain ⟨P', hrepr, hres', hperm⟩ := h.toRepr.cut hres
  refine ⟨P', ⟨hrepr, h.bumped_nchunk, ?_⟩, hperm⟩
  rw [hres']
  cases k with
  | zero => rfl
  | succ k => rw [h.bumped_chunk]

theorem recycle (h : Owns n k a P) (hclears : Clears rt) (hlist : a.world.f.list ≠ nil) :
    ∃ P', Owns n k ⟨a.world.recycled rt, a.world.f.list :: a.live⟩ P' ∧ P'.all.Perm P.all := by
  obtain ⟨P', hrepr, hres, hperm⟩ := h.toRepr.recycle hclears hlist
  have hf := a.world.recycled_f rt
  exact ⟨P', ⟨hrepr, by simp only [hf]; exact h.left, by rw [hres, h.reserve, hf]⟩, hperm⟩

theorem release (h : Owns n k a P) {p : UInt64} (hp : p ∈ a.live) :
    ∃ P', Owns n k ⟨a.world.freed p, a.live.erase p⟩ P' ∧ P'.all.Perm P.all := by
  obtain ⟨P', hrepr, hres, hperm⟩ := h.toRepr.release hp
  exact ⟨P', ⟨hrepr, h.left, by rw [hres, h.reserve]; rfl⟩, hperm⟩

theorem write (h : Owns n k a P) {p off : UInt64} (hp : p ∈ a.live) (hoff : off < a.world.f.size)
    (byte : UInt8) :
    Owns n k ⟨{ a.world with mem := a.world.mem.store8 (p + off) byte }, a.live⟩ P :=
  ⟨h.toRepr.write hp hoff byte, h.left, h.reserve⟩

/-- A step keeps the blocks apart. -/
theorem step (h : Owns n k a P) (hclears : Clears rt)
    (hstep : version.Step rt Matched a l b) : ∃ k' P', Owns n k' b P' := by
  obtain ⟨hmatched, hperform, hfresh⟩ := hstep
  obtain ⟨op, r⟩ := l
  cases cuts.effect h.sized.size_ne_zero hperform with
  | recycle hlist =>
      obtain ⟨P', howns, _⟩ := h.recycle hclears hlist
      exact ⟨k, P', howns⟩
  | bump hlist =>
      obtain ⟨k', P', hfull⟩ := h.refill hlist hfresh
      obtain ⟨P', howns, _⟩ := hfull.bump
      exact ⟨k', P', howns⟩
  | free p =>
      obtain ⟨P', howns, _⟩ := h.release hmatched
      exact ⟨k, P', howns⟩
  | write p off byte => exact ⟨k, P, h.write hmatched.1 hmatched.2 byte⟩

/-- The rest of the chunk is apart from the blocks that were cut. -/
theorem rest_apart (h : Owns n k a P) {b : Nat} (hb : b ∈ P.live ∨ b ∈ P.free) {x : Nat}
    (hle : a.world.f.chunk.toNat ≤ x)
    (hlt : x < a.world.f.chunk.toNat + a.world.f.nchunk.toNat) : x < b ∨ b + n ≤ x := by
  rw [h.left] at hlt
  have hlink := h.sized.link
  obtain ⟨q, hq, hqle, hqlt⟩ := exists_slot (by omega) hle hlt
  rw [← h.reserve] at hq
  have hapart : SlotsApart n b q := by
    rcases hb with hb | hb
    · exact P.live_apart hb (.inr hq)
    · exact P.free_apart hb hq
  rw [SlotsApart] at hapart
  omega

/-- No live block reaches into the rest of the chunk. -/
theorem uncarved (h : Owns n k a P) {p : UInt64} (hp : p ∈ a.live) :
    Disjoint (a.block p)
      (Set.Ico a.world.f.chunk.toNat (a.world.f.chunk.toNat + a.world.f.nchunk.toNat)) := by
  rw [Set.disjoint_left, Sys.block, h.sized.size]
  intro x hx hx'
  have hapart := h.rest_apart (.inl (h.mem_live.mp hp)) hx'.1 hx'.2
  obtain ⟨hx1, hx2⟩ := hx
  omega

end Owns

/-- Every state of a run has a pool. -/
theorem owns_run {rt : Runtime} (hclears : Clears rt) {size : UInt64} (hsize : size ≤ fixAllocChunk)
    {w : World} (hw : w.regions = []) {tr : List ((Op × UInt64) × Sys)} {a : Sys}
    (hrun : Run (version.Step rt Matched) ⟨w.prepared size, []⟩ tr a) :
    ∃ k P, Owns (max size.toNat 8) k a P := by
  obtain ⟨n, hsized, rfl⟩ := Sized.prepared hsize hw
  refine hrun.invariant (I := fun a => ∃ k P, Owns _ k a P) ⟨0, _, .start hsized hw rfl rfl⟩ ?_
  intro a l b hex hstep
  obtain ⟨k, P, howns⟩ := hex
  exact howns.step hclears hstep

end Go

/-- **The Go version hands out disjoint blocks.** For every size that `init`
takes, in every state of a run of allocations, matched frees and stores
inside live blocks: no call panics, each live block has `f.size` bytes
within one region, apart from the other live blocks, from the free ones and
from the rest of the chunk, and no block is free twice. -/
theorem blocks_disjoint {rt : Runtime} (hclears : Clears rt) {size : UInt64}
    (hsize : size ≤ fixAllocChunk) {w : World} (hw : w.regions = []) :
    ∃ w₀, (Go.init size).run w = .ok ((), w₀) ∧ w₀.f.size.toNat = max size.toNat 8 ∧
      ∀ tr a, Run (Go.version.Step rt Matched) ⟨w₀, []⟩ tr a →
        a.world.f.size = w₀.f.size ∧ Separate a ∧
        (∀ p ∈ a.live, Disjoint (a.block p)
          (Set.Ico a.world.f.chunk.toNat (a.world.f.chunk.toNat + a.world.f.nchunk.toNat))) ∧
        ∀ op, ∃ r b, Go.version.perform rt a op = .ok (r, b) := by
  obtain ⟨n, hsized, hn⟩ := Sized.prepared hsize hw
  refine ⟨w.prepared size, Go.run_init hsize, hn ▸ hsized.size, fun tr a hrun => ?_⟩
  obtain ⟨k, P, howns⟩ := Go.owns_run hclears hsize hw hrun
  refine ⟨?_, howns.separate, fun p => howns.uncarved, fun op => ?_⟩
  · exact UInt64.toNat_inj.mp (by rw [howns.sized.size, hsized.size, hn])
  · exact Go.cuts.returns howns.sized.size_ne_zero op

/-- The second block overlaps no other after a reuse of the first. -/
theorem blocks_disjoint_reused : ∃ tr a,
    Run (Go.version.Step (regionsFrom 0x10000 0x4000) Matched)
      ⟨World.blank.prepared 24, []⟩ tr a ∧
    labels tr = [(.alloc, 0x10000), (.alloc, 0x10018), (.write 0x10000 7 5, nil),
      (.free 0x10000, nil), (.alloc, 0x10000), (.alloc, 0x10030)] ∧ Separate a := by
  obtain ⟨w₀, hinit, _, hall⟩ := blocks_disjoint (regionsFrom_clears 0x10000 0x4000)
    (show 24 ≤ fixAllocChunk by decide) (show World.blank.regions = [] from rfl)
  rw [Go.run_init (by decide)] at hinit
  cases hinit
  obtain ⟨tr, a, hrun, hlabels, _⟩ := Version.exists_run Go.version (regionsFrom 0x10000 0x4000)
    Matched ⟨World.blank.prepared 24, []⟩
    [.alloc, .alloc, .write 0x10000 7 5, .free 0x10000, .alloc, .alloc]
    [0x10000, 0x10018, nil, nil, 0x10000, 0x10030] (fun _ => ()) () (by decide +kernel)
  exact ⟨tr, a, hrun, hlabels, (hall tr a hrun).2.1⟩

end Challenges.Slab

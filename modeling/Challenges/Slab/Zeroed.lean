import Challenges.Slab.Disjoint

/-!
# Zeroed — what is in a block when it is handed out

A recycled block is cleared. A block cut from the chunk is not: the rest of
the chunk has been zero since the runtime gave it, because every store so
far went into a block that had been cut before.
-/

namespace Challenges.Slab

open Challenges.Lib

/-- `persistentAlloc` returns zeroed memory. -/
def Zeroed (rt : Runtime) : Prop := ∀ k i, (rt.persistentAlloc k).2 i = 0

/-- The rest of the chunk is zero, and recycled blocks are cleared. -/
structure Clean (w : World) : Prop where
  zero : w.f.zero = true
  rest : w.mem.ZeroOn w.f.chunk.toNat w.f.nchunk.toNat

namespace Clean

variable {n k : Nat} {a b : Sys} {P : Pool (SlotsApart n)} {rt : Runtime}

theorem prepared (w : World) (size : UInt64) : Clean (w.prepared size) :=
  ⟨rfl, Mem64.ZeroOn.empty _ _⟩

/-- A change within a block that was cut leaves the rest of the chunk as it
is. -/
theorem frame (h : Clean a.world) (howns : Go.Owns n k a P) {p : Nat}
    (hp : p ∈ P.live ∨ p ∈ P.free) {m : Mem64} {lo len : Nat}
    (hsame : Mem64.SameOutside a.world.mem m lo len) (hlo : p ≤ lo) (hend : lo + len ≤ p + n) :
    m.ZeroOn a.world.f.chunk.toNat a.world.f.nchunk.toNat := by
  refine h.rest.frame hsame fun x hle hlt => ?_
  have hapart := howns.rest_apart hp hle hlt
  omega

/-- A new chunk is zero. -/
theorem refill (h : Clean a.world) (hzeroed : Zeroed rt)
    (hfresh : Fresh (a.world.refilled rt).regions) : Clean (a.world.refilled rt) := by
  by_cases hroom : a.world.f.nchunk.toUInt64 < a.world.f.size
  · obtain ⟨hregions, hmem, hf⟩ := World.refilled_of_lt rt hroom
    have hbound := hfresh.bound (r := a.world.next rt) (by simp [hregions])
    have hsize : (a.world.next rt).size.toNat = a.world.f.nalloc.toNat := UInt32.toNat_toUInt64 _
    constructor
    · rw [hf]
      exact h.zero
    · rw [hmem, hf, ← hsize]
      exact Mem64.ZeroOn.overlay _ (hzeroed _) hbound.2
  · rw [World.refilled_of_not_lt rt hroom]
    exact h

/-- The next block is zero, and so is what remains behind it. -/
theorem bump (h : Clean a.world) (howns : Go.Owns n (k + 1) a P) :
    Clean a.world.bumped ∧ a.world.mem.ZeroOn a.world.f.chunk.toNat n := by
  have hleft := howns.left
  rw [Nat.add_mul, Nat.one_mul] at hleft
  refine ⟨⟨h.zero, ?_⟩, h.rest.mono (Nat.le_refl _) (by omega)⟩
  rw [howns.bumped_nchunk]
  cases k with
  | zero =>
      rw [Nat.zero_mul]
      exact Mem64.ZeroOn.empty _ _
  | succ k =>
      rw [howns.bumped_chunk]
      exact h.rest.mono (by omega) (by omega)

/-- The block that is recycled has been cleared. -/
theorem recycle (h : Clean a.world) (hclears : Clears rt) (howns : Go.Owns n k a P)
    (hlist : a.world.f.list ≠ nil) :
    Clean (a.world.recycled rt) ∧ (a.world.recycled rt).mem.ZeroOn a.world.f.list.toNat n := by
  obtain ⟨fl, hc, hfree⟩ := howns.free
  obtain ⟨t, rfl, _⟩ := hc.exists_cons hlist
  have hmem : a.world.f.list.toNat ∈ P.free := by
    rw [hfree]
    exact List.mem_cons_self
  have hbound := howns.bound (Pool.mem_all.mpr (.inr (.inl hmem)))
  have hsize := howns.sized.size
  rw [← hsize] at hbound
  have hf := a.world.recycled_f rt
  refine ⟨⟨?_, ?_⟩, ?_⟩
  · rw [hf]
    exact h.zero
  · rw [hf]
    exact h.frame howns (.inr hmem) (World.recycled_same hclears hbound.2) (Nat.le_refl _)
      (by omega)
  · have hcleared : (a.world.recycled rt).mem = a.world.mem.clear a.world.f.list a.world.f.size := by
      simp only [World.recycled, h.zero, if_true, hclears a.world.mem]
    rw [hcleared, ← hsize]
    exact Mem64.ZeroOn.overlay _ (fun _ => rfl) hbound.2

/-- A step keeps the rest of the chunk zero, and a block that it hands out is
zero. -/
theorem step (h : Clean a.world) (hclears : Clears rt) (hzeroed : Zeroed rt)
    (howns : Go.Owns n k a P) {op : Op} {r : UInt64}
    (hstep : Go.version.Step rt Matched a (op, r) b) :
    Clean b.world ∧ (op = .alloc → b.world.mem.ZeroOn r.toNat n) := by
  obtain ⟨hmatched, hperform, hfresh⟩ := hstep
  cases Go.cuts.effect howns.sized.size_ne_zero hperform with
  | recycle hlist =>
      obtain ⟨hclean, hblock⟩ := h.recycle hclears howns hlist
      exact ⟨hclean, fun _ => hblock⟩
  | bump hlist =>
      have hregions : Fresh (a.world.refilled rt).regions := hfresh
      obtain ⟨k', P', hfull⟩ := howns.refill hlist hregions
      obtain ⟨hclean, hblock⟩ := bump (a := ⟨a.world.refilled rt, a.live⟩)
        (h.refill hzeroed hregions) hfull
      exact ⟨hclean, fun _ => hblock⟩
  | free p =>
      have hp := howns.mem_live.mp hmatched
      have hbound := howns.bound (Pool.mem_all.mpr (.inl hp))
      have hlink := howns.sized.link
      refine ⟨⟨h.zero, ?_⟩, fun hop => by cases hop⟩
      exact h.frame howns (.inl hp) (Mem64.store64_same _ _ (by omega)) (Nat.le_refl _) (by omega)
  | write p off byte =>
      have hp := howns.mem_live.mp hmatched.1
      have hbound := howns.bound (Pool.mem_all.mpr (.inl hp))
      have hoff := UInt64.lt_iff_toNat_lt.mp hmatched.2
      have hsize := howns.sized.size
      have haddr : (p + off).toNat = p.toNat + off.toNat := by
        rw [UInt64.toNat_add, Nat.mod_eq_of_lt (by omega)]
      refine ⟨⟨h.zero, ?_⟩, fun hop => by cases hop⟩
      exact h.frame howns (.inl hp) (Mem64.store8_same _ (p + off) byte) (by omega) (by omega)

end Clean

/-- **Blocks are handed out zeroed**: for every size that `init` takes, in any
run of allocations, matched frees and stores inside live blocks, all bytes of
a block are zero when `alloc` returns it, and `alloc` does return. -/
theorem blocks_zeroed {rt : Runtime} (hclears : Clears rt) (hzeroed : Zeroed rt) {size : UInt64}
    (hsize : size ≤ fixAllocChunk) {w : World} (hw : w.regions = []) :
    ∃ w₀, (Go.init size).run w = .ok ((), w₀) ∧ size ≤ w₀.f.size ∧
      ∀ tr a, Run (Go.version.Step rt Matched) ⟨w₀, []⟩ tr a →
        (∃ r b, Go.version.perform rt a .alloc = .ok (r, b)) ∧
        ∀ r b, Go.version.Step rt Matched a (.alloc, r) b →
          ∀ i < w₀.f.size, b.world.mem (r + i) = 0 := by
  obtain ⟨n, hsized, hn⟩ := Sized.prepared hsize hw
  have hle : size ≤ (w.prepared size).f.size := by
    rw [UInt64.le_iff_toNat_le, hsized.size, hn]
    exact Nat.le_max_left _ _
  refine ⟨w.prepared size, Go.run_init hsize, hle, fun tr a hrun => ?_⟩
  obtain ⟨⟨k, P, howns⟩, hclean⟩ : (∃ k P, Go.Owns n k a P) ∧ Clean a.world := by
    refine hrun.invariant (I := fun a => (∃ k P, Go.Owns n k a P) ∧ Clean a.world)
      ⟨⟨0, _, .start hsized hw rfl rfl⟩, .prepared w size⟩ ?_
    intro a l b hI hstep
    obtain ⟨⟨k, P, howns⟩, hclean⟩ := hI
    exact ⟨howns.step hclears hstep, (hclean.step hclears hzeroed howns hstep).1⟩
  have hinit := howns.sized.size_ne_zero
  refine ⟨Go.cuts.returns hinit .alloc, fun r b hstep i hi => ?_⟩
  have hblock := (hclean.step hclears hzeroed howns hstep).2 rfl
  -- the block lies in a region, so that `r + i` does not wrap around
  obtain ⟨k', P', howns'⟩ := howns.step hclears hstep
  have hlive : r ∈ b.live := by
    rw [(Go.cuts.effect hinit hstep.2.1).live_alloc]
    exact List.mem_cons_self
  have hbound := howns'.bound (Pool.mem_all.mpr (.inl (howns'.mem_live.mp hlive)))
  have hi := UInt64.lt_iff_toNat_lt.mp hi
  rw [hsized.size] at hi
  have haddr : (r + i).toNat = r.toNat + i.toNat := by
    rw [UInt64.toNat_add, Nat.mod_eq_of_lt (by omega)]
  exact hblock (r + i) (by omega) (by omega)

/-- A block that was written into, and given back. -/
theorem blocks_zeroed_reused : ∃ tr a,
    Run (Go.version.Step (regionsFrom 0x10000 0x4000) Matched)
      ⟨World.blank.prepared 24, []⟩ tr a ∧
    labels tr = [(.alloc, 0x10000), (.write 0x10000 17 5, nil), (.free 0x10000, nil)] ∧
    ∃ b, Go.version.Step (regionsFrom 0x10000 0x4000) Matched a (.alloc, 0x10000) b ∧
      ∀ i < 24, b.world.mem (0x10000 + i) = 0 := by
  obtain ⟨w₀, hinit, _, hall⟩ := blocks_zeroed (regionsFrom_clears 0x10000 0x4000)
    (fun _ _ => rfl) (show 24 ≤ fixAllocChunk by decide) (show World.blank.regions = [] from rfl)
  rw [Go.run_init (by decide)] at hinit
  cases hinit
  obtain ⟨tr, a, hrun, hlabels, hobs⟩ := Version.exists_run Go.version
    (regionsFrom 0x10000 0x4000) Matched ⟨World.blank.prepared 24, []⟩
    [.alloc, .write 0x10000 17 5, .free 0x10000] [0x10000, nil, nil]
    (fun a => ((Go.version.exec (regionsFrom 0x10000 0x4000) Matched a .alloc).map Prod.fst))
    (some 0x10000) (by decide +kernel)
  obtain ⟨p, hexec, hr⟩ := Option.map_eq_some_iff.mp hobs
  obtain ⟨r, b⟩ := p
  cases hr
  have hstep := Version.step_of_exec hexec
  exact ⟨tr, a, hrun, hlabels, b, hstep, (hall tr a hrun).2 _ b hstep⟩

end Challenges.Slab

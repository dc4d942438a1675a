import Mathlib.Order.CompletePartialOrder
import Mathlib.Order.Interval.Set.Disjoint
import Challenges.Lib.Chain
import Challenges.Lib.Pool
import Challenges.Slab.Client

/-!
# Slots — the blocks of the allocator as a pool

`Repr n a P`: with blocks of `n` bytes, the live blocks of `a`, those linked
on its list, and what may still be cut from its regions make up the pool
`P`. Each effect of a call is a move of the pool. Which blocks are in
reserve is left to the versions.
-/

namespace Challenges.Slab

open Challenges.Lib

/-- `n` bytes from `b` on lie in one of the regions. -/
def Inside (rs : List Region) (n b : Nat) : Prop :=
  ∃ r ∈ rs, r.addr.toNat ≤ b ∧ b + n ≤ r.stop

/-- The blocks that a region is cut into. -/
def perChunk (n : Nat) : Nat := fixAllocChunk.toNat / n

/-- The sizes after `init`. -/
structure Sized (n : Nat) (w : World) : Prop where
  size : w.f.size.toNat = n
  link : 8 ≤ n
  fits : n ≤ fixAllocChunk.toNat
  nalloc : w.f.nalloc.toNat = perChunk n * n
  region : ∀ r ∈ w.regions, r.size.toNat = perChunk n * n

/-- The blocks of a system. -/
structure Repr (n : Nat) (a : Sys) (P : Pool (SlotsApart n)) : Prop where
  sized : Sized n a.world
  fresh : Fresh a.world.regions
  live : P.live = a.live.map UInt64.toNat
  free : ∃ fl, Chain a.world.mem.load64 nil a.world.f.list fl ∧ P.free = fl.map UInt64.toNat
  inside : ∀ b ∈ P.all, Inside a.world.regions n b

/-! ## Sizes and regions -/

theorem perChunk_le (n : Nat) : perChunk n * n ≤ fixAllocChunk.toNat := Nat.div_mul_le_self _ _

theorem toNat_pos {a : UInt64} (h : a ≠ nil) : 0 < a.toNat :=
  Nat.pos_of_ne_zero fun hzero => h (UInt64.toNat_inj.mp hzero)

theorem Fresh.bound {rs : List Region} (h : Fresh rs) {r : Region} (hr : r ∈ rs) :
    0 < r.addr.toNat ∧ r.stop ≤ 2 ^ 64 := ⟨toNat_pos (h.1 r hr).1, (h.1 r hr).2⟩

theorem Fresh.inside {rs : List Region} (h : Fresh rs) {n b : Nat} (hb : Inside rs n b) :
    0 < b ∧ b + n ≤ 2 ^ 64 := by
  obtain ⟨r, hr, hle, hstop⟩ := hb
  have hbound := h.bound hr
  omega

theorem Inside.mono {rs rs' : List Region} (h : rs ⊆ rs') {n b : Nat} (hb : Inside rs n b) :
    Inside rs' n b := by
  obtain ⟨r, hr, hin⟩ := hb
  exact ⟨r, h hr, hin⟩

namespace Sized

variable {n : Nat} {w w' : World} {rt : Runtime}

theorem size_ne_zero (h : Sized n w) : w.f.size ≠ 0 := by
  have hsize := h.size
  have hlink := h.link
  intro hzero
  rw [hzero, UInt64.toNat_zero] at hsize
  omega

/-- A chunk has room for a block. -/
theorem exists_perChunk (h : Sized n w) : ∃ k, perChunk n = k + 1 :=
  have hlink := h.link
  Nat.exists_eq_add_one_of_ne_zero (Nat.ne_of_gt (Nat.div_pos h.fits (by omega)))

/-- The sizes are set once. -/
theorem congr (h : Sized n w) (hsize : w'.f.size = w.f.size) (hnalloc : w'.f.nalloc = w.f.nalloc)
    (hregions : w'.regions = w.regions) : Sized n w' :=
  ⟨by rw [hsize, h.size], h.link, h.fits, by rw [hnalloc, h.nalloc], by rw [hregions]; exact h.region⟩

/-- After `init` the size is at least that of a link. -/
theorem prepared {size : UInt64} (hsize : size ≤ fixAllocChunk) (hw : w.regions = []) :
    ∃ n, Sized n (w.prepared size) ∧ n = max size.toNat 8 := by
  have hchunk : fixAllocChunk.toNat = 16384 := by decide
  have hmlink : sizeofMlink.toNat = 8 := by decide
  have hmax : (if size < sizeofMlink then sizeofMlink else size).toNat = max size.toNat 8 := by
    split
    · rename_i hlt
      rw [UInt64.lt_iff_toNat_lt] at hlt
      omega
    · rename_i hge
      rw [UInt64.not_lt, UInt64.le_iff_toNat_le] at hge
      omega
  have hle := UInt64.le_iff_toNat_le.mp hsize
  have hper := perChunk_le (max size.toNat 8)
  refine ⟨_, ⟨hmax, by omega, by omega, ?_, by simp [World.prepared, hw]⟩, rfl⟩
  simp only [World.prepared]
  rw [UInt64.toNat_toUInt32, UInt64.toNat_mul, UInt64.toNat_div, hmax]
  change perChunk (max size.toNat 8) * _ % 2 ^ 64 % 2 ^ 32 = _
  rw [Nat.mod_eq_of_lt (b := 2 ^ 64) (by omega), Nat.mod_eq_of_lt (by omega)]

/-! ### The chunk -/

/-- There is no block left in a chunk that is smaller than one. -/
theorem empty_iff (h : Sized n w) {k : Nat} (hleft : w.f.nchunk.toNat = k * n) :
    w.f.nchunk.toUInt64 < w.f.size ↔ k = 0 := by
  have hlink := h.link
  rw [UInt64.lt_iff_toNat_lt, UInt32.toNat_toUInt64, h.size, hleft]
  constructor
  · intro hlt
    by_contra hne
    have hmul := Nat.le_mul_of_pos_left n (Nat.pos_of_ne_zero hne)
    omega
  · rintro rfl
    omega

theorem bumped_nchunk (h : Sized n w) (hle : n ≤ w.f.nchunk.toNat) :
    w.bumped.f.nchunk.toNat = w.f.nchunk.toNat - n := by
  have hchunk : fixAllocChunk.toNat < 2 ^ 32 := by decide
  have hfits := h.fits
  have hsize : w.f.size.toUInt32.toNat = n := by
    rw [UInt64.toNat_toUInt32, h.size, Nat.mod_eq_of_lt (by omega)]
  simp only [World.bumped]
  rw [UInt32.toNat_sub_of_le _ _ (by rw [UInt32.le_iff_toNat_le]; omega), hsize]

theorem bumped_chunk (h : Sized n w) (hlt : w.f.chunk.toNat + n < 2 ^ 64) :
    w.bumped.f.chunk.toNat = w.f.chunk.toNat + n := by
  simp only [World.bumped]
  rw [UInt64.toNat_add, h.size, Nat.mod_eq_of_lt hlt]

end Sized

/-! ## Refills -/

namespace World

variable (rt : Runtime) (w : World)

/-- The region that the next call of `persistentAlloc` returns. -/
def next : Region := ⟨(rt.persistentAlloc w.regions.length).1, w.f.nalloc.toUInt64⟩

variable {w}

theorem refilled_of_lt (h : w.f.nchunk.toUInt64 < w.f.size) :
    (w.refilled rt).regions = w.regions ++ [w.next rt] ∧
      (w.refilled rt).mem = w.mem.overlay (w.next rt).addr (w.next rt).size
        (rt.persistentAlloc w.regions.length).2 ∧
      (w.refilled rt).f = { w.f with chunk := (w.next rt).addr, nchunk := w.f.nalloc } := by
  simp [refilled, h, granted, next]

theorem refilled_of_not_lt (h : ¬ w.f.nchunk.toUInt64 < w.f.size) : w.refilled rt = w :=
  if_neg h

/-! ## Recycling -/

variable (w)

theorem recycled_regions : (w.recycled rt).regions = w.regions := by simp only [recycled]

theorem recycled_f :
    (w.recycled rt).f
      = { w.f with list := w.mem.load64 w.f.list, inuse := w.f.inuse + w.f.size } := by
  simp only [recycled]

variable {rt w}

/-- Only the block is cleared. -/
theorem recycled_same (hclears : Clears rt) (hfit : w.f.list.toNat + w.f.size.toNat ≤ 2 ^ 64) :
    Mem64.SameOutside w.mem (w.recycled rt).mem w.f.list.toNat w.f.size.toNat := by
  cases hzero : w.f.zero with
  | false => simp [recycled, hzero, Mem64.SameOutside]
  | true =>
      simp only [recycled, hzero, if_true, hclears w.mem]
      exact Mem64.overlay_same _ _ hfit

end World

theorem Sized.next_size {n : Nat} {w : World} (h : Sized n w) (rt : Runtime) :
    (w.next rt).size.toNat = perChunk n * n := by
  rw [World.next, UInt32.toNat_toUInt64, h.nalloc]

/-! ## Frames -/

section Links

variable {m m' : Mem64} {h : UInt64} {fl : List UInt64} {lo len : Nat}

/-- The list stays when what changes is apart from the links. -/
theorem links_frame (hc : Chain m.load64 nil h fl) (hsame : Mem64.SameOutside m m' lo len)
    (hout : ∀ q ∈ fl, q.toNat + 8 ≤ 2 ^ 64 ∧ (q.toNat + 8 ≤ lo ∨ lo + len ≤ q.toNat)) :
    Chain m'.load64 nil h fl := by
  refine hc.congr fun q hq => ?_
  obtain ⟨hfit, hapart⟩ := hout q hq
  exact hsame.load64 hfit hapart

end Links

namespace Repr

variable {n : Nat} {a : Sys} {P : Pool (SlotsApart n)} {rt : Runtime} {fl : List UInt64}

/-- After `init` there is neither a block nor a region. -/
theorem start {w : World} (h : Sized n w) (hw : w.regions = []) (hlist : w.f.list = nil) :
    Repr n ⟨w, []⟩ .empty where
  sized := h
  fresh := by
    rw [hw]
    exact ⟨by simp, .nil⟩
  live := rfl
  free := ⟨[], by rw [hlist]; exact .nil, rfl⟩
  inside := by simp [Pool.empty, Pool.all]

theorem bound (h : Repr n a P) {b : Nat} (hb : b ∈ P.all) : 0 < b ∧ b + n ≤ 2 ^ 64 :=
  h.fresh.inside (h.inside b hb)

theorem mem_live (h : Repr n a P) {p : UInt64} : p ∈ a.live ↔ p.toNat ∈ P.live := by
  rw [h.live, List.mem_map]
  constructor
  · exact fun hp => ⟨p, hp, rfl⟩
  · intro hex
    obtain ⟨q, hq, heq⟩ := hex
    rwa [← UInt64.toNat_inj.mp heq]

theorem mem_all_of_free (hfree : P.free = fl.map UInt64.toNat) {q : UInt64} (hq : q ∈ fl) :
    q.toNat ∈ P.all := by
  rw [Pool.mem_all, hfree]
  exact .inr (.inl (List.mem_map_of_mem hq))

/-- A change within a live block keeps the list. -/
theorem links_of_live (h : Repr n a P)
    (hc : Chain a.world.mem.load64 nil a.world.f.list fl) (hfree : P.free = fl.map UInt64.toNat)
    {p : UInt64} (hp : p ∈ a.live) {m' : Mem64} {lo len : Nat} (hlo : p.toNat ≤ lo)
    (hlen : lo + len ≤ p.toNat + n) (hsame : Mem64.SameOutside a.world.mem m' lo len) :
    Chain m'.load64 nil a.world.f.list fl := by
  refine links_frame hc hsame fun q hq => ?_
  have hbound := h.bound (mem_all_of_free hfree hq)
  have hapart := P.live_apart (h.mem_live.mp hp) (.inl (hfree ▸ List.mem_map_of_mem hq))
  have hlink := h.sized.link
  rw [SlotsApart] at hapart
  omega

/-! ## Moves -/

theorem recycle (h : Repr n a P) (hclears : Clears rt) (hlist : a.world.f.list ≠ nil) :
    ∃ P' : Pool (SlotsApart n),
      Repr n ⟨a.world.recycled rt, a.world.f.list :: a.live⟩ P' ∧ P'.reserve = P.reserve ∧
        P'.all.Perm P.all := by
  obtain ⟨fl, hc, hfree⟩ := h.free
  obtain ⟨t, rfl, ht⟩ := hc.exists_cons hlist
  have hregions := a.world.recycled_regions rt
  have hf := a.world.recycled_f rt
  have hlink := h.sized.link
  have hbound := h.bound (mem_all_of_free hfree List.mem_cons_self)
  have hsame : Mem64.SameOutside a.world.mem (a.world.recycled rt).mem a.world.f.list.toNat n := by
    have hsize := h.sized.size
    rw [← hsize]
    exact World.recycled_same hclears (by omega)
  have hperm := P.reuse_perm hfree
  refine ⟨P.reuse hfree, ⟨h.sized.congr ?_ ?_ hregions, ?_, ?_, ⟨t, ?_, rfl⟩, fun b hb => ?_⟩, rfl,
    hperm.symm⟩
  · rw [hf]
  · rw [hf]
  · rw [hregions]
    exact h.fresh
  · exact congrArg (a.world.f.list.toNat :: ·) h.live
  · -- the `memclr` is inside the block, and the rest of the list is apart from it
    rw [hf]
    refine links_frame ht hsame fun q hq => ?_
    have hpairwise := P.free_pairwise
    rw [hfree, List.map_cons, List.pairwise_cons] at hpairwise
    have hapart := hpairwise.1 q.toNat (List.mem_map_of_mem hq)
    have hq := h.bound (mem_all_of_free hfree (List.mem_cons_of_mem _ hq))
    rw [SlotsApart] at hapart
    omega
  · rw [hregions]
    exact h.inside b (hperm.mem_iff.mpr hb)

theorem release (h : Repr n a P) {p : UInt64} (hp : p ∈ a.live) :
    ∃ P' : Pool (SlotsApart n),
      Repr n ⟨a.world.freed p, a.live.erase p⟩ P' ∧ P'.reserve = P.reserve ∧
        P'.all.Perm P.all := by
  obtain ⟨fl, hc, hfree⟩ := h.free
  have hlive : P.live.Perm (p.toNat :: (a.live.erase p).map UInt64.toNat) := by
    rw [h.live]
    exact (List.perm_cons_erase hp).map UInt64.toNat
  have hperm := P.release_perm hlive
  have hbound := h.bound (Pool.mem_all.mpr (.inl (h.mem_live.mp hp)))
  have hlink := h.sized.link
  refine ⟨P.release hlive, ⟨h.sized.congr rfl rfl rfl, h.fresh, rfl, ⟨p :: fl, ?_, ?_⟩, ?_⟩, rfl,
    hperm.symm⟩
  · refine Chain.cons (a := p) (fun hnil => ?_) ?_
    · rw [hnil, UInt64.toNat_zero] at hbound
      omega
    · rw [World.freed, Mem64.store64_load64]
      exact h.links_of_live hc hfree hp (Nat.le_refl _) (by omega)
        (Mem64.store64_same _ _ (by omega))
  · exact congrArg (p.toNat :: ·) hfree
  · exact fun b hb => h.inside b (hperm.mem_iff.mpr hb)

theorem write (h : Repr n a P) {p off : UInt64} (hp : p ∈ a.live)
    (hoff : off < a.world.f.size) (byte : UInt8) :
    Repr n ⟨{ a.world with mem := a.world.mem.store8 (p + off) byte }, a.live⟩ P := by
  obtain ⟨fl, hc, hfree⟩ := h.free
  have hbound := h.bound (Pool.mem_all.mpr (.inl (h.mem_live.mp hp)))
  have hoff := UInt64.lt_iff_toNat_lt.mp hoff
  have hsize := h.sized.size
  have haddr : (p + off).toNat = p.toNat + off.toNat := by
    rw [UInt64.toNat_add, Nat.mod_eq_of_lt (by omega)]
  refine ⟨h.sized.congr rfl rfl rfl, h.fresh, h.live, ⟨fl, ?_, hfree⟩, h.inside⟩
  exact h.links_of_live hc hfree hp (by omega) (by omega) (Mem64.store8_same _ (p + off) byte)

/-- The next block is cut from the reserve. -/
theorem cut (h : Repr n a P) {rest : List Nat} {p : UInt64} (hres : P.reserve = p.toNat :: rest) :
    ∃ P' : Pool (SlotsApart n),
      Repr n ⟨a.world.bumped, p :: a.live⟩ P' ∧ P'.reserve = rest ∧ P'.all.Perm P.all := by
  have hperm := P.carve_perm hres
  refine ⟨P.carve hres, ⟨h.sized.congr rfl rfl rfl, h.fresh, ?_, h.free, ?_⟩, rfl, hperm.symm⟩
  · exact congrArg (p.toNat :: ·) h.live
  · exact fun b hb => h.inside b (hperm.mem_iff.mpr hb)

/-- A new region is granted when there is no free block, and the blocks in it
come in reserve. -/
theorem refill (h : Repr n a P) (hlist : a.world.f.list = nil) {w : World} {r : Region}
    (hregions : w.regions = a.world.regions ++ [r]) (hr : r.size.toNat = perChunk n * n)
    {chunk : UInt64} {nchunk : UInt32}
    (hf : w.f = { a.world.f with chunk := chunk, nchunk := nchunk }) (hfresh : Fresh w.regions)
    {bs : List Nat} (hbs : bs.Pairwise (SlotsApart n))
    (hin : ∀ b ∈ bs, r.addr.toNat ≤ b ∧ b + n ≤ r.stop) :
    ∃ P' : Pool (SlotsApart n),
      Repr n ⟨w, a.live⟩ P' ∧ P'.reserve = bs ++ P.reserve ∧ P'.all.Perm (bs ++ P.all) := by
  obtain ⟨fl, hc, hfree⟩ := h.free
  have hlink := h.sized.link
  rw [hregions] at hfresh
  -- the blocks there are lie in older regions
  have hnew : ∀ b ∈ bs, ∀ c ∈ P.all, SlotsApart n b c := by
    intro b hb c hc
    have hb := hin b hb
    obtain ⟨s, hs, hle, hstop⟩ := h.inside c hc
    have hapart := (List.pairwise_append.mp hfresh.2).2.2 s hs r (List.mem_singleton.mpr rfl)
    rw [Region.Apart] at hapart
    rw [SlotsApart]
    omega
  refine ⟨P.grow hbs hnew, ⟨⟨?_, hlink, h.sized.fits, ?_, ?_⟩, ?_, h.live, ⟨fl, ?_, hfree⟩, ?_⟩, rfl,
    P.grow_perm.symm⟩
  · rw [hf]
    exact h.sized.size
  · rw [hf]
    exact h.sized.nalloc
  · intro s hs
    rw [hregions, List.mem_append, List.mem_singleton] at hs
    rcases hs with hs | rfl
    · exact h.sized.region s hs
    · exact hr
  · rw [hregions]
    exact hfresh
  · -- no link can be overwritten
    rw [hc.eq_null_iff.mp hlist, hf, hlist]
    exact .nil
  · intro b hb
    rw [hregions]
    rcases List.mem_append.mp (P.grow_perm.mem_iff.mpr hb) with hb | hb
    · exact ⟨r, by simp, hin b hb⟩
    · exact (h.inside b hb).mono (List.subset_append_left _ _)

end Repr

/-! ## What a client sees of it -/

/-- The bytes of a block. -/
def Sys.block (a : Sys) (p : UInt64) : Set Nat := Set.Ico p.toNat (p.toNat + a.world.f.size.toNat)

/-- The blocks that clients hold lie in regions of the allocator, each in
one, and no two blocks overlap, whether they are held or free. -/
structure Separate (a : Sys) : Prop where
  inside : ∀ p ∈ a.live, ∃ r ∈ a.world.regions, a.block p ⊆ Set.Ico r.addr.toNat r.stop
  live : a.live.Pairwise fun p q => Disjoint (a.block p) (a.block q)
  free : ∃ fl, Chain a.world.mem.load64 nil a.world.f.list fl ∧ fl.Nodup ∧
    fl.Pairwise (fun p q => Disjoint (a.block p) (a.block q)) ∧
    ∀ p ∈ a.live, ∀ q ∈ fl, Disjoint (a.block p) (a.block q)

theorem disjoint_of_apart {n p q : Nat} (h : SlotsApart n p q) :
    Disjoint (Set.Ico p (p + n)) (Set.Ico q (q + n)) := by
  rw [SlotsApart] at h
  exact Set.Ico_disjoint_Ico.mpr (by omega)

theorem Repr.separate {n : Nat} {a : Sys} {P : Pool (SlotsApart n)} (h : Repr n a P) :
    Separate a := by
  have hdisjoint : ∀ p q : UInt64, SlotsApart n p.toNat q.toNat →
      Disjoint (a.block p) (a.block q) := by
    intro p q hpq
    rw [Sys.block, Sys.block, h.sized.size]
    exact disjoint_of_apart hpq
  constructor
  case inside =>
    intro p hp
    obtain ⟨r, hr, hle, hstop⟩ := h.inside p.toNat (Pool.mem_all.mpr (.inl (h.mem_live.mp hp)))
    rw [← h.sized.size] at hstop
    exact ⟨r, hr, Set.Ico_subset_Ico hle hstop⟩
  case live =>
    have hlive := P.live_pairwise
    rw [h.live, List.pairwise_map] at hlive
    exact hlive.imp fun {p q} => hdisjoint p q
  case free =>
    obtain ⟨fl, hc, hfree⟩ := h.free
    have hpairwise := P.free_pairwise
    rw [hfree, List.pairwise_map] at hpairwise
    refine ⟨fl, hc, hc.nodup, hpairwise.imp fun {p q} => hdisjoint p q, fun p hp q hq => ?_⟩
    exact hdisjoint p q
      (P.live_apart (h.mem_live.mp hp) (.inl (hfree ▸ List.mem_map_of_mem hq)))

end Challenges.Slab

import Challenges.Slab.Ideal
import Challenges.Slab.Zeroed

/-!
# Refinement — the two versions against the ideal allocator

A system and an ideal state are in step when they have the same regions, the
same stack of free blocks and the same blocks in use, and are at the same
place of the same region. Both versions have just the runs of the ideal
allocator, each with its own lag, so that the C version is the Go version with
every block moved. In the Go version the bytes of the blocks are those of the
ideal state as well.
-/

namespace Challenges.Slab

open Challenges.Lib

variable {rt : Runtime} {d : UInt64} {n k : Nat} {a b : Sys} {P : Pool (SlotsApart n)} {I J : Ideal}
  {op : Op} {r : UInt64}

/-- The addresses that the runtime answers with. -/
def Runtime.addr (rt : Runtime) (k : Nat) : UInt64 := (rt.persistentAlloc k).1

/-! ## The lists and the chunk -/

/-- The system and the ideal state have the same regions, place and lists. -/
structure InStep (a : Sys) (I : Ideal) : Prop where
  regions : a.world.regions = I.regions
  chunk : a.world.f.chunk = I.next
  nchunk : a.world.f.nchunk.toNat = I.left * a.world.f.size.toNat
  free : Chain a.world.mem.load64 nil a.world.f.list I.free
  live : a.live = I.live

/-- What `init` computes is the size of a region. -/
theorem Sized.nalloc_eq {w : World} (h : Sized n w) :
    w.f.nalloc.toUInt64 = fixAllocChunk / w.f.size * w.f.size := by
  have hper := perChunk_le n
  have hchunk : fixAllocChunk.toNat = 16384 := by decide
  rw [← UInt64.toNat_inj, UInt32.toNat_toUInt64, h.nalloc, UInt64.toNat_mul, UInt64.toNat_div,
    h.size]
  change _ = perChunk n * n % 2 ^ 64
  rw [Nat.mod_eq_of_lt (by omega)]

/-- A block is smaller than half of the address space. -/
theorem Sized.size_le {w : World} (h : Sized n w) : w.f.size.toNat ≤ 2 ^ 63 := by
  have hle := h.fits
  have hchunk : fixAllocChunk.toNat = 16384 := by decide
  rw [h.size]
  omega

theorem Sized.refilled {w : World} (h : Sized n w) (rt : Runtime) : Sized n (w.refilled rt) := by
  by_cases hlt : w.f.nchunk.toUInt64 < w.f.size
  · obtain ⟨hregions, _, hf⟩ := World.refilled_of_lt rt hlt
    refine ⟨by rw [hf]; exact h.size, h.link, h.fits, by rw [hf]; exact h.nalloc, fun r hr => ?_⟩
    rw [hregions, List.mem_append, List.mem_singleton] at hr
    rcases hr with hr | rfl
    · exact h.region r hr
    · exact h.next_size rt
  · rw [World.refilled_of_not_lt rt hlt]
    exact h

/-- The sizes are the same wherever the regions are. -/
theorem Books.sized (h : Books d n k a P) : Sized n a.world where
  size := h.owns.sized.size
  link := h.owns.sized.link
  fits := h.owns.sized.fits
  nalloc := h.owns.sized.nalloc
  region r hr := h.owns.sized.region (r.shifted d) (List.mem_map_of_mem hr)

/-- A change within a block in use keeps the list. -/
theorem Books.links_of_live (h : Books d n k a P) {fl : List UInt64}
    (hc : Chain a.world.mem.load64 nil a.world.f.list fl) {p : UInt64} (hp : p ∈ a.live)
    {m : Mem64} {lo len : Nat} (hlo : p.toNat ≤ lo) (hlen : lo + len ≤ p.toNat + n)
    (hsame : Mem64.SameOutside a.world.mem m lo len) :
    Chain m.load64 nil a.world.f.list fl := by
  obtain ⟨fl', hc', hfree⟩ := h.owns.free
  obtain rfl := hc.unique hc'
  exact h.owns.toRepr.links_of_live hc hfree hp hlo hlen hsame

/-- Nothing wraps around within a block in use. -/
theorem Books.place (h : Books d n k a P) {p off : UInt64} (hp : p ∈ a.live)
    (hoff : off < a.world.f.size) : (p + off).toNat = p.toNat + off.toNat ∧ off.toNat < n := by
  have hbound := h.owns.bound (Pool.mem_all.mpr (.inl (h.owns.mem_live.mp hp)))
  have hoff := UInt64.lt_iff_toNat_lt.mp hoff
  rw [h.size] at hoff
  refine ⟨?_, hoff⟩
  rw [UInt64.toNat_add, Nat.mod_eq_of_lt (by omega)]

/-- A recycled block does not hold a link of the others. -/
theorem Repr.links_recycled (h : Repr n a P) (hclears : Clears rt) {fl : List UInt64}
    (hc : Chain a.world.mem.load64 nil a.world.f.list (a.world.f.list :: fl)) :
    Chain (a.world.recycled rt).mem.load64 nil (a.world.recycled rt).f.list fl := by
  obtain ⟨fl', hc', hfree⟩ := h.free
  obtain rfl := hc.unique hc'
  have hlink := h.sized.link
  have hsize := h.sized.size
  have hbound := h.bound (mem_all_of_free hfree List.mem_cons_self)
  have hsame := World.recycled_same (w := a.world) hclears (by omega)
  rw [a.world.recycled_f rt]
  refine links_frame hc.tail hsame fun q hq => ?_
  have hpairwise := P.free_pairwise
  rw [hfree, List.map_cons, List.pairwise_cons] at hpairwise
  have hapart := hpairwise.1 q.toNat (List.mem_map_of_mem hq)
  have hq := h.bound (mem_all_of_free hfree (List.mem_cons_of_mem _ hq))
  rw [SlotsApart] at hapart
  omega

namespace InStep

theorem prepared (w : World) (size : UInt64) (hw : w.regions = []) :
    InStep ⟨w.prepared size, []⟩ .empty where
  regions := hw
  chunk := rfl
  nchunk := by simp [World.prepared, Ideal.empty]
  free := .nil
  live := rfl

variable (rt) in
/-- The chunk is refilled when the ideal region is used up. -/
theorem refill (h : InStep a I) (hsized : Sized n a.world) (hlist : a.world.f.list = nil) :
    InStep ⟨a.world.refilled rt, a.live⟩ (I.refill rt.addr a.world.f.size) := by
  obtain ⟨hregions, hchunk, hnchunk, hfree, hlive⟩ := h
  have hempty : a.world.f.nchunk.toUInt64 < a.world.f.size ↔ I.left = 0 :=
    hsized.empty_iff (hsized.size ▸ hnchunk)
  by_cases hlt : a.world.f.nchunk.toUInt64 < a.world.f.size
  · obtain ⟨hregions', _, hf⟩ := World.refilled_of_lt rt hlt
    have hnext : a.world.next rt
        = ⟨rt.addr I.regions.length, fixAllocChunk / a.world.f.size * a.world.f.size⟩ := by
      rw [World.next, hsized.nalloc_eq, hregions, Runtime.addr]
    rw [Ideal.refill, if_pos (hempty.mp hlt)]
    refine ⟨?_, ?_, ?_, ?_, hlive⟩
    · rw [hregions', hnext, hregions]
    · rw [hf, hnext]
    · rw [hf]
      simp only [hsized.size, hsized.nalloc]
    · rw [hlist] at hfree
      rw [hf, hlist, hfree.eq_null_iff.mp rfl]
      exact .nil
  · rw [World.refilled_of_not_lt rt hlt, Ideal.refill, if_neg (mt hempty.mpr hlt)]
    exact ⟨hregions, hchunk, hnchunk, hfree, hlive⟩

/-- A block is cut on both sides. -/
theorem bump (h : InStep a I) (hsized : Sized n a.world) (hleft : I.left ≠ 0) {size : UInt64}
    (hsize : a.world.f.size = size) (p : UInt64) :
    InStep ⟨a.world.bumped, p :: a.live⟩
      (Ideal.handOut p { I with next := I.next + size, left := I.left - 1 }).2 where
  regions := h.regions
  chunk := by
    rw [← hsize]
    exact congrArg (· + a.world.f.size) h.chunk
  nchunk := by
    have hle : n ≤ a.world.f.nchunk.toNat := by
      rw [h.nchunk, hsized.size]
      exact Nat.le_mul_of_pos_left n (Nat.pos_of_ne_zero hleft)
    have hnchunk := hsized.bumped_nchunk hle
    rw [h.nchunk, hsized.size, ← Nat.sub_one_mul, ← hsized.size] at hnchunk
    exact hnchunk
  free := h.free
  live := congrArg (p :: ·) h.live

theorem refill_left (hsized : Sized n a.world) :
    (I.refill rt.addr a.world.f.size).left ≠ 0 := by
  rw [Ideal.refill]
  split
  · obtain ⟨k, hk⟩ := hsized.exists_perChunk
    simp [hsized.size, hk]
  · assumption

variable {V : Version} {out : World → UInt64}

/-- **One call** does the same to the system and to the ideal state. -/
theorem step (h : InStep a I) (hV : V.Cuts out)
    (hout : ∀ w : World, w.f.size.toNat = n → out w = w.f.chunk + d) (hbooks : Books d n k a P)
    (hclears : Clears rt) (hmatched : Matched a op) (hperform : V.perform rt a op = .ok (r, b)) :
    ∃ J, I.call rt.addr a.world.f.size d op = (r, J) ∧ InStep b J := by
  have hsized := hbooks.sized
  cases hV.effect hsized.size_ne_zero hperform with
  | recycle hlist =>
      obtain ⟨rest, hfree, _⟩ := h.free.exists_cons hlist
      have hc := h.free
      rw [hfree] at hc
      have hf := a.world.recycled_f rt
      refine ⟨_, Ideal.alloc_cons _ _ _ hfree, ?_, ?_, ?_, ?_, ?_⟩
      · rw [a.world.recycled_regions rt]
        exact h.regions
      · rw [hf]
        exact h.chunk
      · rw [hf]
        exact h.nchunk
      · exact Repr.links_recycled (a := ⟨a.world.shifted d, a.live⟩) hbooks.owns.toRepr hclears hc
      · exact congrArg (a.world.f.list :: ·) h.live
  | bump hlist =>
      have hfree : I.free = [] := h.free.eq_null_iff.mp hlist
      have hrefill := h.refill rt hsized hlist
      have hsized' := hsized.refilled rt
      have hsize : (a.world.refilled rt).f.size = a.world.f.size :=
        UInt64.toNat_inj.mp (hsized'.size.trans hsized.size.symm)
      have hbump := hrefill.bump hsized' (refill_left hsized) hsize (out (a.world.refilled rt))
      have hplace : out (a.world.refilled rt) = (I.refill rt.addr a.world.f.size).next + d :=
        (hout _ hsized'.size).trans (congrArg (· + d) hrefill.chunk)
      rw [hplace] at hbump ⊢
      exact ⟨_, Ideal.alloc_nil _ _ _ hfree, hbump⟩
  | free p =>
      have hbound := hbooks.owns.bound (Pool.mem_all.mpr (.inl (hbooks.owns.mem_live.mp hmatched)))
      have hlink := hsized.link
      refine ⟨_, rfl, h.regions, h.chunk, h.nchunk, ?_, congrArg (List.erase · p) h.live⟩
      refine .cons (a := p) (fun hnil => ?_) ?_
      · rw [hnil, UInt64.toNat_zero] at hbound
        omega
      · rw [World.freed, Mem64.store64_load64]
        exact hbooks.links_of_live h.free hmatched (Nat.le_refl _) (by omega)
          (Mem64.store64_same _ _ (by omega))
  | write p off byte =>
      obtain ⟨hplace, hoff⟩ := hbooks.place hmatched.1 hmatched.2
      refine ⟨_, rfl, h.regions, h.chunk, h.nchunk, ?_, h.live⟩
      exact hbooks.links_of_live h.free hmatched.1 (by omega) (by omega)
        (Mem64.store8_same _ (p + off) byte)

end InStep

/-! ## The bytes of the blocks -/

/-- The bytes of the blocks in use are those of the ideal state. -/
def Holds (a : Sys) (I : Ideal) : Prop :=
  ∀ p ∈ a.live, ∀ i < a.world.f.size, a.world.mem (p + i) = I.data p i

theorem World.shifted_zero (w : World) : w.shifted 0 = w := by
  have hmap : w.regions.map (Region.shifted 0) = w.regions := by
    refine List.map_id'' (fun r => ?_) _
    rw [Region.shifted, UInt64.add_zero]
  rw [World.shifted, hmap, UInt64.add_zero]

namespace Books

theorem owns_go (h : Books 0 n k a P) : Go.Owns n k a P := by
  have howns := h.owns
  rw [World.shifted_zero] at howns
  exact howns

theorem apart (h : Books d n k a P) {p q : UInt64} (hq : q ∈ a.live) (hp : p ∈ a.live)
    (hne : q ≠ p) : SlotsApart n q.toNat p.toNat :=
  P.live_pairwise.forall (h.owns.mem_live.mp hq) (h.owns.mem_live.mp hp)
    (mt UInt64.toNat_inj.mp hne)

theorem nodup (h : Books d n k a P) : a.live.Nodup := by
  have hlive := P.live_pairwise
  have hlink := h.owns.sized.link
  rw [h.owns.live, List.pairwise_map] at hlive
  refine hlive.imp fun {p q} hapart heq => ?_
  rw [heq, SlotsApart] at hapart
  omega

/-- What changes elsewhere leaves the bytes of a block. -/
theorem same (h : Books d n k a P) {q i : UInt64} (hq : q ∈ a.live) (hi : i < a.world.f.size)
    {m : Mem64} {lo len : Nat} (hsame : Mem64.SameOutside a.world.mem m lo len)
    (hout : q.toNat + n ≤ lo ∨ lo + len ≤ q.toNat) : m (q + i) = a.world.mem (q + i) := by
  obtain ⟨hplace, hlt⟩ := h.place hq hi
  exact hsame _ (by omega)

/-- `alloc` changes no block in use: it clears one that is free, and it gets a
region that is apart from the others. -/
theorem alloc_same (h : Books 0 n k a P) (hclears : Clears rt)
    (hstep : Go.version.Step rt Matched a (.alloc, r) b) {q i : UInt64} (hq : q ∈ a.live)
    (hi : i < a.world.f.size) : b.world.mem (q + i) = a.world.mem (q + i) := by
  obtain ⟨_, hperform, hfresh⟩ := hstep
  have howns := h.owns_go
  have hlive := howns.mem_live.mp hq
  cases Go.cuts.effect h.sized.size_ne_zero hperform with
  | recycle hlist =>
      obtain ⟨fl, hc, hfree⟩ := howns.free
      obtain ⟨rest, rfl, _⟩ := hc.exists_cons hlist
      have hmem : a.world.f.list.toNat ∈ P.free := by
        rw [hfree]
        exact List.mem_cons_self
      have hbound := howns.bound (Pool.mem_all.mpr (.inr (.inl hmem)))
      have hapart := P.live_apart hlive (.inl hmem)
      have hsize := h.size
      rw [SlotsApart] at hapart
      exact h.same hq hi (World.recycled_same hclears (by omega)) (by omega)
  | bump hlist =>
      change (a.world.refilled rt).mem (q + i) = a.world.mem (q + i)
      by_cases hlt : a.world.f.nchunk.toUInt64 < a.world.f.size
      · obtain ⟨hregions, hmem, _⟩ := World.refilled_of_lt rt hlt
        have hfresh : Fresh (a.world.regions ++ [a.world.next rt]) := by
          rw [← hregions]
          exact hfresh
        obtain ⟨s, hs, hle, hstop⟩ := howns.inside q.toNat (Pool.mem_all.mpr (.inl hlive))
        have hnew : a.world.next rt ∈ a.world.regions ++ [a.world.next rt] := by simp
        have hapart := (List.pairwise_append.mp hfresh.2).2.2 s hs _ (List.mem_singleton.mpr rfl)
        have hbound := hfresh.bound hnew
        rw [Region.Apart] at hapart
        rw [hmem]
        exact h.same hq hi (Mem64.overlay_same _ _ hbound.2) (hapart.imp hstop.trans fun hle' =>
          hle'.trans hle)
      · rw [World.refilled_of_not_lt rt hlt]

end Books

theorem Ideal.alloc_data {addr : Nat → UInt64} {size lag : UInt64}
    (h : I.alloc addr size lag = (r, J)) : J.data = Function.update I.data r fun _ => 0 := by
  cases hfree : I.free with
  | cons p rest =>
      rw [Ideal.alloc_cons _ _ _ hfree] at h
      cases h
      rfl
  | nil =>
      rw [Ideal.alloc_nil _ _ _ hfree] at h
      cases h
      simp only [Ideal.refill]
      split <;> rfl

/-- **A step** of the Go version does to the bytes what it does to those of the
ideal state. -/
theorem Holds.step (h : Holds a I) (hbooks : Books 0 n k a P) (hclean : Clean a.world)
    (hclears : Clears rt) (hzeroed : Zeroed rt)
    (hstep : Go.version.Step rt Matched a (op, r) b) {k' : Nat} {P' : Pool (SlotsApart n)}
    (hbooks' : Books 0 n k' b P') (hcall : I.call rt.addr a.world.f.size 0 op = (r, J)) :
    Holds b J := by
  have hsize : b.world.f.size = a.world.f.size :=
    UInt64.toNat_inj.mp (hbooks'.size.trans hbooks.size.symm)
  intro q hq i hi
  rw [hsize] at hi
  have heffect := Go.cuts.effect hbooks.sized.size_ne_zero hstep.2.1
  cases op with
  | alloc =>
      have hzero := (hclean.step hclears hzeroed hbooks.owns_go hstep).2 rfl
      rw [Ideal.alloc_data hcall]
      by_cases hqr : q = r
      · obtain ⟨hplace, hlt⟩ := hbooks'.place hq (hsize.symm ▸ hi)
        rw [hqr] at hplace ⊢
        rw [Function.update_self]
        exact hzero (r + i) (by omega) (by omega)
      · rw [heffect.live_alloc, List.mem_cons] at hq
        have hq := hq.resolve_left hqr
        rw [Function.update_of_ne hqr, hbooks.alloc_same hclears hstep hq hi]
        exact h q hq i hi
  | free p =>
      cases hcall
      cases heffect
      obtain ⟨hne, hq⟩ := hbooks.nodup.mem_erase_iff.mp hq
      have hp : p ∈ a.live := hstep.1
      have hbound := hbooks.owns.bound (Pool.mem_all.mpr (.inl (hbooks.owns.mem_live.mp hp)))
      have hlink := hbooks.sized.link
      have hapart := hbooks.apart hq hp hne
      rw [SlotsApart] at hapart
      exact (hbooks.same hq hi (Mem64.store64_same _ _ (by omega)) (by omega)).trans (h q hq i hi)
  | write p off byte =>
      cases hcall
      cases heffect
      obtain ⟨hp, hoff⟩ := hstep.1
      obtain ⟨hplace, hlt⟩ := hbooks.place hp hoff
      have hstored := Mem64.store8_same a.world.mem (p + off) byte
      by_cases hqp : q = p
      · rw [hqp] at hq ⊢
        dsimp only
        rw [Function.update_self]
        by_cases hio : i = off
        · rw [hio, Function.update_self]
          exact Function.update_self ..
        · have hne : p + i ≠ p + off := fun heq => hio (by simpa using heq)
          rw [Function.update_of_ne hio, ← h p hq i hi]
          exact Function.update_of_ne hne ..
      · have hapart := hbooks.apart hq hp hqp
        rw [SlotsApart] at hapart
        dsimp only
        rw [Function.update_of_ne hqp, ← h q hq i hi]
        exact hbooks.same hq hi hstored (by omega)

/-! ## Runs -/

theorem Go.out_eq (w : World) (_ : w.f.size.toNat = n) : Go.out w = w.f.chunk + 0 :=
  (UInt64.add_zero _).symm

/-- The C version hands out the pointer behind the block. -/
theorem C.out_eq {size : UInt64} (hsize : size.toNat = n) (w : World) (hw : w.f.size.toNat = n) :
    C.out w = w.f.chunk + size := by
  rw [← UInt64.toNat_inj.mp (hw.trans hsize.symm)]
  rfl

/-- No region reaches over the end of the address space. -/
theorem Fresh.roomy {rs : List Region} (h : Fresh rs) :
    ∀ r ∈ rs, r.stop + (0 : UInt64).toNat ≤ 2 ^ 64 := fun _ hr => (h.bound hr).2

/-- The system keeps its books and is in step with the ideal state. -/
structure Related (d : UInt64) (n : Nat) (a : Sys) (I : Ideal) : Prop extends InStep a I where
  books : ∃ k P, Books d n k a P

namespace Related

variable {V : Version} {out : World → UInt64} {size : UInt64} {l : Op × UInt64}

theorem prepared {w : World} (h : Sized n (w.prepared size)) (hw : w.regions = []) :
    Related d n ⟨w.prepared size, []⟩ .empty where
  toInStep := .prepared w size hw
  books := ⟨0, _, .start h hw rfl rfl rfl⟩

theorem size_eq (h : Related d n a I) (hsize : size.toNat = n) : a.world.f.size = size := by
  obtain ⟨k, P, hbooks⟩ := h.books
  exact UInt64.toNat_inj.mp (hbooks.size.trans hsize.symm)

theorem allowed_iff (h : Related d n a I) (hsize : size.toNat = n) :
    I.Allowed size op ↔ Matched a op := by
  cases op with
  | alloc => exact .rfl
  | free p => rw [Ideal.Allowed, Matched, h.live]
  | write p off byte => rw [Ideal.Allowed, Matched, h.live, h.size_eq hsize]

/-- A step of a version is one of the ideal allocator. -/
theorem forward (h : Related d n a I) (hV : V.Cuts out)
    (hout : ∀ w : World, w.f.size.toNat = n → out w = w.f.chunk + d) (hsize : size.toNat = n)
    (hclears : Clears rt) (hstep : V.Step rt Matched a l b)
    (hroom : ∀ r ∈ b.world.regions, r.stop + d.toNat ≤ 2 ^ 64) :
    ∃ J, I.Allowed size l.1 ∧ I.call rt.addr size d l.1 = (l.2, J) ∧ Related d n b J := by
  obtain ⟨k, P, hbooks⟩ := h.books
  obtain ⟨J, hcall, hnext⟩ := h.step hV hout hbooks hclears hstep.1 hstep.2.1
  rw [h.size_eq hsize] at hcall
  exact ⟨J, (h.allowed_iff hsize).mpr hstep.1, hcall, hnext, hbooks.step hV hout hclears hstep hroom⟩

/-- A step of the ideal allocator is one of the version. -/
theorem backward (h : Related d n a I) (hV : V.Cuts out)
    (hout : ∀ w : World, w.f.size.toNat = n → out w = w.f.chunk + d) (hsize : size.toNat = n)
    (hclears : Clears rt) (hallowed : I.Allowed size l.1)
    (hcall : I.call rt.addr size d l.1 = (l.2, J)) (hfresh : Fresh J.regions)
    (hroom : ∀ r ∈ J.regions, r.stop + d.toNat ≤ 2 ^ 64) :
    ∃ b, V.Step rt Matched a l b ∧ Related d n b J := by
  obtain ⟨k, P, hbooks⟩ := h.books
  have hmatched := (h.allowed_iff hsize).mp hallowed
  obtain ⟨r, b, hperform⟩ : ∃ r b, V.perform rt a l.1 = .ok (r, b) :=
    hV.returns hbooks.sized.size_ne_zero l.1
  obtain ⟨J', hcall', hnext⟩ := h.step hV hout hbooks hclears hmatched hperform
  rw [h.size_eq hsize, hcall] at hcall'
  obtain ⟨rfl, rfl⟩ := Prod.ext_iff.mp hcall'
  rw [← hnext.regions] at hfresh hroom
  have hstep : V.Step rt Matched a l b := ⟨hmatched, hperform, hfresh⟩
  exact ⟨b, hstep, hnext, hbooks.step hV hout hclears hstep hroom⟩

end Related

/-- In step, and the bytes of the blocks are those of the ideal state. -/
structure Faithful (n : Nat) (a : Sys) (I : Ideal) : Prop extends Related 0 n a I where
  clean : Clean a.world
  holds : Holds a I

theorem Faithful.prepared {w : World} {size : UInt64} (h : Sized n (w.prepared size))
    (hw : w.regions = []) : Faithful n ⟨w.prepared size, []⟩ .empty where
  toRelated := .prepared h hw
  clean := .prepared w size
  holds p hp := by cases hp

/-- A step of the Go version keeps the bytes in step as well. -/
theorem Faithful.next (h : Faithful n a I) (hclears : Clears rt) (hzeroed : Zeroed rt)
    {size : UInt64} (hsize : size.toNat = n) {l : Op × UInt64}
    (hstep : Go.version.Step rt Matched a l b) (hcall : I.call rt.addr size 0 l.1 = (l.2, J))
    (hnext : Related 0 n b J) : Faithful n b J := by
  obtain ⟨k, P, hbooks⟩ := h.books
  obtain ⟨k', P', hbooks'⟩ := hnext.books
  rw [← h.size_eq hsize] at hcall
  exact ⟨hnext, (h.clean.step hclears hzeroed hbooks.owns_go hstep).1,
    h.holds.step hbooks h.clean hclears hzeroed hstep hbooks' hcall⟩

/-- What a client of the Go version has: the regions, the free blocks in the
order in which they will be handed out, its own blocks, and the bytes in them. -/
structure Refines (a : Sys) (I : Ideal) : Prop where
  regions : a.world.regions = I.regions
  free : Chain a.world.mem.load64 nil a.world.f.list I.free
  live : a.live = I.live
  bytes : ∀ p ∈ I.live, ∀ i < a.world.f.size, a.world.mem (p + i) = I.data p i

theorem Faithful.refines (h : Faithful n a I) : Refines a I where
  regions := h.regions
  free := h.free
  live := h.live
  bytes p hp := h.holds p (h.live ▸ hp)

/-- **The Go version is a stack of blocks over a sequence of regions.** For
every size that `init` takes, the runs of allocations, matched frees and stores
inside live blocks are just those of the ideal allocator, call for call and
answer for answer, and in every state the free list is its stack and every byte
of a live block is what was stored there, or zero. -/
theorem fixalloc_refines (hclears : Clears rt) (hzeroed : Zeroed rt) {size : UInt64}
    (hsize : size ≤ fixAllocChunk) {w : World} (hw : w.regions = []) :
    ∃ w₀, (Go.init size).run w = .ok ((), w₀) ∧ w₀.f.size.toNat = max size.toNat 8 ∧
      (∀ tr a, Run (Go.version.Step rt Matched) ⟨w₀, []⟩ tr a →
        ∃ tr' I, Run (Ideal.Step rt.addr w₀.f.size 0 Fresh) .empty tr' I ∧
          labels tr' = labels tr ∧ Refines a I) ∧
      ∀ tr I, Run (Ideal.Step rt.addr w₀.f.size 0 Fresh) .empty tr I →
        ∃ tr' a, Run (Go.version.Step rt Matched) ⟨w₀, []⟩ tr' a ∧
          labels tr' = labels tr ∧ Refines a I := by
  obtain ⟨n, hsized, hn⟩ := Sized.prepared hsize hw
  have hstart : Faithful n ⟨w.prepared size, []⟩ .empty := .prepared hsized hw
  refine ⟨w.prepared size, Go.run_init hsize, hn ▸ hsized.size, fun tr a hrun => ?_,
    fun tr I hrun => ?_⟩
  · have hsim : ∀ a l b I, Faithful n a I → Go.version.Step rt Matched a l b →
        ∃ J, I.Step rt.addr (w.prepared size).f.size 0 Fresh l J ∧ Faithful n b J := by
      intro a l b I h hstep
      have hfresh := hstep.2.2
      obtain ⟨J, hallowed, hcall, hnext⟩ :=
        h.forward Go.cuts Go.out_eq hsized.size hclears hstep hfresh.roomy
      exact ⟨J, ⟨hallowed, hcall, hnext.regions ▸ hfresh⟩,
        h.next hclears hzeroed hsized.size hstep hcall hnext⟩
    obtain ⟨tr', I, hrun', hlabels, hfaithful⟩ := hrun.simulation hstart hsim
    exact ⟨tr', I, hrun', hlabels, hfaithful.refines⟩
  · have hsim : ∀ I l J a, Faithful n a I → I.Step rt.addr (w.prepared size).f.size 0 Fresh l J →
        ∃ b, Go.version.Step rt Matched a l b ∧ Faithful n b J := by
      intro I l J a h hstep
      obtain ⟨hallowed, hcall, hfresh⟩ := hstep
      obtain ⟨b, hstep', hnext⟩ :=
        h.backward Go.cuts Go.out_eq hsized.size hclears hallowed hcall hfresh hfresh.roomy
      exact ⟨b, hstep', h.next hclears hzeroed hsized.size hstep' hcall hnext⟩
    obtain ⟨tr', a, hrun', hlabels, hfaithful⟩ :=
      hrun.simulation (R := fun I a => Faithful n a I) hstart hsim
    exact ⟨tr', a, hrun', hlabels, hfaithful.refines⟩

/-- The block that was freed last is handed out first. -/
theorem fixalloc_refines_stack : ∃ tr a I,
    Run (Go.version.Step (regionsFrom 0x10000 0x4000) Matched)
      ⟨World.blank.prepared 24, []⟩ tr a ∧
    labels tr = [(.alloc, 0x10000), (.alloc, 0x10018), (.write 0x10018 7 5, nil),
      (.free 0x10000, nil), (.free 0x10018, nil), (.alloc, 0x10018)] ∧ Refines a I := by
  obtain ⟨w₀, hinit, _, hall, _⟩ := fixalloc_refines (regionsFrom_clears 0x10000 0x4000)
    (fun _ _ => rfl) (show 24 ≤ fixAllocChunk by decide) (show World.blank.regions = [] from rfl)
  rw [Go.run_init (by decide)] at hinit
  cases hinit
  obtain ⟨tr, a, hrun, hlabels, _⟩ := Version.exists_run Go.version (regionsFrom 0x10000 0x4000)
    Matched ⟨World.blank.prepared 24, []⟩
    [.alloc, .alloc, .write 0x10018 7 5, .free 0x10000, .free 0x10018, .alloc]
    [0x10000, 0x10018, nil, nil, nil, 0x10018] (fun _ => ()) () (by decide +kernel)
  obtain ⟨_, I, _, _, hrefines⟩ := hall tr a hrun
  exact ⟨tr, a, I, hrun, hlabels, hrefines⟩

/-! ## The C version -/

/-- A step of a version in a process. -/
def Version.UserStep (V : Version) (rt : Runtime) (a : Sys) (l : Op × UInt64) (b : Sys) : Prop :=
  V.Step rt Matched a l b ∧ UserSpace b.world.regions

/-- Regions below the end of the address space leave room for nothing more. -/
theorem Version.roomy {V : Version} {s : Sys} {tr : List ((Op × UInt64) × Sys)}
    (hrun : Run (V.Step rt Matched) s tr a) :
    Run (fun a l b => V.Step rt Matched a l b ∧
      ∀ r ∈ b.world.regions, r.stop + (0 : UInt64).toNat ≤ 2 ^ 64) s tr a :=
  (hrun.mono (I := fun _ => True) trivial fun _ _ _ _ hstep =>
    ⟨⟨hstep, hstep.2.2.roomy⟩, trivial⟩).1

/-- Those of a process leave room for as much again. -/
theorem Version.user_roomy {V : Version} {s : Sys} {tr : List ((Op × UInt64) × Sys)}
    (hd : d.toNat ≤ 2 ^ 63) (hrun : Run (V.UserStep rt) s tr a) :
    Run (fun a l b => V.Step rt Matched a l b ∧
      ∀ r ∈ b.world.regions, r.stop + d.toNat ≤ 2 ^ 64) s tr a := by
  refine (hrun.mono (I := fun _ => True) trivial fun _ _ b _ hstep => ?_).1
  refine ⟨⟨hstep.1, fun r hr => ?_⟩, trivial⟩
  have hstop := hstep.2 r hr
  omega

section UserRuns

variable {V : Version} {out : World → UInt64} {size : UInt64} {w : World}

/-- The runs of a version are those of the ideal allocator with its lag. -/
theorem Related.user_runs (hV : V.Cuts out)
    (hout : ∀ w : World, w.f.size.toNat = n → out w = w.f.chunk + d) (hclears : Clears rt)
    (hsized : Sized n (w.prepared size)) (hw : w.regions = []) (hd : d.toNat ≤ 2 ^ 63) :
    (∀ tr a, Run (V.UserStep rt) ⟨w.prepared size, []⟩ tr a →
      ∃ tr' I, Run (Ideal.Step rt.addr (w.prepared size).f.size d
          fun rs => Fresh rs ∧ UserSpace rs) .empty tr' I ∧
        labels tr' = labels tr ∧ Related d n a I) ∧
    ∀ tr I, Run (Ideal.Step rt.addr (w.prepared size).f.size d
        fun rs => Fresh rs ∧ UserSpace rs) .empty tr I →
      ∃ tr' a, Run (V.UserStep rt) ⟨w.prepared size, []⟩ tr' a ∧
        labels tr' = labels tr ∧ Related d n a I := by
  have hroom : ∀ rs, UserSpace rs → ∀ r ∈ rs, r.stop + d.toNat ≤ 2 ^ 64 := by
    intro rs hrs r hr
    have hstop := hrs r hr
    omega
  have hstart : Related d n ⟨w.prepared size, []⟩ .empty := .prepared hsized hw
  constructor
  · refine fun tr a hrun => hrun.simulation hstart fun a l b I h hstep => ?_
    obtain ⟨hstep, huser⟩ := hstep
    obtain ⟨J, hallowed, hcall, hnext⟩ :=
      h.forward hV hout hsized.size hclears hstep (hroom _ huser)
    have hregions := hnext.regions
    exact ⟨J, ⟨hallowed, hcall, hregions ▸ hstep.2.2, hregions ▸ huser⟩, hnext⟩
  · refine fun tr I hrun => hrun.simulation (R := fun I a => Related d n a I) hstart
      fun I l J a h hstep => ?_
    obtain ⟨hallowed, hcall, hfresh, huser⟩ := hstep
    obtain ⟨b, hstep, hnext⟩ :=
      h.backward hV hout hsized.size hclears hallowed hcall hfresh (hroom _ huser)
    exact ⟨b, ⟨hstep, hnext.regions ▸ huser⟩, hnext⟩

end UserRuns

/-- The same regions, counters and lists, the pointers `d` bytes apart. -/
structure Twins (d : UInt64) (a c : Sys) : Prop where
  regions : c.world.regions = a.world.regions
  live : c.live = a.live.map (· + d)
  free : ∃ fl, Chain a.world.mem.load64 nil a.world.f.list fl ∧
    Chain c.world.mem.load64 nil c.world.f.list (fl.map (· + d))

theorem Related.twins {c : Sys} (ha : Related 0 n a I) (hc : Related d n c (I.moved d)) :
    Twins d a c where
  regions := hc.regions.trans ha.regions.symm
  live := by
    rw [hc.live, ha.live]
    rfl
  free := ⟨I.free, ha.free, hc.free⟩

/-- **The C version is the Go version with its blocks moved.** Over the same
regions of a process, the two have the same runs, except that each pointer of a
client of the C version is one block size higher. -/
theorem fixalloc_moved (hclears : Clears rt) {size : UInt64} (hsize : size ≤ fixAllocChunk)
    {w : World} (hw : w.regions = []) :
    ∃ w₀, (Go.init size).run w = .ok ((), w₀) ∧ (C.init size).run w = .ok ((), w₀) ∧
      (∀ tr a, Run (Go.version.UserStep rt) ⟨w₀, []⟩ tr a →
        ∃ tr' c, Run (C.version.UserStep rt) ⟨w₀, []⟩ tr' c ∧
          labels tr' = (labels tr).map (moved w₀.f.size) ∧ Twins w₀.f.size a c) ∧
      ∀ tr c, Run (C.version.UserStep rt) ⟨w₀, []⟩ tr c →
        ∃ tr' a, Run (Go.version.UserStep rt) ⟨w₀, []⟩ tr' a ∧
          labels tr = (labels tr').map (moved w₀.f.size) ∧ Twins w₀.f.size a c := by
  obtain ⟨n, hsized, hn⟩ := Sized.prepared hsize hw
  obtain ⟨hgo, hgo'⟩ := Related.user_runs Go.cuts Go.out_eq hclears hsized hw (Nat.zero_le _)
  obtain ⟨hc, hc'⟩ :=
    Related.user_runs C.cuts (C.out_eq hsized.size) hclears hsized hw hsized.size_le
  refine ⟨w.prepared size, Go.run_init hsize, C.run_init hsize, fun tr a hrun => ?_,
    fun tr c hrun => ?_⟩
  · obtain ⟨tr₁, I, hrun₁, hlabels₁, hrelated⟩ := hgo tr a hrun
    obtain ⟨tr₂, hrun₂, hlabels₂⟩ := Ideal.run_moved (w.prepared size).f.size hrun₁
    rw [UInt64.zero_add] at hrun₂
    obtain ⟨tr', c, hrun', hlabels', hrelated'⟩ := hc' tr₂ _ hrun₂
    exact ⟨tr', c, hrun', by rw [hlabels', hlabels₂, hlabels₁], hrelated.twins hrelated'⟩
  · obtain ⟨tr₁, I, hrun₁, hlabels₁, hrelated⟩ := hc tr c hrun
    obtain ⟨tr₂, hrun₂, hlabels₂⟩ := Ideal.run_moved (-(w.prepared size).f.size) hrun₁
    rw [UInt64.add_right_neg] at hrun₂
    obtain ⟨tr', a, hrun', hlabels', hrelated'⟩ := hgo' tr₂ _ hrun₂
    refine ⟨tr', a, hrun', ?_, hrelated'.twins ?_⟩
    · rw [hlabels', hlabels₂, hlabels₁, map_moved_neg]
    · rw [Ideal.moved_neg]
      exact hrelated

/-- A run of two blocks of 6000 bytes, and the same in C. -/
theorem fixalloc_moved_reused : ∃ tr a tr' c,
    Run (Go.version.UserStep (regionsFrom 0x10000 0x4000)) ⟨World.blank.prepared 6000, []⟩ tr a ∧
    labels tr = [(.alloc, 0x10000), (.alloc, 0x11770), (.free 0x10000, nil), (.alloc, 0x10000)] ∧
    Run (C.version.UserStep (regionsFrom 0x10000 0x4000)) ⟨World.blank.prepared 6000, []⟩ tr' c ∧
    labels tr' = [(.alloc, 0x11770), (.alloc, 0x12ee0), (.free 0x11770, nil), (.alloc, 0x11770)] ∧
    Twins 6000 a c := by
  obtain ⟨tr, a, hrun, hlabels, _⟩ := Version.exists_run Go.version (regionsFrom 0x10000 0x4000)
    (fun a op => Matched a op ∧
      ∀ p ∈ (Go.version.perform (regionsFrom 0x10000 0x4000) a op).toOption,
        UserSpace p.2.world.regions)
    ⟨World.blank.prepared 6000, []⟩ [.alloc, .alloc, .free 0x10000, .alloc]
    [0x10000, 0x11770, nil, 0x10000] (fun _ => ()) () (by decide +kernel)
  have huser : Run (Go.version.UserStep (regionsFrom 0x10000 0x4000))
      ⟨World.blank.prepared 6000, []⟩ tr a :=
    (hrun.mono (I := fun _ => True) trivial fun a l b _ hstep => by
      obtain ⟨hallowed, hperform, hfresh⟩ := hstep
      refine ⟨⟨⟨hallowed.1, hperform, hfresh⟩, hallowed.2 (l.2, b) ?_⟩, trivial⟩
      rw [hperform]
      rfl).1
  obtain ⟨w₀, hinit, _, hall, _⟩ := fixalloc_moved (regionsFrom_clears 0x10000 0x4000)
    (show 6000 ≤ fixAllocChunk by decide) (show World.blank.regions = [] from rfl)
  rw [Go.run_init (by decide)] at hinit
  cases hinit
  obtain ⟨tr', c, hrun', hlabels', htwins⟩ := hall tr a huser
  refine ⟨tr, a, tr', c, huser, hlabels, hrun', ?_, htwins⟩
  rw [hlabels', hlabels]
  decide

end Challenges.Slab

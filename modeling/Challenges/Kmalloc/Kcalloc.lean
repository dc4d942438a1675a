import Challenges.Kmalloc.Contents

/-!
# Kcalloc — zeroed memory for a product of two numbers

`kcalloc` multiplies in 32 bits and clears what it asked for without a look
at the pointer. A product that wraps is served with a smaller block, one of
the top class with a page, and a request that is refused has its bytes
cleared from null on. `kcalloc_safe_iff` says when none of this happens.
-/

namespace Challenges.Kmalloc

open Challenges.Lib Challenges.Kmalloc.Port

/-- What a caller of `kcalloc` may expect, `p` being the product and `n` the
bytes that are cleared: null, and nothing is written, not even a zero over a
zero; or a new block of `p` zeroed bytes. -/
def CallocSafe (a : Sys Statics) (n : UInt32) (p : Nat) (r : UInt32) (t : Machine Statics) :
    Prop :=
  (r = null ∧ n = 0 ∧ t.mem = (started a.machine).mem) ∨
    ∃ y ∈ carved t.log, y.ptr = r ∧ p ≤ y.usable ∧
      -- live: the client did not have it, and it is on no list
      ¬ Held a.live r ∧ t.mem y.addr = magic ∧ (∀ b k, ¬ FreeAt ⟨t, a.live⟩ b k y.addr) ∧
      (∀ i < p, t.mem (r + UInt32.ofNat i) = 0) ∧
      ∀ z ∈ carved a.machine.log, z ≠ y →
        Mem.SameInside a.machine.mem t.mem z.addr.toNat z.size

/-- The request has a class with a block, or `sbrk` grants one. -/
def Served (s : Machine Statics) (n : UInt32) : Prop :=
  ∃ b : Fin nbuckets, sizeClass n.toNat = some b.val ∧ ¬ Refused s b

instance (s : Machine Statics) (n : UInt32) : Decidable (Served s n) :=
  inferInstanceAs
    (Decidable (∃ b : Fin nbuckets, sizeClass n.toNat = some b.val ∧ ¬ Refused s b))

section Kcalloc

variable {s t u : Machine Statics} {live : List Handle} {S S' : Stock Block.bucket}
  {x y z : Block} {n r : UInt32}

/-- The machine after the `memset`. -/
def cleared (u : Machine Statics) (r n : UInt32) : Machine Statics :=
  { u with mem := u.mem.fill r 0 n }

theorem run_kcalloc {nelem elsize : UInt32}
    (h : (Port.kmalloc release (nelem * elsize)).run s = .ok (r, u)) :
    (Port.kcalloc release nelem elsize).run s = .ok (r, cleared u r (nelem * elsize)) := by
  simp only [Port.kcalloc, release_mulU32, StateT.run_bind, pure_bind, h, ok_bind, run_memset]
  rfl

theorem Obtains.ne_null_iff {s₀ : Machine Statics} (h : Obtains s₀ S n r S')
    (howns : Owns t live S') (hready : s₀.vars.pageBucket = 9) : r ≠ null ↔ Served s₀ n := by
  constructor
  · intro hr
    obtain ⟨y, _, _, hclass, hserved⟩ := h.block hr
    exact ⟨y.bucket, hclass hready, hserved⟩
  · intro hserved
    obtain ⟨b, hclass, hrefused⟩ := hserved
    exact fun hr => hrefused ((h.null_iff howns hready hclass).mp hr)

/-- No block has more than the largest request, also one of the top class. -/
theorem Owns.usable_le (h : Owns s live S) (hx : S.Has x) : x.usable ≤ maxReq := by
  obtain ⟨hb, hsize⟩ := h.size x ((h.has x).mp hx)
  have hroom : ∀ b : Fin 29, room b.val ≤ maxReq + 4 := by decide
  have hle : room x.bucket ≤ maxReq + 4 := hroom ⟨x.bucket, hb⟩
  rw [Block.usable, hsize]
  omega

/-- A product that the classes serve does not wrap. -/
theorem toNat_product {nelem elsize : UInt32} (h : nelem.toNat * elsize.toNat ≤ maxReq) :
    (nelem * elsize).toNat = nelem.toNat * elsize.toNat := by
  have hword : maxReq < 2 ^ 32 := by decide
  rw [UInt32.toNat_mul, Nat.mod_eq_of_lt (by omega)]

/-- A served product within the classes is a cleared block. -/
theorem Repr.kcalloc_served (h : Repr ⟨s, live⟩ S) (hmax : n.toNat ≤ maxReq)
    (hmalloc : (Port.kmalloc release n).run s = .ok (r, u)) (hfresh : Fresh u.log)
    (hready : (started s).vars.pageBucket = 9) (hr : r ≠ null) :
    CallocSafe ⟨s, live⟩ n n.toNat r (cleared u r n) := by
  obtain ⟨S', hrepr, hobtains⟩ := h.kmalloc hmalloc hfresh
  obtain ⟨y, hy, rfl, hfit, _⟩ := hobtains.fits hready (.inl hmax) hrepr.owns hr
  have hin := hrepr.owns.inside (.inl hy)
  have hptr := hrepr.owns.ptr_toNat (.inl hy)
  have hfill : Mem.SameOutside u.mem (cleared u y.ptr n).mem y.ptr.toNat n.toNat :=
    Mem.fill_same _ _ (by omega)
  have howns : Owns (cleared u y.ptr n) (handOut y.ptr n live) S' :=
    hrepr.owns.payload_frame (.inl hy) 0 hfill (by omega)
  have hrepr' : Repr ⟨cleared u y.ptr n, handOut y.ptr n live⟩ S' :=
    ⟨howns, hrepr.mode.congr rfl rfl rfl⟩
  refine .inr ⟨y, (hrepr.owns.has y).mp (.inl hy), rfl, by rw [Block.usable]; omega, ?_,
    (howns.header y hy).1, ?_, ?_, ?_⟩
  · -- it was not held before
    intro hheld
    obtain ⟨z, hz, hzptr⟩ := h.owns.exists_held hheld
    exact hobtains.ptr_ne hrepr.owns hz hzptr
  · intro b k hfree
    exact S'.apart b y (List.mem_of_getElem? ((hrepr'.freeAt (.inl hy)).mp hfree)) hy
  · intro i hi
    have haddr : (y.ptr + UInt32.ofNat i).toNat = y.ptr.toNat + i :=
      Mem.toNat_add_ofNat (by omega)
    exact Mem.fill_inside (by omega) (by omega) (by omega)
  · intro z hz hne
    have hzhas := (h.owns.has z).mpr hz
    have hz' : S'.Has z := hobtains.move.1.has_mono hzhas
    have hzptr : z.ptr ≠ y.ptr := fun heq => hne (hrepr.owns.ptr_inj hz' (.inl hy) heq)
    have hapart := hrepr.owns.apart hz' (.inl hy) hne
    rw [Block.Apart] at hapart
    exact ((h.kmalloc_frame hmalloc hfresh hzhas).2 hzptr).trans (hfill.apart (by omega))

/-- A product that is turned down is cleared from null on: as many bytes as it
has in 32 bits. -/
theorem Repr.kcalloc_null (h : Repr ⟨s, live⟩ S)
    (hmalloc : (Port.kmalloc release n).run s = .ok (null, u)) (hfresh : Fresh u.log) {p : Nat} :
    CallocSafe ⟨s, live⟩ n p null (cleared u null n) ↔ n = 0 := by
  obtain ⟨S', hrepr, _⟩ := h.kmalloc hmalloc hfresh
  obtain ⟨more, hu⟩ := h.kmalloc_null hmalloc hfresh
  constructor
  · intro hsafe
    rcases hsafe with ⟨_, hzero, _⟩ | ⟨y, hy, hptr, _⟩
    · exact hzero
    · exact absurd hptr (hrepr.owns.ptr_ne_null ((hrepr.owns.has y).mpr hy))
  · intro hzero
    refine .inl ⟨rfl, hzero, ?_⟩
    have hsame : (cleared u null n).mem = u.mem := by
      rw [hzero]
      exact Mem.fill_zero u.mem null 0
    rw [hsame, hu]

end Kcalloc

end Challenges.Kmalloc

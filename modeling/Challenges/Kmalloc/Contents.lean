import Challenges.Kmalloc.Ownership

/-!
# Contents — the bytes of blocks across calls

Which bytes of a block a call leaves alone. `kmalloc` writes only the header
of the block it hands out and memory that `sbrk` has just granted, `kfree`
only a header, and the `memcpy` of `realloc` only the payload of the new
block. So a moved block keeps its bytes, also because the block that was
freed for it is of another class than the one obtained. A `realloc` that
returns null has done its `kfree` all the same.
-/

namespace Challenges.Kmalloc

open Challenges.Lib Challenges.Kmalloc.Port

/-- The bytes of a block that its owner may use. -/
def Block.usable (x : Block) : Nat := x.size - 4

/-! ## `kmalloc` -/

section Frames

variable {s t : Machine Statics} {live : List Handle} {S : Stock Block.bucket}
  {x z : Block} {n r : UInt32}

/-- A write to the header of `x` leaves the payload of `x` and all of every
other block. -/
theorem Owns.header_frame (h : Owns s live S) (hx : S.Has x) (hz : S.Has z) {m m' : Mem}
    (hm : Mem.SameOutside m m' x.addr.toNat 4) :
    Mem.SameInside m m' z.ptr.toNat z.usable ∧
      (z ≠ x → Mem.SameInside m m' z.addr.toNat z.size) := by
  have hptr := h.ptr_toNat hz
  have hxsize := h.size_ge hx
  have hzsize := h.size_ge hz
  rw [Block.usable, hptr]
  by_cases hne : z = x
  · subst hne
    exact ⟨hm.apart (by omega), fun hne => absurd rfl hne⟩
  · have hapart := h.apart hz hx hne
    rw [Block.Apart] at hapart
    exact ⟨hm.apart (by omega), fun _ => hm.apart (by omega)⟩

/-- What unlinking the first block of a bucket changes. -/
theorem Owns.unlinked_frame (h : Owns s live S) {b : Fin nbuckets} {rest : List Block}
    (hp : S.parked b = x :: rest) (hz : S.Has z) :
    Mem.SameInside s.mem (Port.unlinked s b).mem z.ptr.toNat z.usable ∧
      (z ≠ x → Mem.SameInside s.mem (Port.unlinked s b).mem z.addr.toNat z.size) := by
  have hx : S.Has x := Stock.has_of_parked (hp ▸ List.mem_cons_self)
  have hin := h.inside hx
  have hsize := h.size_ge hx
  exact h.header_frame hx hz (unlinked_same (h.nextf_eq hp) (by omega))

/-- What serving from a bucket changes in a block that was carved before: at
most its header, and that only when it is the block that is handed out. -/
theorem Owns.taken_frame (h : Owns s live S) {b : Fin nbuckets} (hb : b.val < 29)
    (hfresh : Fresh (Port.taken s b).2.log) (hz : S.Has z) :
    Mem.SameInside s.mem (Port.taken s b).2.mem z.ptr.toNat z.usable ∧
      (z.ptr ≠ (Port.taken s b).1 →
        Mem.SameInside s.mem (Port.taken s b).2.mem z.addr.toNat z.size) := by
  cases h.taking hb hfresh with
  | hit hp _ htaken =>
      rw [htaken]
      obtain ⟨hpayload, hwhole⟩ := h.unlinked_frame hp hz
      exact ⟨hpayload, fun hptr => hwhole fun heq => hptr (heq ▸ rfl)⟩
  | refuse _ _ hmem _ htaken =>
      rw [htaken]
      dsimp only
      rw [hmem]
      exact ⟨.refl _ _ _, fun _ => .refl _ _ _⟩
  | refill hp _ hret hlog _ hcls hnd hnew howns htaken =>
      obtain ⟨_, hfit, hout⟩ := h.carved_region hb hret hlog
      have hsize := h.size_ge hz
      have hptr := h.ptr_toNat hz
      have hout := hout z hz
      have hregion := afterMorecore_same hb hret hfit
      -- the region that was granted is not the block's
      have hblock : Mem.SameInside s.mem (afterMorecore s b).mem z.addr.toNat z.size :=
        hregion.apart (by omega)
      have hpayload : Mem.SameInside s.mem (afterMorecore s b).mem z.ptr.toNat z.usable := by
        rw [Block.usable, hptr]
        exact hregion.apart (by omega)
      have hzfill : (S.fill hcls hnd hnew).Has z :=
        (Stock.has_fill hcls hnd hnew hp).mpr (.inl hz)
      obtain ⟨hpayload', hblock'⟩ :=
        howns.unlinked_frame (Stock.fill_parked hcls hnd hnew) hzfill
      rw [htaken]
      exact ⟨hpayload.trans hpayload',
        fun hptr => hblock.trans (hblock' fun heq => hptr (heq ▸ rfl))⟩

/-- Where there is a block, the first call has been made. -/
theorem Repr.page {a : Sys Statics} (h : Repr a S) (hz : S.Has z) :
    a.machine.vars.pageSz = 4096 := by
  cases h.mode with
  | unset _ _ hlog =>
      have hnone := (h.owns.has z).mp hz
      rw [hlog] at hnone
      cases hnone
  | ready hpage _ => exact hpage
  | failed hpage _ _ => exact hpage

/-- **What `kmalloc` changes** in a block that was carved before. -/
theorem Repr.kmalloc_frame (h : Repr ⟨s, live⟩ S)
    (hrun : (Port.kmalloc release n).run s = .ok (r, t)) (hfresh : Fresh t.log)
    (hz : S.Has z) :
    Mem.SameInside s.mem t.mem z.ptr.toNat z.usable ∧
      (z.ptr ≠ r → Mem.SameInside s.mem t.mem z.addr.toNat z.size) := by
  have hstarted := started_eq (h.page hz)
  rcases kmalloc_cases h.mode hrun with ⟨_, rfl, _⟩ | ⟨b, hb, htaken, _⟩
  · rw [hstarted]
    exact ⟨.refl _ _ _, fun _ => .refl _ _ _⟩
  · rw [hstarted] at htaken
    obtain ⟨rfl, rfl⟩ := Prod.ext_iff.mp htaken
    exact h.owns.taken_frame hb hfresh hz

/-- A request of a class is turned down when `sbrk` refuses the class. -/
theorem Obtains.null_iff {s₀ : Machine Statics} {S' : Stock Block.bucket} {b : Fin nbuckets}
    (h : Obtains s₀ S n r S') (howns : Owns t live S') (hready : s₀.vars.pageBucket = 9)
    (hclass : sizeClass n.toNat = some b.val) : r = null ↔ Refused s₀ b := by
  cases h with
  | none _ hnone =>
      rw [hnone hready] at hclass
      cases hclass
  | @served c o _ _ _ hret hc hnew _ hrefused =>
      rw [hc hready] at hclass
      have hcb : c = b := Fin.ext (Option.some.inj hclass)
      subst hcb
      rw [← hrefused]
      cases o with
      | none => exact iff_of_true hret rfl
      | some y =>
          rw [hret]
          exact iff_of_false (howns.ptr_ne_null (.inl (hnew y rfl).2.1)) (by simp)

/-- A block in use is not the one that is handed out. -/
theorem Obtains.ptr_ne {s₀ : Machine Statics} {S' : Stock Block.bucket}
    (h : Obtains s₀ S n r S') (howns : Owns t live S') (hz : z ∈ S.held) : z.ptr ≠ r := by
  intro heq
  cases h with
  | none hnull _ => exact howns.ptr_ne_null (.inl hz) (heq.trans hnull)
  | @served b o _ hb hserve hret hclass hnew _ _ =>
      have hz' : z ∈ S'.held := by
        rw [hserve.held_eq]
        exact List.mem_append_right _ hz
      cases o with
      | none => exact howns.ptr_ne_null (.inl hz') (heq.trans hret)
      | some y =>
          obtain ⟨_, hy, hnotHeld⟩ := hnew y rfl
          rw [howns.ptr_inj (.inl hz') (.inl hy) (heq.trans hret)] at hz
          exact hnotHeld hz

end Frames

/-! ## `realloc` -/

/-- What a `realloc` of the block `x` that returned `r` keeps: `y` is the
block it returned. -/
structure Kept (a : Sys Statics) (x : Block) (n r : UInt32) (b : Sys Statics) (y : Block) :
    Prop where
  /-- the result is a live block with room for the request -/
  block : y ∈ carved b.machine.log ∧ y.ptr = r ∧ Held b.live r ∧ n.toNat ≤ y.usable
  /-- the bytes of the old block that fit are in the new one -/
  bytes : ∀ i < min n.toNat x.usable,
    b.machine.mem (r + UInt32.ofNat i) = a.machine.mem (x.ptr + UInt32.ofNat i)
  /-- every other live block is as it was, its header included -/
  others : ∀ z ∈ carved a.machine.log, Held a.live z.ptr → z ≠ x →
    Held b.live z.ptr ∧ Mem.SameInside a.machine.mem b.machine.mem z.addr.toNat z.size
  old : Held b.live x.ptr ↔ r = x.ptr
  /-- the two arguments of `memcpy` do not overlap -/
  apart : r ≠ x.ptr → x.Apart y

section Realloc

variable {fuel : Nat} {a b : Sys Statics} {S : Stock Block.bucket} {x : Block}
  {n r : UInt32}

theorem usable_eq {s : Machine Statics} {live : List Handle} (h : Owns s live S)
    (hx : S.Has x) (hbelow : x.bucket.val < 28) : x.usable = cap x.bucket := by
  rw [Block.usable, (h.size x ((h.has x).mp hx)).2, room_eq hbelow, Nat.add_sub_cancel]

theorem toNat_cap {b : Nat} (hb : b < 28) : (UInt32.ofNat (cap b)).toNat = cap b := by
  have h : ∀ b : Fin 28, (UInt32.ofNat (cap b.val)).toNat = cap b.val := by decide
  exact h ⟨b, hb⟩

/-- The bytes that `realloc` copies. -/
theorem toNat_copied (n z : UInt32) : (if n < z then n else z).toNat = min n.toNat z.toNat := by
  split
  · rename_i hlt
    rw [UInt32.lt_iff_toNat_lt] at hlt
    omega
  · rename_i hge
    rw [UInt32.lt_iff_toNat_lt] at hge
    omega

theorem toNat_copyLen {b : Nat} (hb : b < 28) :
    (if n < UInt32.ofNat (cap b) then n else UInt32.ofNat (cap b)).toNat
      = min n.toNat (cap b) := by
  rw [toNat_copied, toNat_cap hb]

/-- The copy of a `realloc` stays in the payload of the block that was obtained. -/
theorem Repr.copy_obtained {s₀ u : Machine Statics} {live : List Handle}
    {S₀ S' : Stock Block.bucket} {c : Nat} (h : Repr ⟨u, live⟩ S') (hobtains : Obtains s₀ S₀ n r S')
    (hready : s₀.vars.pageBucket = 9) (hclear : Clear s₀ n) (hc : c < 28) (cp : UInt32) :
    Repr ⟨if r = null ∨ cp = r then u else copied u r cp n (UInt32.ofNat (cap c)), live⟩ S' := by
  split
  · exact h
  · rename_i hcopy
    obtain ⟨y, hy, rfl, hroom, _⟩ := hobtains.fits hready hclear h.owns (not_or.mp hcopy).1
    have hlen := toNat_copyLen (n := n) hc
    exact h.copy_inside hy (by omega)

theorem held_handOut {live : List Handle} {p : UInt32} :
    Held (handOut r n live) p ↔ (r ≠ null ∧ r = p) ∨ Held live p := by
  by_cases hr : r = null
  · simp [hr]
  · simp [handOut_ne hr, Held, hr]

theorem held_takeBack {live : List Handle} {cp p : UInt32} :
    Held (takeBack cp live) p ↔ p ≠ cp ∧ Held live p := by
  simp only [Held, takeBack, List.mem_filter, decide_eq_true_eq]
  constructor
  · intro h
    obtain ⟨e, ⟨he, hne⟩, rfl⟩ := h
    exact ⟨hne, e, he, rfl⟩
  · intro h
    obtain ⟨hne, e, he, rfl⟩ := h
    exact ⟨e, ⟨he, hne⟩, rfl⟩

/-- What freeing the block `x` and then obtaining another one changes. -/
theorem Repr.moved_frame {s u : Machine Statics} {live : List Handle} {z : Block}
    (h : Repr ⟨s, live⟩ S) (hx : x ∈ S.held)
    (hmalloc : (Port.kmalloc release n).run (pushed s x.bucket x.addr) = .ok (r, u))
    (hfresh : Fresh u.log) (hz : S.Has z) :
    Mem.SameInside s.mem u.mem z.ptr.toNat z.usable ∧
      (z ≠ x → z.ptr ≠ r → Mem.SameInside s.mem u.mem z.addr.toNat z.size) := by
  have hin := h.owns.inside (.inl hx)
  have hsize := h.owns.size_ge (.inl hx)
  have hheader : Mem.SameOutside s.mem (pushed s x.bucket x.addr).mem x.addr.toNat 4 :=
    Mem.store32_same _ _ (by omega)
  obtain ⟨hpayload, hwhole⟩ := h.owns.header_frame (.inl hx) hz hheader
  have hzgive : (S.give hx).Has z := (Stock.has_give hx).mpr hz
  obtain ⟨hpayload', hwhole'⟩ := (h.kfree hx).kmalloc_frame hmalloc hfresh hzgive
  exact ⟨hpayload.trans hpayload', fun hne hptr => (hwhole hne).trans (hwhole' hptr)⟩

/-- The rest of `Kept` follows from what the call did to the memory. -/
theorem Repr.keeps {s t : Machine Statics} {live : List Handle} {S' : Stock Block.bucket}
    {y : Block} (h : Repr ⟨s, live⟩ S) (hx : x ∈ S.held)
    (h' : Repr ⟨t, handOut r n (takeBack x.ptr live)⟩ S')
    (hobtains : Obtains (pushed s x.bucket x.addr) (S.give hx) n r S')
    (hy : y ∈ S'.held) (hptr : r = y.ptr) (hfit : n.toNat + 4 ≤ y.size)
    (hbytes : ∀ i < min n.toNat x.usable,
      t.mem (r + UInt32.ofNat i) = s.mem (x.ptr + UInt32.ofNat i))
    (hothers : ∀ z, S.Has z → z ≠ x → z.ptr ≠ r →
      Mem.SameInside s.mem t.mem z.addr.toNat z.size) :
    Kept ⟨s, live⟩ x n r ⟨t, handOut r n (takeBack x.ptr live)⟩ y := by
  have hr : r ≠ null := hptr ▸ h'.owns.ptr_ne_null (.inl hy)
  have hrheld : Held (handOut r n (takeBack x.ptr live)) r := held_handOut.mpr (.inl ⟨hr, rfl⟩)
  have hxhas' : S'.Has x := hobtains.move.1.has_mono ((Stock.has_give hx).mpr (.inl hx))
  constructor
  case block =>
    exact ⟨(h'.owns.has y).mp (.inl hy), hptr.symm, hrheld, by rw [Block.usable]; omega⟩
  case bytes => exact hbytes
  case others =>
    intro z hz hzheld hne
    have hzhas := (h.owns.has z).mpr hz
    have hzx : z.ptr ≠ x.ptr := fun heq => hne (h.owns.ptr_inj hzhas (.inl hx) heq)
    have hzgive : z ∈ (S.give hx).held := by
      rw [Stock.give_held]
      exact List.mem_filter.mpr ⟨(h.held_iff hzhas).mp hzheld, by simpa using hne⟩
    exact ⟨held_handOut.mpr (.inr (held_takeBack.mpr ⟨hzx, hzheld⟩)),
      hothers z hzhas hne (hobtains.ptr_ne h'.owns hzgive)⟩
  case old =>
    rw [held_handOut, held_takeBack]
    constructor
    · intro hheld
      rcases hheld with ⟨_, heq⟩ | ⟨hne, _⟩
      · exact heq
      · exact absurd rfl hne
    · exact fun heq => .inl ⟨hr, heq⟩
  case apart =>
    intro hne
    exact h'.owns.apart hxhas' (.inl hy) fun heq => hne (heq ▸ hptr)

/-- A request of another class is served from another block. -/
theorem Obtains.ne_freed {s t : Machine Statics} {live : List Handle}
    {S' : Stock Block.bucket} (hx : x ∈ S.held)
    (h : Obtains (pushed s x.bucket x.addr) (S.give hx) n r S') (howns : Owns t live S')
    (hready : s.vars.pageBucket = 9) (hclass : sizeClass n.toNat ≠ some x.bucket.val)
    (hr : r ≠ null) : x.ptr ≠ r := by
  obtain ⟨y, hy, rfl, hyclass, _⟩ := h.block hr
  intro heq
  have hxhas' : S'.Has x := h.move.1.has_mono ((Stock.has_give hx).mpr (.inl hx))
  rw [howns.ptr_inj hxhas' (.inl hy) heq] at hclass
  exact hclass (hyclass hready)

/-- What `realloc` does to the memory: the old payload is in the new block,
and other blocks are left alone. -/
theorem Repr.realloc_frame {s t : Machine Statics} {live : List Handle}
    {S' : Stock Block.bucket} {y : Block} (h : Repr ⟨s, live⟩ S) (hx : x ∈ S.held)
    (hbelow : x.bucket.val < 28) (hpage : s.vars.pageSz = 4096)
    (hready : s.vars.pageBucket = 9) (hn : n ≠ 0)
    (hrun : (Port.realloc release fuel x.ptr n).run s = .ok (r, t)) (hfresh : Fresh t.log)
    (h' : Repr ⟨t, handOut r n (takeBack x.ptr live)⟩ S')
    (hobtains : Obtains (pushed s x.bucket x.addr) (S.give hx) n r S')
    (hy : y ∈ S'.held) (hptr : r = y.ptr) (hfit : n.toNat + 4 ≤ y.size) :
    (∀ i < min n.toNat x.usable,
      t.mem (r + UInt32.ofNat i) = s.mem (x.ptr + UInt32.ofNat i)) ∧
    ∀ z, S.Has z → z ≠ x → z.ptr ≠ r → Mem.SameInside s.mem t.mem z.addr.toNat z.size := by
  rcases h.owns.realloc_cases hx hpage hrun with
    ⟨h0, _⟩ | ⟨_, _, rfl, rfl⟩ | ⟨_, hclass, u, hmalloc, ht⟩
  · exact absurd h0 hn
  · -- the block is kept
    exact ⟨fun _ _ => rfl, fun _ _ _ _ => .refl _ _ _⟩
  · have hr : r ≠ null := hptr ▸ h'.owns.ptr_ne_null (.inl hy)
    have hne : ¬ (r = null ∨ x.ptr = r) :=
      not_or.mpr ⟨hr, hobtains.ne_freed hx h'.owns hready hclass hr⟩
    rw [if_neg hne] at ht
    have hfreshu : Fresh u.log := by
      rw [ht] at hfresh
      exact hfresh
    have husable := usable_eq h.owns (.inl hx) hbelow
    have hlen := toNat_copyLen (n := n) hbelow
    have hyin := h'.owns.inside (.inl hy)
    have hyptr := h'.owns.ptr_toNat (.inl hy)
    rw [← hptr] at hyptr
    constructor
    · -- the copy reads the old payload, which the calls before it left alone
      intro i hi
      have hpayload := (h.moved_frame hx hmalloc hfreshu (.inl hx)).1
      have hxptr := h.owns.ptr_toNat (.inl hx)
      have hxin := h.owns.inside (.inl hx)
      have hsize := h.owns.size_ge (.inl hx)
      have hread : t.mem (r + UInt32.ofNat i) = u.mem (x.ptr + UInt32.ofNat i) := by
        rw [ht]
        apply Mem.copy_inside
        rwa [hlen, ← husable]
      rw [hread]
      apply hpayload.byte rfl
      · omega
      · rw [Block.usable]
        omega
    · -- the copy stays in the payload of the new block
      intro z hz hzx hzr
      have hblock := (h.moved_frame hx hmalloc hfreshu hz).2 hzx hzr
      have hz' : S'.Has z := hobtains.move.1.has_mono ((Stock.has_give hx).mpr hz)
      have hapart := h'.owns.apart hz' (.inl hy) fun heq => hzr (heq ▸ hptr.symm)
      rw [Block.Apart] at hapart
      have hcopy : Mem.SameOutside u.mem t.mem r.toNat (min n.toNat (cap x.bucket)) := by
        rw [ht, ← hlen]
        apply Mem.copy_same
        omega
      exact hblock.trans (hcopy.apart (by omega))

end Realloc

/-- **`realloc` preserves contents**: in every state that a client reaches
without a block of the top class, a call that does not return null hands out
a live block with the bytes of the old one, as many as fit in both. -/
theorem realloc_preserves {fuel : Nat} {mem : Mem} {os : Nat → UInt32}
    {tr : List ((Call × UInt32) × Sys Statics)} {a b : Sys Statics} {x : Block} {n r : UInt32}
    (hrun : Run ((Port.allocator fuel).Step Careful SbrkOk)
      (Sys.start Statics.initial mem os) tr a)
    (hs : (Port.allocator fuel).Step Disciplined SbrkOk a (.realloc x.ptr n, r) b)
    (hx : x ∈ carved a.machine.log) (hn : n ≠ 0) (hr : r ≠ null) :
    ∃ y, Kept a x n r b y := by
  obtain ⟨S, hrepr, hfits, hok⟩ := careful_run hrun
  obtain ⟨⟨hle, hallowed⟩, hperform, hfresh, _⟩ := hs
  have hxhas := (hrepr.owns.has x).mpr hx
  have hxheld :=
    (hrepr.held_iff hxhas).mp (hallowed.resolve_left (hrepr.owns.ptr_ne_null hxhas))
  have hpage := hrepr.mode.page hrepr.owns hxheld
  have hready := hrepr.mode.bucket hpage hok
  obtain ⟨t, hrealloc, rfl⟩ := perform_realloc.mp hperform
  obtain ⟨S', hrepr', hobtains⟩ :=
    hrepr.realloc hxheld hpage hready hn (.inl hle) hrealloc hfresh
  obtain ⟨y, hy, hptr, hfit, _⟩ := hobtains.fits hready (.inl hle) hrepr'.owns hr
  obtain ⟨hbytes, hothers⟩ := hrepr.realloc_frame hxheld (hfits.below x hxhas) hpage hready hn
    hrealloc hfresh hrepr' hobtains hy hptr hfit
  exact ⟨y, hrepr.keeps hxheld hrepr' hobtains hy hptr hfit hbytes hothers⟩

/-- A byte of a block of 32 bytes is still there when the block is moved to
one of 128. -/
theorem realloc_preserves_move : ∃ a b y, Kept a ⟨4092, 2, 32⟩ 100 8192 b y ∧
    a.machine.mem 4098 = 7 := by
  obtain ⟨tr, a, hrun, _, hobs⟩ := exists_run_of_observe
    (show (Port.allocator 0).observe Disciplined SbrkOk [.kmalloc 16, .write 4096 2 7]
      (boot twoRegions) (fun a => (decide (⟨4092, 2, 32⟩ ∈ carved a.machine.log),
        a.machine.mem 4098,
        (Port.allocator 0).observe Disciplined SbrkOk [.realloc 4096 100] a fun _ => true))
        = some ([4096, 0], true, 7, some ([8192], true)) by decide +kernel)
  simp only [Prod.mk.injEq, decide_eq_true_eq] at hobs
  obtain ⟨hx, hbyte, hmove⟩ := hobs
  obtain ⟨_, b, hrun', hlabels, _⟩ := exists_run_of_observe hmove
  have hptr : Block.ptr ⟨4092, 2, 32⟩ = 4096 := by decide
  replace hlabels : labels _ = [(Call.realloc 4096 100, (8192 : UInt32))] := hlabels
  have hstep := hrun'.of_labels_singleton hlabels
  rw [← hptr] at hstep
  obtain ⟨y, hkept⟩ := realloc_preserves (run_careful hrun) hstep hx (by decide) (by decide)
  exact ⟨a, b, y, hkept, hbyte⟩

/-! ## A `realloc` that fails -/

/-- `b` is `a` with the block `x` freed, and nothing else. -/
structure Freed (a : Sys Statics) (x : Block) (b : Sys Statics) : Prop where
  mem : b.machine.mem = a.machine.mem.store32 x.addr (a.machine.vars.nextf x.bucket)
  nextf : b.machine.vars.nextf = Function.update a.machine.vars.nextf x.bucket x.addr
  live : b.live = takeBack x.ptr a.live
  /-- the block is the first one of its list, and on no other -/
  first : FreeAt b x.bucket 0 x.addr
  only : ∀ c k, FreeAt b c k x.addr → c = x.bucket ∧ k = 0
  /-- its bytes are still there -/
  contents : Mem.SameInside a.machine.mem b.machine.mem x.ptr.toNat x.usable
  others : ∀ z ∈ carved a.machine.log, z ≠ x →
    Mem.SameInside a.machine.mem b.machine.mem z.addr.toNat z.size
  /-- the next request for its bucket gets it -/
  again : ∀ k, Selects b.machine k x.bucket →
    ∃ t, (Port.kmalloc release k).run b.machine = .ok (x.ptr, t)

section Failing

variable {fuel : Nat} {s t : Machine Statics} {live : List Handle} {S : Stock Block.bucket}
  {x : Block} {n : UInt32}

/-- What is left of a `morecore` that `sbrk` refuses. -/
theorem taken_refused {b : Fin nbuckets} (h : Refused s b) :
    taken s b = (null, { s with log := s.log ++ [growCall b sbrkFailed] }) := by
  obtain ⟨hnull, hret⟩ := h
  rw [taken, refilled, if_pos hnull, afterMorecore_refused hret, if_pos hnull]

/-- A `kmalloc` that returns null has called `sbrk` at most, in vain. -/
theorem Repr.kmalloc_null (h : Repr ⟨s, live⟩ S)
    (hrun : (Port.kmalloc release n).run s = .ok (null, t)) (hfresh : Fresh t.log) :
    ∃ more, t = { started s with log := (started s).log ++ more } := by
  rcases kmalloc_cases h.mode hrun with ⟨_, rfl, _⟩ | ⟨b, hb, htaken, _⟩
  · exact ⟨[], by rw [List.append_nil]⟩
  · obtain ⟨hret, rfl⟩ := Prod.ext_iff.mp htaken
    have howns := h.owns.started_of_taken h.mode hfresh
    obtain ⟨o, S', _, ho, howns', hnew, _, hrefused⟩ := howns.taken hb hfresh n
    cases o with
    | some y =>
        have hy := (hnew y rfl).2.1
        exact absurd (hret.trans ho).symm (howns'.ptr_ne_null (.inl hy))
    | none =>
        rw [taken_refused (hrefused.mp rfl)]
        exact ⟨_, rfl⟩

/-- The stock is what it was. -/
theorem Obtains.eq_of_null {s₀ : Machine Statics} {S' : Stock Block.bucket}
    (h : Obtains s₀ S n null S') (howns : Owns t live S') : S' = S := by
  cases h with
  | none _ _ => rfl
  | @served b o _ hb hserve hret hclass hnew _ _ =>
      cases o with
      | some y => exact absurd hret.symm (howns.ptr_ne_null (.inl (hnew y rfl).2.1))
      | none =>
          cases hserve with
          | refuse _ => rfl

/-- `kmalloc` serves a request from the list of the bucket it selects. -/
theorem Repr.kmalloc_first (h : Repr ⟨s, live⟩ S) (hpage : s.vars.pageSz = 4096)
    {b : Fin nbuckets} {rest : List Block} (hparked : S.parked b = x :: rest)
    (hselect : Selects s n b) :
    (Port.kmalloc release n).run s = .ok (x.ptr, unlinked s b) := by
  have hx : x ∈ S.parked b := hparked ▸ List.mem_cons_self
  have hb := (h.owns.size x ((h.owns.has x).mp (Stock.has_of_parked hx))).1
  rw [S.parked_cls b x hx] at hb
  have hne : ¬ s.vars.nextf b = null := by
    rw [h.owns.nextf_null, hparked]
    simp
  rw [run_kmalloc hpage]
  rw [Selects] at hselect
  simp only [serve, StateT.run_bind, hselect, ok_bind, run_takeBlock hb hpage,
    taken_of_ne (if_neg hne) hne]
  rw [h.owns.nextf_eq hparked]
  rfl

/-- **A `realloc` that returns null** has freed the block all the same. -/
theorem Repr.freed {b : Sys Statics} (h : Repr ⟨s, live⟩ S) (hx : x ∈ S.held)
    (hpage : s.vars.pageSz = 4096) (hn : n ≠ 0)
    (hperform : (Port.allocator fuel).perform ⟨s, live⟩ (.realloc x.ptr n) = .ok (null, b))
    (hfresh : Fresh b.machine.log) : Freed ⟨s, live⟩ x b := by
  obtain ⟨t, hrun, rfl⟩ := perform_realloc.mp hperform
  have hnull := h.owns.ptr_ne_null (.inl hx)
  rcases h.owns.realloc_cases hx hpage hrun with
    ⟨h0, _⟩ | ⟨_, _, heq, _⟩ | ⟨_, _, u, hmalloc, ht⟩
  · exact absurd h0 hn
  · exact absurd heq.symm hnull
  · -- the block is freed first, and then the new one is refused
    rw [if_pos (.inl rfl)] at ht
    subst ht
    have hpushed : (pushed s x.bucket x.addr).vars.pageSz = 4096 := hpage
    obtain ⟨S', hrepr, hobtains⟩ := (h.kfree hx).kmalloc hmalloc hfresh
    obtain ⟨more, ht⟩ := (h.kfree hx).kmalloc_null hmalloc hfresh
    rw [started_eq hpushed] at ht
    have hS := hobtains.eq_of_null hrepr.owns
    have hvars : t.vars = (pushed s x.bucket x.addr).vars := by rw [ht]
    have hparked : S'.parked x.bucket = x :: S.parked x.bucket := by
      rw [hS]
      exact Function.update_self ..
    have hhas : S'.Has x := Stock.has_of_parked (hparked ▸ List.mem_cons_self)
    have hmem : t.mem = s.mem.store32 x.addr (s.vars.nextf x.bucket) := by
      rw [ht]
      rfl
    have hin := h.owns.inside (.inl hx)
    have hsize := h.owns.size_ge (.inl hx)
    have hheader : Mem.SameOutside s.mem t.mem x.addr.toNat 4 := by
      rw [hmem]
      exact Mem.store32_same _ _ (by omega)
    constructor
    case mem => exact hmem
    case nextf => exact congrArg Statics.nextf hvars
    case live => exact handOut_null n _
    case first =>
      rw [hrepr.freeAt hhas, hparked]
      rfl
    case only =>
      intro c k hfree
      rw [hrepr.freeAt hhas] at hfree
      have hc := S'.parked_cls c x (List.mem_of_getElem? hfree)
      subst hc
      have hnodup := S'.parked_nodup x.bucket
      rw [hparked] at hfree hnodup
      -- at the head, and not again behind it
      cases k with
      | zero => exact ⟨rfl, rfl⟩
      | succ k =>
          rw [List.getElem?_cons_succ] at hfree
          exact absurd (List.mem_of_getElem? hfree) (List.nodup_cons.mp hnodup).1
    case contents => exact (h.owns.header_frame (.inl hx) (.inl hx) hheader).1
    case others =>
      intro z hz hne
      exact (h.owns.header_frame (.inl hx) ((h.owns.has z).mpr hz) hheader).2 hne
    case again =>
      intro k hselect
      have hpage' : t.vars.pageSz = 4096 := by
        rw [hvars]
        exact hpage
      exact ⟨_, hrepr.kmalloc_first hpage' hparked hselect⟩

end Failing

/-- **A failed `realloc`** leaves the block on its free list: nothing else has
changed, and the next request for its bucket gets it. The first call may have
failed. -/
theorem failed_realloc {fuel : Nat} {mem : Mem} {os : Nat → UInt32}
    {tr : List ((Call × UInt32) × Sys Statics)} {a b : Sys Statics} {x : Block} {n : UInt32}
    (hrun : Run ((Port.allocator fuel).Step Tame Fresh)
      (Sys.start Statics.initial mem os) tr a)
    (hx : x ∈ carved a.machine.log) (hheld : Held a.live x.ptr) (hn : n ≠ 0)
    (hperform : (Port.allocator fuel).perform a (.realloc x.ptr n) = .ok (null, b))
    (hfresh : Fresh b.machine.log) : Freed a x b := by
  obtain ⟨S, hrepr, _⟩ := tame_run hrun
  have hxheld := (hrepr.held_iff ((hrepr.owns.has x).mpr hx)).mp hheld
  exact hrepr.freed hxheld (hrepr.mode.page hrepr.owns hxheld) hn hperform hfresh

/-- `sbrk` answers with one page at 4092, and refuses every later call. -/
def onePage : Nat → UInt32 := fun k => if k ≤ 1 then 4092 else sbrkFailed

theorem failed_realloc_refused : ∃ a b, Freed a ⟨4092, 2, 32⟩ b := by
  obtain ⟨tr, a, hrun, _, hobs⟩ := exists_run_of_observe
    (show (Port.allocator 0).observe Tame Fresh [.kmalloc 16] (boot onePage)
      (fun a => (decide (⟨4092, 2, 32⟩ ∈ carved a.machine.log), decide (Held a.live 4096),
        (Port.allocator 0).observe Tame Fresh [.realloc 4096 5000] a fun _ => true))
        = some ([4096], true, true, some ([0], true)) by decide +kernel)
  simp only [Prod.mk.injEq, decide_eq_true_eq] at hobs
  obtain ⟨hx, hheld, hmove⟩ := hobs
  obtain ⟨_, b, hrun', hlabels, _⟩ := exists_run_of_observe hmove
  have hptr : Block.ptr ⟨4092, 2, 32⟩ = 4096 := by decide
  replace hlabels : labels _ = [(Call.realloc 4096 5000, null)] := hlabels
  obtain ⟨_, hperform, hfresh⟩ := hrun'.of_labels_singleton hlabels
  rw [← hptr] at hheld hperform
  exact ⟨a, b, failed_realloc hrun hx hheld (by decide) hperform hfresh⟩

/-- The client still has 4096 after the `realloc` that returned null, and the
next `kmalloc` returns it. -/
theorem failed_realloc_again : ∃ tr a,
    Run ((Port.allocator 0).Step Disciplined SbrkOk) (boot onePage) tr a ∧
    labels tr = [(.kmalloc 16, 4096), (.realloc 4096 5000, null), (.kmalloc 16, 4096)] := by
  obtain ⟨tr, a, hrun, hlabels, _⟩ := exists_run_of_observe
    (show (Port.allocator 0).observe Disciplined SbrkOk
      [.kmalloc 16, .realloc 4096 5000, .kmalloc 16] (boot onePage) (fun _ => true)
        = some ([4096, 0, 4096], true) by decide +kernel)
  exact ⟨tr, a, hrun, hlabels⟩

end Challenges.Kmalloc

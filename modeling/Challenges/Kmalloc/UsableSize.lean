import Challenges.Kmalloc.Classes

/-!
# UsableSize — what `kmalloc_usable_size` reports

The header of a block in use holds the index of its class, and
`kmalloc_usable_size` returns that index. The number of bytes that it stands
for is `cap`: the request fits in it, the block has it, and `realloc` keeps
the block for it and moves it for one byte more. No index is such a number.
-/

namespace Challenges.Kmalloc

open Challenges.Lib Challenges.Kmalloc.Port

/-- `size` bytes at the pointer of `e` are what its owner may use. -/
structure Usable (fuel : Nat) (a : Sys Statics) (e : Handle) (size : UInt32) : Prop where
  /-- the request fits -/
  request : e.req ≤ size
  /-- so many bytes lie inside the block -/
  inside : ∀ x ∈ carved a.machine.log, x.ptr = e.ptr → size.toNat ≤ x.usable
  /-- `realloc` to that size returns the pointer -/
  exact : size ≠ 0 → ∃ b, (Port.allocator fuel).perform a (.realloc e.ptr size) = .ok (e.ptr, b) ∧
    SbrkOk b.machine.log
  /-- and to one byte more does not -/
  more : ∀ r b, (Port.allocator fuel).perform a (.realloc e.ptr (size + 1)) = .ok (r, b) →
    SbrkOk b.machine.log → r ≠ e.ptr

section Table

theorem sizeClass_cap {b : Nat} (hb : b < 29) : sizeClass (cap b) = some b :=
  sizeClass_eq_some.mpr ⟨Nat.le_refl _, hb, fun _ hc => cap_strictMono hc⟩

theorem sizeClass_cap_succ {b : Nat} : sizeClass (cap b + 1) ≠ some b := by
  intro h
  have := (sizeClass_eq_some.mp h).1
  omega

/-- The index of a class is too small a request for the class. -/
theorem sizeClass_index {b : Nat} (hb : b ≠ 0) : sizeClass b ≠ some b := by
  intro h
  have hprev := (sizeClass_eq_some.mp h).2.2 (b - 1) (by omega)
  have hlt : b - 1 < 2 ^ (b - 1) := Nat.lt_two_pow_self
  have hpow : 2 ^ (b - 1 + 3) = 2 ^ (b - 1) * 8 := Nat.pow_add ..
  rw [cap] at hprev
  split at hprev <;> omega

theorem toNat_cap_succ {b : Nat} (hb : b < 28) :
    (UInt32.ofNat (cap b) + 1).toNat = cap b + 1 := by
  have h : ∀ b : Fin 28, (UInt32.ofNat (cap b.val) + 1).toNat = cap b.val + 1 := by decide
  exact h ⟨b, hb⟩

end Table

section Block

variable {fuel : Nat} {s : Machine Statics} {live : List Handle} {S : Stock Block.bucket}
  {x : Block} {n : UInt32}

theorem run_kmallocUsableSize {cp : UInt32} (hcp : cp ≠ null) :
    (kmallocUsableSize release cp).run s
      = .ok ((s.mem (cp - overheadSize + 1)).toUInt32, s) := by
  simp [kmallocUsableSize, if_neg hcp]

/-- **What is reported** for a block in use. -/
theorem Owns.run_usableSize (h : Owns s live S) (hx : x ∈ S.held) :
    (kmallocUsableSize release x.ptr).run s = .ok (UInt32.ofNat x.bucket.val, s) := by
  have hindex := (h.header x hx).2
  rw [run_kmallocUsableSize (h.ptr_ne_null (.inl hx)), Owns.ptr_sub]
  have hval : (s.mem (x.addr + 1)).toUInt32 = UInt32.ofNat x.bucket.val := by
    apply UInt32.toNat_inj.mp
    rw [toNat_bucket, UInt8.toNat_toUInt32, hindex]
  rw [hval]

/-- `realloc` returns the pointer when the request is of the block's class,
and then does nothing else. -/
theorem Repr.realloc_same_iff (h : Repr ⟨s, live⟩ S) (hx : x ∈ S.held)
    (hpage : s.vars.pageSz = 4096) (hready : s.vars.pageBucket = 9) (hok : InitOk s.log)
    (hn : n ≠ 0) :
    (∃ b, (Port.allocator fuel).perform ⟨s, live⟩ (.realloc x.ptr n) = .ok (x.ptr, b) ∧
        SbrkOk b.machine.log) ↔ sizeClass n.toNat = some x.bucket.val := by
  constructor
  · intro hsame
    obtain ⟨b, hperform, hfresh, _⟩ := hsame
    obtain ⟨t, hrun, rfl⟩ := perform_realloc.mp hperform
    by_contra hclass
    exact h.realloc_ne hx hpage hready hn hclass hrun hfresh
  · intro hclass
    have hrun := h.owns.run_realloc hx hpage hn fuel
    rw [if_pos hclass] at hrun
    exact ⟨_, perform_realloc.mpr ⟨s, hrun, rfl⟩, h.owns.fresh, hok⟩

/-- The capacity of the class is usable. -/
theorem Sound.usable_cap (h : Sound ⟨s, live⟩ S) (hx : x ∈ S.held) {e : Handle} (he : e ∈ live)
    (hptr : x.ptr = e.ptr) : Usable fuel ⟨s, live⟩ e (UInt32.ofNat (cap x.bucket)) := by
  obtain ⟨hrepr, hfit, hok⟩ := h
  have hbelow := hfit.below x (.inl hx)
  have hpage := hrepr.mode.page hrepr.owns hx
  have hready := hrepr.mode.bucket hpage hok
  have husable := usable_eq hrepr.owns (.inl hx) hbelow
  have hcap := toNat_cap hbelow
  have hsucc := toNat_cap_succ hbelow
  constructor
  case request =>
    have hreq := hfit.fits e he x hx hptr.symm
    rw [UInt32.le_iff_toNat_le, hcap, ← husable, Block.usable]
    omega
  case inside =>
    intro y hy hyptr
    have hyx := hrepr.owns.ptr_inj ((hrepr.owns.has y).mpr hy) (.inl hx) (hyptr.trans hptr.symm)
    rw [hyx]
    omega
  case exact =>
    intro hne
    rw [← hptr, hrepr.realloc_same_iff hx hpage hready hok hne, hcap]
    exact sizeClass_cap (by omega)
  case more =>
    intro r b hperform henv heq
    have hne : UInt32.ofNat (cap x.bucket) + 1 ≠ 0 := by
      intro h0
      rw [h0] at hsucc
      simp at hsucc
    rw [heq, ← hptr] at hperform
    have hclass := (hrepr.realloc_same_iff hx hpage hready hok hne).mp ⟨b, hperform, henv⟩
    rw [hsucc] at hclass
    exact sizeClass_cap_succ hclass

/-- The index of the class is not. -/
theorem Sound.not_usable_index (h : Sound ⟨s, live⟩ S) (hx : x ∈ S.held) {e : Handle}
    (hptr : x.ptr = e.ptr) : ¬ Usable fuel ⟨s, live⟩ e (UInt32.ofNat x.bucket.val) := by
  obtain ⟨hrepr, hfit, hok⟩ := h
  have hpage := hrepr.mode.page hrepr.owns hx
  have hready := hrepr.mode.bucket hpage hok
  intro husable
  by_cases hzero : x.bucket.val = 0
  · -- the smallest blocks are kept for one byte
    have hclass : sizeClass (1 : UInt32).toNat = some x.bucket.val := by
      rw [hzero]
      decide
    obtain ⟨b, hperform, henv⟩ :=
      (hrepr.realloc_same_iff hx hpage hready hok (by decide)).mpr hclass
    rw [hptr] at hperform
    have hsucc : UInt32.ofNat x.bucket.val + 1 = 1 := by
      rw [hzero]
      rfl
    apply husable.more _ b _ henv rfl
    rw [hsucc]
    exact hperform
  · -- and the others are left for as many bytes as their index
    have hne : UInt32.ofNat x.bucket.val ≠ 0 := by
      intro h0
      have := toNat_bucket x.bucket
      rw [h0] at this
      exact hzero this.symm
    have hsame := husable.exact hne
    rw [← hptr, hrepr.realloc_same_iff hx hpage hready hok hne, toNat_bucket] at hsame
    exact sizeClass_index hzero hsame

end Block

/-- **The usable size** of a live block is the capacity of its class, and
`kmalloc_usable_size` reports the index of the class, which for no block is
the usable size. -/
theorem usable_size_never {fuel : Nat} {mem : Mem} {os : Nat → UInt32}
    {tr : List ((Call × UInt32) × Sys Statics)} {a : Sys Statics} {e : Handle}
    (hrun : Run ((Port.allocator fuel).Step Disciplined SbrkOk)
      (Sys.start Statics.initial mem os) tr a)
    (he : e ∈ a.live) :
    ∃ b < 28, Usable fuel a e (UInt32.ofNat (cap b)) ∧
      (kmallocUsableSize release e.ptr).run a.machine = .ok (UInt32.ofNat b, a.machine) ∧
      ¬ Usable fuel a e (UInt32.ofNat b) := by
  obtain ⟨S, hsound⟩ := careful_run (run_careful hrun)
  obtain ⟨x, hx, hptr⟩ := hsound.1.owns.exists_held ⟨e, he, rfl⟩
  have hreport := hsound.1.owns.run_usableSize hx
  rw [hptr] at hreport
  exact ⟨x.bucket, hsound.2.1.below x (.inl hx), hsound.usable_cap hx he hptr, hreport,
    hsound.not_usable_index hx hptr⟩

/-- For a block of 28 usable bytes, 2 is reported. -/
theorem usable_size_never_small : ∃ (a : Sys Statics) (b : Nat), b < 28 ∧
    Usable 0 a ⟨4096, 16⟩ (UInt32.ofNat (cap b)) ∧
    (kmallocUsableSize release 4096).run a.machine = .ok (UInt32.ofNat b, a.machine) := by
  obtain ⟨tr, a, hrun, _, hlive⟩ := exists_run_of_observe
    (show (Port.allocator 0).observe Disciplined SbrkOk [.kmalloc 16] (boot twoRegions) Sys.live
        = some ([4096], [⟨4096, 16⟩]) by decide +kernel)
  obtain ⟨b, hb, hcap, hreport, _⟩ := usable_size_never hrun (e := ⟨4096, 16⟩) (by simp [hlive])
  exact ⟨a, b, hb, hcap, hreport⟩

/-- After `kmalloc(16)` the reported size is less than the request. -/
theorem usable_size_below_request : ∃ (tr : List ((Call × UInt32) × Sys Statics))
    (a : Sys Statics), Run ((Port.allocator 0).Step Disciplined SbrkOk) (boot twoRegions) tr a ∧
    a.live = [⟨4096, 16⟩] ∧
    (kmallocUsableSize release 4096).run a.machine = .ok (2, a.machine) ∧
    ¬ Usable 0 a ⟨4096, 16⟩ 2 := by
  obtain ⟨tr, a, hrun, _, hobs⟩ := exists_run_of_observe
    (show (Port.allocator 0).observe Disciplined SbrkOk [.kmalloc 16] (boot twoRegions)
      (fun a => (a.live, a.machine.mem 4093)) = some ([4096], [⟨4096, 16⟩], 2) by decide +kernel)
  obtain ⟨hlive, hindex⟩ := Prod.ext_iff.mp hobs
  have hreport : (kmallocUsableSize release 4096).run a.machine = .ok (2, a.machine) := by
    rw [run_kmallocUsableSize (by decide)]
    exact congrArg (fun v : UInt8 => Except.ok (v.toUInt32, a.machine)) hindex
  exact ⟨tr, a, hrun, hlive, hreport, fun h => absurd h.request (by decide)⟩

end Challenges.Kmalloc

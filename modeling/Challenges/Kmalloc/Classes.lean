import Challenges.Kmalloc.Contents

/-!
# Classes — the three encodings of the table agree

`kmalloc` selects a bucket with its doubling loop, `morecore` carves blocks
with its sizes, and `realloc` keeps a block when the request lies in its
window. On every heap that a client reaches the three are the table `cap`.
-/

namespace Challenges.Kmalloc

open Challenges.Lib Challenges.Kmalloc.Port

/-- The size classes of `kmalloc`, `morecore` and `realloc` are the same. -/
structure ClassesAgree (fuel : Nat) (sys : Sys Statics) : Prop where
  /-- `kmalloc` selects the least bucket that fits the request -/
  selects : ∀ n : UInt32, n.toNat ≤ maxReq → ∃ c : Fin nbuckets,
    Selects sys.machine n c ∧ ∀ b < 28, c.val ≤ b ↔ n.toNat ≤ cap b
  /-- `morecore` carves blocks with that many usable bytes -/
  provides : ∀ x ∈ carved sys.machine.log, x.bucket.val < 28 → x.usable = cap x.bucket
  /-- `realloc` keeps a block, and does nothing else, when `kmalloc` would
  select the block's bucket -/
  keeps : ∀ x ∈ carved sys.machine.log, Held sys.live x.ptr → ∀ n : UInt32, n ≠ 0 →
    ((Port.realloc release fuel x.ptr n).run sys.machine = .ok (x.ptr, sys.machine) ↔
      Selects sys.machine n x.bucket)

section Reached

variable {fuel : Nat} {s t : Machine Statics} {live : List Handle} {S : Stock Block.bucket}
  {x : Block} {n : UInt32}

/-- The bucket selected for a request that the classes serve. -/
theorem exists_selects (hpage : s.vars.pageSz = 4096) (hready : s.vars.pageBucket = 9)
    (hn : n.toNat ≤ maxReq) :
    ∃ c : Fin nbuckets, Selects s n c ∧ ∀ b < 28, c.val ≤ b ↔ n.toNat ≤ cap b := by
  obtain ⟨c, hc, hle⟩ := (sizeClass_le_iff (n := n.toNat) (b := 27) (by decide)).mpr
    (by rwa [cap_top])
  have hlt : c < 30 := by omega
  refine ⟨⟨c, hlt⟩, (selects_iff hpage hready).mpr hc, fun b hb => ?_⟩
  rw [← sizeClass_le_iff (show b < 29 by omega), hc]
  simp

/-- A block that is freed does not come back for a request of another class. -/
theorem Repr.realloc_ne (h : Repr ⟨s, live⟩ S) (hx : x ∈ S.held)
    (hpage : s.vars.pageSz = 4096) (hready : s.vars.pageBucket = 9) (hn : n ≠ 0)
    (hclass : sizeClass n.toNat ≠ some x.bucket.val)
    (hrun : (Port.realloc release fuel x.ptr n).run s = .ok (x.ptr, t)) : ¬ Fresh t.log := by
  intro hfresh
  have hnull := h.owns.ptr_ne_null (.inl hx)
  rcases h.owns.realloc_cases hx hpage hrun with
    ⟨h0, _⟩ | ⟨_, hsame, _⟩ | ⟨_, _, u, hmalloc, ht⟩
  · exact hn h0
  · exact hclass hsame
  · rw [if_pos (.inr rfl)] at ht
    subst ht
    obtain ⟨S', hrepr, hobtains⟩ := (h.kfree hx).kmalloc hmalloc hfresh
    rw [started_eq (show (pushed s x.bucket x.addr).vars.pageSz = 4096 from hpage)] at hobtains
    exact hobtains.ne_freed hx hrepr.owns hready hclass hnull rfl

theorem Repr.keeps_iff (h : Repr ⟨s, live⟩ S) (hx : x ∈ S.held)
    (hpage : s.vars.pageSz = 4096) (hready : s.vars.pageBucket = 9) (hn : n ≠ 0) :
    (Port.realloc release fuel x.ptr n).run s = .ok (x.ptr, s) ↔ Selects s n x.bucket := by
  rw [selects_iff hpage hready]
  constructor
  · intro hrun
    by_contra hclass
    exact h.realloc_ne hx hpage hready hn hclass hrun h.owns.fresh
  · intro hclass
    rw [h.owns.run_realloc hx hpage hn, if_pos hclass]

end Reached

/-- **Size classes agree** in every initialised heap that a client reaches. -/
theorem classes_agree {fuel : Nat} {mem : Mem} {os : Nat → UInt32}
    {tr : List ((Call × UInt32) × Sys Statics)} {sys : Sys Statics}
    (hrun : Run ((Port.allocator fuel).Step Tame SbrkOk)
      (Sys.start Statics.initial mem os) tr sys)
    (hinit : sys.machine.vars.pageSz ≠ 0) : ClassesAgree fuel sys := by
  have hok : InitOk sys.machine.log :=
    hrun.invariant (I := fun sys => InitOk sys.machine.log) (by simp [InitOk, Sys.start])
      fun _ _ _ _ hs => hs.2.2.2
  have hfresh : Run ((Port.allocator fuel).Step Tame Fresh)
      (Sys.start Statics.initial mem os) tr sys :=
    (hrun.mono (I := fun _ => True) trivial
      fun _ _ _ _ hs => ⟨⟨hs.1, hs.2.1, hs.2.2.1⟩, trivial⟩).1
  obtain ⟨S, hrepr, _⟩ := tame_run hfresh
  have hpage : sys.machine.vars.pageSz = 4096 := by
    have hstarted := hrepr.mode.started.2
    rwa [started, if_neg hinit] at hstarted
  have hready := hrepr.mode.bucket hpage hok
  constructor
  case selects => exact fun n hn => exists_selects hpage hready hn
  case provides =>
    intro x hx hbelow
    exact usable_eq hrepr.owns ((hrepr.owns.has x).mpr hx) hbelow
  case keeps =>
    intro x hx hheld n hn
    have hxheld := (hrepr.held_iff ((hrepr.owns.has x).mpr hx)).mp hheld
    exact hrepr.keeps_iff hxheld hpage hready hn

/-- A block of 8192 bytes and a page, next to blocks of half a page. -/
theorem classes_agree_page : ∃ sys, ClassesAgree 0 sys ∧
    sys.live = [⟨8192, 4093⟩, ⟨4096, 2044⟩] := by
  obtain ⟨tr, sys, hrun, _, hobs⟩ := exists_run_of_observe
    (show (Port.allocator 0).observe Tame SbrkOk [.kmalloc 2044, .kmalloc 4093]
      (boot twoRegions) (fun sys => (sys.live, decide (sys.machine.vars.pageSz ≠ 0)))
        = some ([4096, 8192], [⟨8192, 4093⟩, ⟨4096, 2044⟩], true) by decide +kernel)
  simp only [Prod.mk.injEq, decide_eq_true_eq] at hobs
  exact ⟨sys, classes_agree hrun hobs.2, hobs.1⟩

end Challenges.Kmalloc

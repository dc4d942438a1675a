import Challenges.Kmalloc.Ownership

/-!
# DoubleFree — a second `kfree` of the same pointer

The original returns from `kfree` when the header does not hold `MAGIC`.
The port only asserts it, and the assertion is compiled out: the header of
a free block is a next pointer, whose second byte is then taken for the
bucket. `kfree` of a freed pointer is never without effect, whatever the
list the block is on; as long as nothing is freed twice, no two live
pointers are equal.
-/

namespace Challenges.Kmalloc

open Challenges.Lib Challenges.Kmalloc.Port

/-- `kfree(p)` returns and leaves `NEXTF` and the header before `p` as they
were. -/
def Harmless (s : Machine Statics) (p : UInt32) : Prop :=
  ∃ t, (Port.kfree release p).run s = .ok ((), t) ∧ t.vars.nextf = s.vars.nextf ∧
    t.mem.load32 (p - overheadSize) = s.mem.load32 (p - overheadSize)

section Freed

variable {a : Sys Statics} {S : Stock Block.bucket} {x : Block}

/-- A free block's link does not lead back to the block. -/
theorem Repr.link_ne (h : Repr a S) {pre post : List Block}
    (hp : S.parked x.bucket = pre ++ x :: post) :
    a.machine.mem.load32 x.addr ≠ x.addr := by
  have hc := h.owns.chain x.bucket
  rw [hp, List.map_append, List.map_cons] at hc
  have htail := hc.suffix
  intro hloop
  have hnext := htail.tail
  rw [hloop] at hnext
  have hlen := congrArg List.length (hnext.unique htail)
  simp at hlen

/-- **A second `kfree` is never harmless**: it indexes `NEXTF` out of range,
or puts the block on a list, or makes its link lead back to it. -/
theorem Repr.not_harmless (h : Repr a S) (hx : x ∈ S.parked x.bucket) :
    ¬ Harmless a.machine x.ptr := by
  have hhas := Stock.has_of_parked hx
  have hptr := h.owns.ptr_ne_null hhas
  have hin := h.owns.inside hhas
  have hge := h.owns.size_ge hhas
  rintro ⟨t, hrun, hnextf, hword⟩
  rw [Owns.ptr_sub] at hword
  by_cases hindex : (a.machine.mem (x.addr + 1)).toNat < nbuckets
  · obtain ⟨j, hj⟩ : ∃ j : Fin nbuckets, (a.machine.mem (x.addr + 1)).toNat = j :=
      ⟨⟨_, hindex⟩, rfl⟩
    rw [← Owns.ptr_sub] at hj
    rw [Port.run_kfree hptr hj, Owns.ptr_sub] at hrun
    cases hrun
    -- unchanged, the list `j` would start with the block
    have hhead : a.machine.vars.nextf j = x.addr := by
      have := congrFun hnextf j
      simpa [pushed] using this.symm
    obtain ⟨pre, post, hsplit⟩ := List.append_of_mem hx
    refine h.link_ne hsplit ?_
    rw [← hword, pushed, withNextf_mem, Mem.store32_load32 _ _ (by omega), hhead]
  · rw [← Owns.ptr_sub] at hindex
    rw [run_kfree_outside hptr (Nat.not_lt.mp hindex)] at hrun
    cases hrun

end Freed

/-- **Double free**: in every run in which each `kfree` is the first of its
pointer, live pointers are pairwise different; and after every such run, a
repeated `kfree` of a pointer that was returned and freed is not harmless. -/
theorem double_free {fuel : Nat} {mem : Mem} {os : Nat → UInt32}
    {tr : List ((Call × UInt32) × Sys Statics)} {sys : Sys Statics}
    (hrun : Run ((Port.allocator fuel).Step Tame Fresh)
      (Sys.start Statics.initial mem os) tr sys) :
    (sys.live.map Handle.ptr).Nodup ∧
      ∀ p ∈ returned tr, p ≠ null → ¬ Held sys.live p → ¬ Harmless sys.machine p := by
  obtain ⟨S, hrepr, hreturned⟩ := tame_run hrun
  refine ⟨hrepr.live_nodup, fun p hp hne hfree => ?_⟩
  obtain ⟨x, hx, rfl⟩ := hreturned p hp hne
  rw [hrepr.held_iff hx] at hfree
  exact hrepr.not_harmless (hx.resolve_left hfree)

theorem double_free_page :
    ∃ sys : Sys Statics, sys.live = [] ∧ ¬ Harmless sys.machine 4096 := by
  obtain ⟨tr, sys, hrun, hlabels, hlive⟩ := exists_run_of_observe
    (show (Port.allocator 0).observe Tame Fresh [.kmalloc 20, .kfree 4096]
      (boot fun _ => 4092) Sys.live = some ([4096, 0], []) by decide +kernel)
  refine ⟨sys, hlive, (double_free hrun).2 4096 ?_ (by decide) ?_⟩
  · simp [returned, hlabels]
  · simp [Held, hlive]

/-- After `kfree(4096)` twice the block is on the lists of buckets 2 and 16,
and requests of both classes are answered with it. -/
theorem double_free_two_lists : ∃ tr sys,
    Run ((Port.allocator 0).Step (fun _ _ => True) Fresh) (boot twoRegions) tr sys ∧
    labels tr = [(.kmalloc 20, 4096), (.kfree 4096, 0), (.kfree 4096, 0),
      (.kmalloc 20, 4096), (.kmalloc 300000, 4096)] ∧
    sys.live = [⟨4096, 300000⟩, ⟨4096, 20⟩] :=
  exists_run_of_observe
    (show (Port.allocator 0).observe (fun _ _ => True) Fresh
      [.kmalloc 20, .kfree 4096, .kfree 4096, .kmalloc 20, .kmalloc 300000]
      (boot twoRegions) Sys.live
        = some ([4096, 0, 0, 4096, 4096], [⟨4096, 300000⟩, ⟨4096, 20⟩]) by decide +kernel)

end Challenges.Kmalloc

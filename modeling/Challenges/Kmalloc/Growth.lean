import Challenges.Kmalloc.Ownership

/-!
# Growth — a size class grows only when all of it is in use

The counting side of ownership: of the blocks carved for a bucket, those
that are not live are on the bucket's free list, so `morecore(b)` runs only
when every block of `b` is live. A class then never has more blocks than
were live at once, up to the rest of one `morecore`.
-/

namespace Challenges.Kmalloc

open Challenges.Lib Challenges.Kmalloc.Port

/-- How many blocks were ever carved for a bucket. -/
def carvedFor (sys : Sys Statics) (b : Fin nbuckets) : Nat :=
  (carved sys.machine.log).countP (fun x => x.bucket = b)

/-- How many of them are live. -/
def liveFor (sys : Sys Statics) (b : Fin nbuckets) : Nat :=
  (carved sys.machine.log).countP (fun x => x.bucket = b ∧ Held sys.live x.ptr)

section Counts

variable {a : Sys Statics} {S : Stock Block.bucket}

theorem Repr.carved_nodup (h : Repr a S) : (carved a.machine.log).Nodup := by
  refine h.owns.extents.1.imp_of_mem fun {x y} hx _ hapart => ?_
  rintro rfl
  have := h.owns.size_ge ((h.owns.has x).mpr hx)
  rw [Block.Apart] at hapart
  omega

/-- Live blocks of a bucket are the stock's held ones. -/
theorem Repr.liveFor_eq (h : Repr a S) (b : Fin nbuckets) :
    liveFor a b = S.heldCount b := by
  rw [liveFor, Stock.heldCount, List.countP_eq_length_filter, List.countP_eq_length_filter]
  refine (List.perm_ext_iff_of_nodup (h.carved_nodup.filter _)
    (S.held_nodup.filter _)).mpr (fun x => ?_) |>.length_eq
  simp only [List.mem_filter, decide_eq_true_eq]
  constructor
  · rintro ⟨hx, hb, hheld⟩
    exact ⟨(h.held_iff ((h.owns.has x).mpr hx)).mp hheld, hb⟩
  · rintro ⟨hx, hb⟩
    exact ⟨(h.owns.has x).mp (.inl hx), hb, (h.held_iff (.inl hx)).mpr hx⟩

/-- Blocks carved for a bucket are the stock's population of it. -/
theorem Repr.carvedFor_eq (h : Repr a S) (b : Fin nbuckets) :
    carvedFor a b = S.population b := by
  rw [carvedFor, Stock.population, Stock.heldCount, List.countP_eq_length_filter,
    List.countP_eq_length_filter, ← List.length_append]
  have hapart : (S.parked b ++ S.held.filter (fun x => x.bucket = b)).Nodup := by
    rw [List.nodup_append]
    refine ⟨S.parked_nodup b, S.held_nodup.filter _, fun x hx y hy hxy => ?_⟩
    exact S.apart b x hx (hxy ▸ (List.mem_filter.mp hy).1)
  refine (List.perm_ext_iff_of_nodup (h.carved_nodup.filter _) hapart).mpr
    (fun x => ?_) |>.length_eq
  rw [List.mem_filter, List.mem_append, List.mem_filter, decide_eq_true_eq, ← h.owns.has x]
  constructor
  · rintro ⟨hx | hx, rfl⟩
    · exact .inr ⟨hx, rfl⟩
    · exact .inl hx
  · rintro (hx | ⟨hx, hb⟩)
    · exact ⟨Stock.has_of_parked hx, S.parked_cls b x hx⟩
    · exact ⟨.inl hx, hb⟩

end Counts

/-! ## When `morecore` is called -/

/-- The calls that one call of the client added to the log. -/
def added (a b : Sys Statics) : List SbrkCall :=
  b.machine.log.drop a.machine.log.length

theorem added_eq {a b : Sys Statics} {more : List SbrkCall}
    (h : b.machine.log = a.machine.log ++ more) : added a b = more := by
  rw [added, h, List.drop_left]

/-- A bucket's `morecore` in a call is one of an empty class. -/
theorem Grows.parked {a b : Sys Statics} {S : Stock Block.bucket}
    (h : Grows a.machine S b.machine) {c : SbrkCall} (hc : c ∈ added a b) {i : Fin nbuckets}
    (hcaller : c.caller = .morecore (Int32.ofNat i)) : S.parked i = [] := by
  rcases h with ⟨hsame, _⟩ | ⟨more, hlog, hmore⟩
  · have hnone : b.machine.log = a.machine.log ++ [] := by rw [hsame, List.append_nil]
    rw [added_eq hnone] at hc
    simp at hc
  · obtain ⟨first, hstarted, hfirst⟩ := started_log a.machine
    rw [hstarted, List.append_assoc] at hlog
    rw [added_eq hlog, List.mem_append] at hc
    rcases hc with hc | hc
    · rcases hfirst with ⟨_, hfirst⟩ | ⟨_, rfl⟩
      · exact absurd hcaller (hfirst.caller c hc _)
      · simp at hc
    · obtain ⟨j, ret, _, hempty, rfl⟩ := hmore c hc
      have heq : Int32.ofNat j = Int32.ofNat i := Caller.morecore.inj hcaller
      have hval : j.val = i.val := by
        have := congrArg (fun k : Int32 => k.toUInt32.toNat) heq
        simpa only [toUInt32_bucket, toNat_bucket] using this
      rwa [← Fin.ext hval]

/-! ## The theorem -/

/-- **No leak and bounded growth**: after every run of a disciplined client,
the blocks of a bucket number at most the peak of its live blocks and the
rest of one `morecore`; those not live are on its free list; and the next
call grows the bucket only when all its blocks are live. -/
theorem bounded_growth {fuel : Nat} {mem : Mem} {os : Nat → UInt32}
    {tr : List ((Call × UInt32) × Sys Statics)} {sys : Sys Statics}
    (hrun : Run ((Port.allocator fuel).Step Disciplined SbrkOk)
      (Sys.start Statics.initial mem os) tr sys) (b : Fin nbuckets) :
    carvedFor sys b
        ≤ peak (liveFor · b) (visited (Sys.start Statics.initial mem os) tr) + (nblks b - 1) ∧
      (∀ l, FreeList sys b l → carvedFor sys b = liveFor sys b + l.length) ∧
      ∀ l next, (Port.allocator fuel).Step Disciplined SbrkOk sys l next →
        ∀ c ∈ added sys next, c.caller = .morecore (Int32.ofNat b) →
          ∀ x ∈ carved sys.machine.log, x.bucket = b → Held sys.live x.ptr := by
  obtain ⟨S, hsound, hle⟩ := high_water (R := Sound) liveFor (fun i => nblks i - 1)
    (fun a S i h => h.1.liveFor_eq i)
    (fun a l b S h hs => (h.step hs).imp fun _ h => ⟨h.1, h.2.1, h.2.2⟩)
    (.start mem os) (run_careful hrun)
  have hrepr := hsound.1
  refine ⟨hrepr.carvedFor_eq b ▸ hle b, fun l hl => ?_, fun l next hs c hc hcaller x hx hb => ?_⟩
  · rw [hrepr.carvedFor_eq, hrepr.liveFor_eq, hl.unique (hrepr.freeList b), List.length_map,
      Stock.population, Nat.add_comm]
  · have htame := hrepr.tame hsound.2.1 hsound.2.2 (.of_disciplined hs.1)
    have hempty := (hrepr.grows htame hs.2.1).parked hc hcaller
    have hhas := (hrepr.owns.has x).mpr hx
    rw [hrepr.held_iff hhas]
    rcases hhas with hheld | hparked
    · exact hheld
    · rw [hb, hempty] at hparked
      simp at hparked

/-- One page of bucket 2: 128 blocks. -/
theorem bounded_growth_page :
    ∃ (tr : List ((Call × UInt32) × Sys Statics)) (sys : Sys Statics), carvedFor sys 2 = 128 ∧
      128 ≤ peak (liveFor · 2) (visited (boot fun _ => 4092) tr) + 127 := by
  obtain ⟨tr, sys, hrun, _, hcount⟩ := exists_run_of_observe
    (show (Port.allocator 0).observe Disciplined SbrkOk [.kmalloc 20, .kmalloc 20]
      (boot fun _ => 4092) (carvedFor · 2) = some ([4096, 4128], 128) by decide +kernel)
  exact ⟨tr, sys, hcount, hcount ▸ (bounded_growth hrun 2).1⟩

end Challenges.Kmalloc

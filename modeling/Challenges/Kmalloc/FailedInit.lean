import Challenges.Kmalloc.Capacity

/-!
# FailedInit — after an alignment that `sbrk` refused

The first call sets `PAGE_SZ` before it aligns the break and `PAGE_BUCKET`
after it. When the alignment is refused it returns between the two, and no
later call repairs the pair: requests up to the page size are served as
ever, a larger one is looked up ten buckets too low.
-/

namespace Challenges.Kmalloc

open Challenges.Lib Challenges.Kmalloc.Port

/-- `PAGE_SZ` is set and `PAGE_BUCKET` is not. -/
def HalfSet (s : Machine Statics) : Prop :=
  s.vars.pageSz = 4096 ∧ s.vars.pageBucket = -1

/-! ## No call repairs it -/

section Keeps

theorem keeps_load8 (a : UInt32) : Keeps HalfSet (load8 a) :=
  .bind .get fun _ => .pure _

theorem keeps_store32 (a v : UInt32) : Keeps HalfSet (store32 a v) :=
  .modify fun _ hs => hs

theorem keeps_memcpy (dst src len : UInt32) : Keeps HalfSet (memcpy dst src len) :=
  .modify fun _ hs => hs

theorem keeps_nextf (i : UInt32) : Keeps HalfSet (nextf i) := by
  unfold nextf
  split
  · apply Keeps.bind .get
    intro s
    exact .pure _
  · exact .throw _

theorem keeps_setNextf (i p : UInt32) : Keeps HalfSet (setNextf i p) := by
  unfold setNextf
  split
  · exact .modify fun _ hs => hs
  · exact .throw _

theorem keeps_kmalloc (n : UInt32) : Keeps HalfSet (Port.kmalloc release n) := by
  constructor
  intro s r t hrun hs
  rw [run_kmalloc hs.1] at hrun
  have htaken (b : Fin nbuckets) : HalfSet (taken s b).2 := by
    obtain ⟨hpage, hbucket⟩ := taken_statics s b
    exact ⟨hpage.trans hs.1, hbucket.trans hs.2⟩
  rcases run_serve_stale n hs.1 hs.2 with
    ⟨_, hserve⟩ | ⟨b, _, _, _, hserve⟩ | ⟨_, _, hserve⟩ | ⟨b, _, _, _, hserve⟩
  · rw [hserve] at hrun
    cases hrun
    exact hs
  · rw [hserve] at hrun
    obtain ⟨_, rfl⟩ := Prod.ext_iff.mp (Except.ok.inj hrun)
    exact htaken b
  · rw [hserve] at hrun
    cases hrun
  · rw [hserve] at hrun
    obtain ⟨_, rfl⟩ := Prod.ext_iff.mp (Except.ok.inj hrun)
    exact htaken b

theorem keeps_kfree (cp : UInt32) : Keeps HalfSet (Port.kfree release cp) := by
  unfold Port.kfree
  apply Keeps.ite (.pure ())
  simp only [release_subU32, release_kassert, pure_bind]
  apply Keeps.bind (keeps_load8 _)
  intro _
  apply Keeps.bind (keeps_load8 _)
  intro index
  apply Keeps.bind (keeps_nextf _)
  intro next
  apply Keeps.bind (keeps_store32 _ _)
  intro _
  exact keeps_setNextf _ _

theorem keeps_findbucket (fuel : Nat) (freep : UInt32) (srchlen : Int32) :
    Keeps HalfSet (findbucket release fuel freep srchlen) := by
  have hstep (p : UInt32) (j : Int32) :
      Keeps HalfSet (searchStep release p freep srchlen j) := by
    unfold searchStep
    exact .ite (.pure _) (.ite (.pure _) (.bind (.pure _) fun _ => .pure _))
  unfold findbucket
  generalize List.finRange nbuckets = buckets
  induction buckets with
  | nil => exact .pure _
  | cons i rest ih =>
      unfold searchBuckets
      apply Keeps.bind .get
      intro s
      apply Keeps.bind (.loop (hstep _) fuel 0)
      intro found
      exact .ite (.pure _) ih

theorem keeps_oldBucket (fuel : Nat) (overhead : UInt32) :
    Keeps HalfSet (oldBucket release fuel overhead) := by
  unfold oldBucket
  apply Keeps.bind (keeps_load8 _)
  intro byte
  apply Keeps.ite
  · exact .bind (keeps_load8 _) fun _ => .pure _
  · apply Keeps.bind (keeps_findbucket _ _ _)
    intro i
    exact .bind (keeps_findbucket _ _ _) fun _ => .pure _

theorem keeps_oldSize (i : Int32) : Keeps HalfSet (oldSize release i) := by
  simp only [oldSize, release_addI32, release_shlOneU32, release_subU32, release_addU32,
    pure_bind]
  exact .bind .get fun _ => .ite (.pure _) (.pure _)

theorem keeps_lowerSize (i : Int32) : Keeps HalfSet (lowerSize release i) := by
  simp only [lowerSize, release_addI32, release_shlOneI32, release_subI32, pure_bind]
  exact .ite (.bind .get fun _ => .ite (.pure _) (.pure _)) (.pure _)

theorem keeps_moveTo (cp n onb : UInt32) : Keeps HalfSet (moveTo release cp n onb) := by
  unfold moveTo
  apply Keeps.bind (keeps_kmalloc n)
  intro res
  apply Keeps.ite (.pure _)
  exact .ite (.bind (keeps_memcpy _ _ _) fun _ => .pure _) (.pure _)

theorem keeps_realloc (fuel : Nat) (cp n : UInt32) :
    Keeps HalfSet (Port.realloc release fuel cp n) := by
  unfold Port.realloc
  apply Keeps.ite (keeps_kmalloc n)
  apply Keeps.ite (.bind (keeps_kfree cp) fun _ => .pure _)
  simp only [release_subU32, pure_bind]
  apply Keeps.bind (keeps_oldBucket fuel _)
  intro old
  apply Keeps.bind (keeps_oldSize _)
  intro onb
  apply Keeps.ite
  · apply Keeps.bind (keeps_lowerSize _)
    intro lower
    exact .ite (.pure _) (.bind (keeps_kfree cp) fun _ => keeps_moveTo cp n onb)
  · exact keeps_moveTo cp n onb

/-- **Half set for ever**: any call with any argument, if it returns. -/
theorem HalfSet.perform {fuel : Nat} {a b : Sys Statics} {c : Call} {r : UInt32}
    (h : HalfSet a.machine) (hperform : (Port.allocator fuel).perform a c = .ok (r, b)) :
    HalfSet b.machine := by
  cases c with
  | kmalloc n =>
      obtain ⟨t, hrun, rfl⟩ := perform_kmalloc.mp hperform
      exact (keeps_kmalloc n).kept hrun h
  | kfree cp =>
      obtain ⟨t, hrun, _, rfl⟩ := perform_kfree.mp hperform
      exact (keeps_kfree cp).kept hrun h
  | realloc cp n =>
      obtain ⟨t, hrun, rfl⟩ := perform_realloc.mp hperform
      exact (keeps_realloc fuel cp n).kept hrun h
  | write cp off byte =>
      cases hperform
      exact h

end Keeps

/-! ## What later requests get -/

/-- The requests that the half-set pair serves properly: those up to the page
size, those no class serves, and those whose bucket, ten too low, is empty
and not refilled. -/
def StaleOk (s : Machine Statics) (m : UInt32) : Prop :=
  m.toNat ≤ 4092 ∨ cap 28 < m.toNat ∨
    ∃ b : Fin nbuckets, sizeClass m.toNat = some (b.val + 10) ∧ Refused s b

/-- A block of bucket `b` is too small for a request of class `b + 10`. -/
theorem room_lt_of_class {b n : Nat} (hclass : sizeClass n = some (b + 10)) :
    room b < n + 4 := by
  obtain ⟨_, hb, hmin⟩ := sizeClass_eq_some.mp hclass
  have hroom := room_eq (show b < 28 by omega)
  have := hmin b (by omega)
  omega

/-- A block served from bucket `b` tells by its size whether the request fits. -/
theorem Repr.roomy_taken {s : Machine Statics} {live : List Handle} {S : Stock Block.bucket}
    {b : Fin nbuckets} (h : Repr ⟨s, live⟩ S) (hpage : s.vars.pageSz = 4096) (hb : b.val < 29)
    (m : UInt32) (hfresh : Fresh (taken s b).2.log) :
    (Refused s b → Roomy (taken s b).2.log (taken s b).1 m) ∧
      (¬ Refused s b → (Roomy (taken s b).2.log (taken s b).1 m ↔ m.toNat + 4 ≤ room b)) := by
  obtain ⟨o, S', _, hret, howns, hnew, _, hrefused⟩ := h.owns.taken hb hfresh m
  have hrepr : Repr ⟨(taken s b).2, handOut (taken s b).1 m live⟩ S' :=
    ⟨howns, h.mode.taken hpage b⟩
  cases o with
  | none => exact ⟨fun _ => .inl hret, fun hno => absurd (hrefused.mp rfl) hno⟩
  | some x =>
      obtain ⟨hbucket, hx, _⟩ := hnew x rfl
      have hsize := (howns.size x ((howns.has x).mp (.inl hx))).2
      rw [hbucket] at hsize
      refine ⟨fun hyes => absurd (hrefused.mpr hyes) (by simp), fun _ => ?_⟩
      rw [hret, ← hsize]
      exact ⟨fun hroomy => hrepr.roomy_le hx hroomy, fun hfit => hrepr.roomy hx hfit⟩

/-- **Stale requests**: in a half-set state whose heap is sound, `kmalloc`
returns, and returns null or enough room, exactly for these requests. -/
theorem Repr.stale {s : Machine Statics} {live : List Handle} {S : Stock Block.bucket}
    (h : Repr ⟨s, live⟩ S) (hhalf : HalfSet s) (m : UInt32)
    (henv : ∀ r t, (Port.kmalloc release m).run s = .ok (r, t) → Fresh t.log) :
    (∃ r t, (Port.kmalloc release m).run s = .ok (r, t) ∧ Roomy t.log r m) ↔ StaleOk s m := by
  have hkmalloc : (Port.kmalloc release m).run s = (serve release m).run s :=
    run_kmalloc hhalf.1
  rcases run_serve_stale m hhalf.1 hhalf.2 with
    ⟨hclass, hserve⟩ | ⟨b, hb, hle, hclass, hserve⟩ | ⟨hlt, hle, hserve⟩ |
      ⟨b, hb, hlt, hclass, hserve⟩
  · rw [hkmalloc, hserve]
    exact iff_of_true ⟨_, _, rfl, .inl rfl⟩ (.inr (.inl (sizeClass_eq_none.mp hclass)))
  · rw [hserve] at hkmalloc
    obtain ⟨hyes, hno⟩ := h.roomy_taken hhalf.1 hb m (henv _ _ hkmalloc)
    refine iff_of_true ⟨(taken s b).1, (taken s b).2, hkmalloc, ?_⟩ (.inl hle)
    by_cases hr : Refused s b
    · exact hyes hr
    · obtain ⟨hfit, _, hmin⟩ := sizeClass_eq_some.mp hclass
      have hb28 : b.val < 28 := by
        by_contra hge
        have := hmin 9 (by omega)
        have : cap 9 = 8188 := by decide
        omega
      rw [hno hr, room_eq hb28]
      omega
  · rw [hkmalloc, hserve]
    refine iff_of_false ?_ ?_
    · rintro ⟨_, _, heq, _⟩
      cases heq
    · rintro (hsmall | hlarge | ⟨b, hclass, _⟩)
      · omega
      · have := cap_mono (show 9 ≤ 28 by decide)
        have : cap 9 = 8188 := by decide
        omega
      · have := (sizeClass_eq_some.mp hclass).2.2 9 (by omega)
        have : cap 9 = 8188 := by decide
        omega
  · rw [hserve] at hkmalloc
    obtain ⟨hyes, hno⟩ := h.roomy_taken hhalf.1 (by omega) m (henv _ _ hkmalloc)
    constructor
    · rintro ⟨r, t, hrun, hroomy⟩
      obtain ⟨rfl, rfl⟩ := Prod.ext_iff.mp (Except.ok.inj (hkmalloc.symm.trans hrun))
      refine .inr (.inr ⟨b, hclass, ?_⟩)
      by_contra hr
      have := room_lt_of_class hclass
      have := (hno hr).mp hroomy
      omega
    · rintro (hsmall | hlarge | ⟨c, hclass', hr⟩)
      · omega
      · have := (sizeClass_eq_some.mp hclass).1
        have := cap_mono (show b.val + 10 ≤ 28 by omega)
        omega
      · have hcb : c = b := Fin.ext (by
          have := hclass'.symm.trans hclass
          simp at this
          omega)
        exact ⟨(taken s b).1, (taken s b).2, hkmalloc, hyes (hcb ▸ hr)⟩

/-- A first call whose alignment was refused returns null, half set. -/
theorem failed_first_call {fuel : Nat} {mem : Mem} {os : Nat → UInt32} {n r : UInt32}
    {a : Sys Statics}
    (hfirst : (Port.allocator fuel).perform (Sys.start Statics.initial mem os) (.kmalloc n)
      = .ok (r, a)) (hfail : ¬ InitOk a.machine.log) :
    r = null ∧ HalfSet a.machine ∧ Repr a Stock.empty := by
  obtain ⟨t, hrun, rfl⟩ := perform_kmalloc.mp hfirst
  have hstart := Repr.start mem os
  generalize hs : Sys.start Statics.initial mem os = sys at *
  have hpage0 : sys.machine.vars.pageSz = 0 := by rw [← hs]; rfl
  have hbucket0 : sys.machine.vars.pageBucket = -1 := by rw [← hs]; rfl
  have hlog0 : sys.machine.log = [] := by rw [← hs]; rfl
  have hlive0 : sys.live = [] := by rw [← hs]; rfl
  change (Port.kmalloc release n).run sys.machine = _ at hrun
  have hstarted : started sys.machine = (initialised sys.machine).2 := if_pos hpage0
  rcases initialised_cases sys.machine with ⟨hpage, _, _, ⟨first, hlog, hcalls⟩, htrue | hfalse⟩
  · -- an alignment that went well is not followed by another one
    have hok := htrue.2.2 (by simp [InitOk, hlog0])
    obtain ⟨more, hmore, hcalls⟩ := kmalloc_more hstart.mode hrun
    rw [hmore, hstarted] at hfail
    refine absurd (fun c hc halign => ?_) hfail
    rcases List.mem_append.mp hc with hc | hc
    · exact hok c hc halign
    · obtain ⟨b, ret, _, _, rfl⟩ := hcalls c hc
      cases halign
  · rw [run_kmalloc_first hpage0, if_neg (by simp [hfalse.1])] at hrun
    obtain ⟨rfl, rfl⟩ := Prod.ext_iff.mp (Except.ok.inj hrun)
    have hfresh : Fresh (started sys.machine).log := by
      rw [hstarted, hlog, hlog0, List.nil_append]
      exact .of_not_grants hcalls.not_grants
    have howns := hstart.owns.started hstart.mode hfresh
    have hmode := hstart.mode.started.1
    rw [hstarted] at howns hmode
    have hbucket := hfalse.2.1.trans hbucket0
    generalize (initialised sys.machine).2 = u at hpage hbucket howns hmode ⊢
    rw [handOut_null]
    exact ⟨rfl, ⟨hpage, hbucket⟩, howns, hmode⟩

/-- **Failed initialisation** is never undone. After a first call whose
alignment `sbrk` refused, `PAGE_SZ` and `PAGE_BUCKET` are half set in every
continuation, whatever is called and whatever `sbrk` answers; and while the
calls are tame, `kmalloc(m)` returns null or enough room exactly for the
requests that are `StaleOk`. -/
theorem failed_init {fuel : Nat} {mem : Mem} {os : Nat → UInt32} {n r : UInt32}
    {a : Sys Statics}
    (hfirst : (Port.allocator fuel).perform (Sys.start Statics.initial mem os) (.kmalloc n)
      = .ok (r, a)) (hfail : ¬ InitOk a.machine.log) :
    r = null ∧
      (∀ tr sys, Run ((Port.allocator fuel).Step (fun _ _ => True) fun _ => True) a tr sys →
        HalfSet sys.machine) ∧
      ∀ tr sys, Run ((Port.allocator fuel).Step Tame Fresh) a tr sys → ∀ m,
        (∀ r next, (Port.allocator fuel).perform sys (.kmalloc m) = .ok (r, next) →
          Fresh next.machine.log) →
        ((∃ r next, (Port.allocator fuel).perform sys (.kmalloc m) = .ok (r, next) ∧
          Roomy next.machine.log r m) ↔ StaleOk sys.machine m) := by
  obtain ⟨hnull, hhalf, hrepr⟩ := failed_first_call hfirst hfail
  refine ⟨hnull, fun tr sys hrun => ?_, fun tr sys hrun m henv => ?_⟩
  · exact hrun.invariant (I := fun sys => HalfSet sys.machine) hhalf
      fun _ _ _ h hs => h.perform hs.2.1
  · obtain ⟨⟨S, hrepr'⟩, hhalf'⟩ := hrun.invariant
      (I := fun sys => (∃ S, Repr sys S) ∧ HalfSet sys.machine) ⟨⟨_, hrepr⟩, hhalf⟩
      fun _ _ _ h hs => ⟨h.1.elim fun _ hr => (hr.step hs).imp fun _ h => h.1,
        h.2.perform hs.2.1⟩
    have hstale := hrepr'.stale hhalf' m fun r t hrun =>
      henv r _ (perform_kmalloc.mpr ⟨t, hrun, rfl⟩)
    rw [← hstale]
    constructor
    · rintro ⟨r, next, hperform, hroomy⟩
      obtain ⟨t, hrun, rfl⟩ := perform_kmalloc.mp hperform
      exact ⟨r, t, hrun, hroomy⟩
    · rintro ⟨r, t, hrun, hroomy⟩
      exact ⟨r, _, perform_kmalloc.mpr ⟨t, hrun, rfl⟩, hroomy⟩

/-- The alignment is refused; later calls get a page at 4096. -/
def refusedOnce : Nat → UInt32 :=
  fun k => if k = 0 then 0 else if k = 1 then sbrkFailed else 4096

theorem failed_init_half : ∃ a : Sys Statics,
    (Port.allocator 0).perform (boot refusedOnce) (.kmalloc 20) = .ok (null, a) ∧
      HalfSet a.machine := by
  have hfalse : (initialised (boot refusedOnce).machine).1 = false := by decide +kernel
  have hrun : (Port.kmalloc release 20).run (boot refusedOnce).machine
      = .ok (null, (initialised (boot refusedOnce).machine).2) := by
    rw [run_kmalloc_first rfl, if_neg (by simp [hfalse])]
  have hfail : ¬ InitOk (initialised (boot refusedOnce).machine).2.log := by
    obtain ⟨_, _, _, _, ⟨htrue, _⟩ | ⟨_, _, hbad⟩⟩ :=
      initialised_cases (boot refusedOnce).machine
    · rw [hfalse] at htrue
      cases htrue
    · exact hbad
  have hperform := perform_kmalloc (A := Port.allocator 0).mpr ⟨_, hrun, rfl⟩
  exact ⟨_, hperform, (failed_init hperform hfail).2.1 [] _ .nil⟩

/-- After a refused alignment `kmalloc(9000)` returns a block of 8 bytes. -/
theorem failed_init_small_block : ∃ tr sys,
    Run ((Port.allocator 0).Step (fun _ _ => True) Fresh) (boot refusedOnce) tr sys ∧
    labels tr = [(.kmalloc 20, null), (.kmalloc 9000, 4100)] ∧
    sys.machine.vars.pageSz = 4096 ∧ sys.machine.vars.pageBucket = -1 ∧
    ¬ Roomy sys.machine.log 4100 9000 := by
  obtain ⟨tr, sys, hrun, hlabels, hobs⟩ := exists_run_of_observe
    (show (Port.allocator 0).observe (fun _ _ => True) Fresh [.kmalloc 20, .kmalloc 9000]
      (boot refusedOnce) (fun sys => (sys.machine.vars.pageSz, sys.machine.vars.pageBucket,
        decide (Roomy sys.machine.log 4100 9000))) = some ([0, 4100], 4096, -1, false)
      by decide +kernel)
  simp only [Prod.mk.injEq, decide_eq_false_iff_not] at hobs
  exact ⟨tr, sys, hrun, hlabels, hobs⟩

end Challenges.Kmalloc

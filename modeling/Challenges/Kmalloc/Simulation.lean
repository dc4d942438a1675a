import Challenges.Lib.Follow
import Challenges.Kmalloc.Ownership

/-!
# Simulation — the port and the original in lock-step

The two programs differ in their integer types, in the shape of their loops
and in how they write their guards. Here each function of the port is
followed by the function of the original it was made from: on machines that
are `Alike`, one call does the same to both.
-/

namespace Challenges.Kmalloc

open Challenges.Lib

/-- The two machines agree, except that the page's bucket is only known to
agree when `c` holds: before the first call it is `-1` in the port and `0`
in the original. -/
structure Alike (c : Prop) (s : Machine Port.Statics) (t : Machine Original.Statics) :
    Prop where
  mem : t.mem = s.mem
  os : t.os = s.os
  log : t.log = s.log
  nextf : t.vars.nextf = s.vars.nextf
  page : t.vars.pagesz = s.vars.pageSz.toInt32
  bucket : c → t.vars.pagebucket = s.vars.pageBucket

namespace Alike

variable {c : Prop} {s : Machine Port.Statics} {t : Machine Original.Statics}

theorem imp {c' : Prop} (h : Alike c s t) (hc : c' → c) : Alike c' s t :=
  { h with bucket := h.bucket ∘ hc }

/-! ## The machine -/

theorem load8 (h : Alike c s t) (a : UInt32) :
    Follows (fun r s' r' t' => r = s.mem a ∧ r = r' ∧ Alike c s' t')
      (load8 a) s (load8 a) t := by
  intro r s' hrun
  cases hrun
  exact ⟨t.mem a, t, rfl, rfl, by rw [h.mem], h⟩

theorem load32 (h : Alike c s t) (a : UInt32) :
    Follows (Same (Alike c)) (load32 a) s (load32 a) t := by
  intro r s' hrun
  cases hrun
  exact ⟨t.mem.load32 a, t, rfl, by rw [h.mem], h⟩

theorem store8 (h : Alike c s t) (a : UInt32) (v : UInt8) :
    Follows (Same (Alike c)) (store8 a v) s (store8 a v) t := by
  intro r s' hrun
  cases hrun
  exact ⟨(), _, rfl, rfl, { h with mem := congrArg (Mem.store8 · a v) h.mem }⟩

theorem store32 (h : Alike c s t) (a v : UInt32) :
    Follows (Same (Alike c)) (store32 a v) s (store32 a v) t := by
  intro r s' hrun
  cases hrun
  exact ⟨(), _, rfl, rfl, { h with mem := congrArg (Mem.store32 · a v) h.mem }⟩

theorem memcpy (h : Alike c s t) (dst src len : UInt32) :
    Follows (fun r s' r' t' => r = r' ∧ s'.log = s.log ∧ Alike c s' t')
      (memcpy dst src len) s (memcpy dst src len) t := by
  intro r s' hrun
  cases hrun
  exact ⟨(), _, rfl, rfl, rfl, { h with mem := congrArg (Mem.copy · dst src len) h.mem }⟩

theorem afterSbrk (h : Alike c s t) (caller : Caller) (amt : Int32) (ret : UInt32) :
    Alike c (s.afterSbrk caller amt ret) (t.afterSbrk caller amt ret) where
  mem := by simp only [Machine.afterSbrk, h.mem]
  os := h.os
  log := by simp only [Machine.afterSbrk, h.log]
  nextf := h.nextf
  page := h.page
  bucket := h.bucket

/-- The two programs get the same answer. -/
theorem sbrk (h : Alike c s t) (caller : Caller) (amt : Int32) :
    Follows (fun r s' r' t' => r = r' ∧ Alike c s' t' ∧ s' = s.afterSbrk caller amt r)
      (sbrk caller amt) s (sbrk caller amt) t := by
  intro r s' hrun
  cases hrun
  refine ⟨t.os t.log.length, _, rfl, by rw [h.os, h.log], ?_, rfl⟩
  rw [h.os, h.log]
  exact h.afterSbrk ..

theorem nextf_same (h : Alike c s t) (i : Int32) :
    Follows (Same (Alike c)) (Port.nextf i.toUInt32) s (Original.nextf i) t := by
  intro r s' hrun
  rw [Port.nextf] at hrun
  rw [Original.nextf]
  split
  · rename_i hi
    rw [dif_pos hi] at hrun
    cases hrun
    exact ⟨_, t, rfl, by rw [h.nextf], h⟩
  · rename_i hi
    rw [dif_neg hi] at hrun
    cases hrun

theorem setNextf (h : Alike c s t) (i : Int32) (p : UInt32) :
    Follows (Same (Alike c)) (Port.setNextf i.toUInt32 p) s (Original.setNextf i p) t := by
  intro r s' hrun
  rw [Port.setNextf] at hrun
  rw [Original.setNextf]
  split
  · rename_i hi
    rw [dif_pos hi] at hrun
    cases hrun
    exact ⟨(), _, rfl, rfl, { h with nextf := congrArg (Function.update · _ p) h.nextf }⟩
  · rename_i hi
    rw [dif_neg hi] at hrun
    cases hrun

/-! ## `kmalloc` -/

theorem findPageBucket (h : Alike c s t) :
    Follows (Same (Alike c)) (Port.findPageBucket release) s Original.findPageBucket t := by
  refine Follows.loop (I := fun v s w t => v = w ∧ Alike c s t) (fun v s w t hI => ?_)
    (Nat.le_refl _) ⟨rfl, h⟩
  obtain ⟨rfl, h⟩ := hI
  simp only [Port.pageStep, Original.pageStep, release_addI32, pure_bind]
  refine Follows.get (.ite ?_ (fun _ => .pure ?_) (fun _ => .pure ?_))
  · rw [h.page, UInt32.toUInt32_toInt32]
  · exact .inl ⟨_, _, rfl, rfl, rfl, h⟩
  · exact .inr ⟨_, _, rfl, rfl, rfl, h⟩

theorem setPageBucket (h : Alike c s t) :
    Follows (fun r s' r' t' => r = true ∧ r' = true ∧ Alike True s' t')
      (Port.setPageBucket release) s Original.setPagebucket t := by
  refine h.findPageBucket.seq fun bucket s' t' h => ?_
  intro r s' hrun
  cases hrun
  exact ⟨true, _, rfl, rfl, rfl, { h with bucket := fun _ => rfl }⟩

/-- Both compute the same adjustment of the break. -/
theorem alignBy_unsigned (op : UInt32) :
    (let n := ((4096 : Int32).toUInt32 - overheadSize
        - (op &&& ((4096 : Int32) - 1).toUInt32)).toInt32
      if n < 0 then n + 4096 else n) = Port.alignBy op := by
  have hn : ((4096 : Int32).toUInt32 - overheadSize
      - (op &&& ((4096 : Int32) - 1).toUInt32)).toInt32 = 4092 - (op.toInt32 &&& 4095) := by
    rw [UInt32.toInt32_sub, UInt32.toInt32_and]
    rfl
  simp only [hn]
  rfl

/-- The first call: `n > 0` and `n != 0` are the same test of an adjustment
that is not negative. -/
theorem firstCall (h : Alike c s t) :
    Follows (fun r s' r' t' => r = r' ∧ Alike (r = true) s' t' ∧
        (r = false → ¬ InitOk s'.log))
      (Port.firstCall release) s (Original.firstCall 4096) t := by
  have hn : pageSize.toInt32 - overheadSize.toInt32 = 4092 := rfl
  have hmask : pageSize.toInt32 - 1 = 4095 := rfl
  simp only [Port.firstCall, Original.firstCall, release_subI32, release_addI32, pure_bind,
    hn, hmask]
  -- setting the page size
  refine Follows.bind (Q := fun _ s' _ t' => Alike False s' t') ?_ fun _ s' _ t' h => ?_
  · intro r s' hrun
    cases hrun
    exact ⟨(), _, rfl, { h with page := rfl, bucket := False.elim }⟩
  refine (h.sbrk .query 0).bind ?_
  rintro op s' _ t' ⟨rfl, h, _⟩
  simp only [alignBy_unsigned]
  obtain ⟨_, _, hneg⟩ := Port.alignBy_spec op
  have hvalue : Port.alignBy op = if 4092 - (op.toInt32 &&& 4095) < 0
      then 4092 - (op.toInt32 &&& 4095) + pageSize.toInt32
      else 4092 - (op.toInt32 &&& 4095) := rfl
  generalize 4092 - (op.toInt32 &&& 4095) = m at hvalue ⊢
  generalize Port.alignBy op = a at hneg hvalue ⊢
  have hset {s : Machine Port.Statics} {t : Machine Original.Statics} (h : Alike False s t) :
      Follows (fun r s' r' t' => r = r' ∧ Alike (r = true) s' t' ∧
          (r = false → ¬ InitOk s'.log))
        (Port.setPageBucket release) s Original.setPagebucket t := by
    refine h.setPageBucket.mono ?_
    rintro _ s' _ t' ⟨rfl, rfl, h'⟩
    exact ⟨rfl, h'.imp fun _ => trivial, by simp⟩
  have hrest (n : Int32) (hn : n = a) :
      Follows (fun r s' r' t' => r = r' ∧ Alike (r = true) s' t' ∧
          (r = false → ¬ InitOk s'.log))
        (if n > 0 then do
            let interm ← Kmalloc.sbrk .align n
            if interm = sbrkFailed then return false else Port.setPageBucket release
          else Port.setPageBucket release) s'
        (if a ≠ 0 then do
            let brk ← Kmalloc.sbrk .align a
            if brk = sbrkFailed then return false else Original.setPagebucket
          else Original.setPagebucket) t' := by
    subst hn
    have htest : n > 0 ↔ n ≠ 0 := by
      simp only [gt_iff_lt, ne_eq, Int32.lt_iff_toInt_lt, ← Int32.toInt_inj] at hneg ⊢
      omega
    refine .ite htest (fun _ => (h.sbrk .align _).bind ?_) fun _ => hset h
    rintro brk s'' _ t'' ⟨rfl, h', rfl⟩
    refine .ite Iff.rfl (fun hfail => .pure ⟨rfl, h'.imp (by simp), fun _ hok => ?_⟩)
      fun _ => hset h'
    exact hok _ (List.mem_append_right _ (List.mem_singleton_self _)) rfl hfail
  split
  · rename_i hlt
    rw [if_pos hlt] at hvalue
    exact hrest _ hvalue.symm
  · rename_i hlt
    rw [if_neg hlt] at hvalue
    exact hrest _ hvalue.symm

theorem growClass (h : Alike c s t) (nbytes : UInt32) (n : Int32) (amt : UInt32)
    (bucket : Int32) :
    Follows (Same (Alike c)) (Port.growClass release nbytes n amt bucket) s
      (Original.growClass nbytes n amt bucket) t := by
  refine Follows.loop (I := fun v s w t => v = w ∧ Alike c s t) (fun v s w t hI => ?_)
    (Nat.le_refl _) ⟨rfl, h⟩
  obtain ⟨rfl, h⟩ := hI
  simp only [Port.growStep, Original.growStep, release_addI32, pure_bind,
    Int32.toUInt32_add, UInt32.toUInt32_toInt32]
  refine .ite Iff.rfl (fun _ => .ite Iff.rfl (fun _ => .pure ?_) fun _ => .pure ?_)
    fun _ => .pure ?_
  · exact .inr ⟨_, _, rfl, rfl, rfl, h⟩
  · exact .inl ⟨_, _, rfl, rfl, rfl, h⟩
  · exact .inr ⟨_, _, rfl, rfl, rfl, h⟩

theorem selectBucket (h : Alike True s t) (nbytes : UInt32) :
    Follows (Same (Alike True)) (Port.selectBucket release nbytes) s
      (Original.selectBucket nbytes) t := by
  simp only [Port.selectBucket, Original.selectBucket, release_subI32, pure_bind]
  apply Follows.get
  have hn : (t.vars.pagesz.toUInt32 - overheadSize).toInt32
      = s.vars.pageSz.toInt32 - overheadSize.toInt32 := by
    rw [UInt32.toInt32_sub, h.page, UInt32.toUInt32_toInt32]
  rw [hn]
  refine .ite Iff.rfl (fun _ => h.growClass _ _ _ _) fun _ => ?_
  rw [h.page, UInt32.toUInt32_toInt32, h.bucket trivial]
  exact h.growClass _ _ _ _

theorem toNatClampNeg_pred_le {x : Int32} (hx : 0 ≤ x) :
    (x - 1).toNatClampNeg ≤ x.toNatClampNeg := by
  cases hk : x.toNatClampNeg with
  | succ k =>
      rw [(Port.toNatClampNeg_pred hk).2]
      omega
  | zero =>
      have hzero : x = 0 := by
        rw [Int32.le_iff_toInt_le] at hx
        rw [Int32.toNatClampNeg] at hk
        rw [← Int32.toInt_inj]
        simp at hx ⊢
        omega
      rw [hzero]
      decide

/-- The port takes the first block off the count before the loop, the
original in the loop's test. -/
theorem carve (h : Alike c s t) (sz nblks : Int32) (a : UInt32) (hnblks : 0 ≤ nblks) :
    Follows (Same (Alike c)) (Port.carve release sz (nblks - 1) a) s
      (Original.carve sz nblks a) t := by
  have hfuel := Nat.add_le_add_right (toNatClampNeg_pred_le hnblks) 1
  refine Follows.loop (I := fun v s w t => w = (v.1 + 1, v.2) ∧ Alike c s t)
    (fun v s w t hI => ?_) hfuel ⟨?_, h⟩
  · obtain ⟨rfl, h⟩ := hI
    simp only [Port.carveStep, Original.carveStep, release_addI32, release_subI32, pure_bind,
      Int32.add_sub_cancel, Int32.toUInt32_add, UInt32.toUInt32_toInt32]
    refine .ite Iff.rfl (fun _ => (h.store32 _ _).seq fun _ s' t' h' => .pure ?_)
      fun _ => .pure ?_
    · exact .inl ⟨_, _, rfl, rfl, by rw [Int32.sub_add_cancel], h'⟩
    · exact .inr ⟨_, _, rfl, rfl, rfl, h⟩
  · rw [Int32.sub_add_cancel]

/-- A page's share of blocks is not negative. -/
theorem div_nonneg {sz page : Int32} (hsz : 0 < sz) (hlt : sz < page) : 0 ≤ page / sz := by
  rw [Int32.lt_iff_toInt_lt] at hsz hlt
  have hzero : (0 : Int32).toInt = 0 := rfl
  rw [hzero] at hsz
  have hle := Int.tdiv_le_self (b := sz.toInt) (show 0 ≤ page.toInt by omega)
  have hge := Int.tdiv_nonneg (show 0 ≤ page.toInt by omega) (show 0 ≤ sz.toInt by omega)
  have hpage := page.toInt_lt
  rw [Int32.le_iff_toInt_le, Int32.toInt_div, hzero, Int.bmod_eq_of_le (by omega) (by omega)]
  exact hge

/-- `morecore` for a block size that is positive as an `i32`: there the
original has a guard and the port an assertion. -/
theorem morecore (h : Alike c s t) {b : Nat} (hb : b < 28) :
    Follows (Same (Alike c)) (Port.morecore release (Int32.ofNat b)) s
      (Original.morecore (Int32.ofNat b)) t := by
  have hpos := Port.blockSize_pos hb
  simp only [Port.morecore, Original.morecore, release_addI32, release_subI32,
    release_shlOneI32, release_kassert, pure_bind]
  generalize ((1 : UInt32) <<< (Int32.ofNat b + 3).toUInt32).toInt32 = sz at hpos ⊢
  have hguard : ¬ sz ≤ 0 := by
    rw [Int32.not_le]
    exact hpos
  rw [if_neg hguard, Original.grow]
  apply Follows.get
  rw [h.page]
  have hregion (amt nblks : Int32) (hnblks : 0 ≤ nblks) : Follows (Same (Alike c))
      (do let overhead ← Kmalloc.sbrk (.morecore (Int32.ofNat b)) amt
          if overhead = sbrkFailed then return ()
          else
            Port.setNextf (Int32.ofNat b).toUInt32 overhead
            Port.carve release sz (nblks - 1) overhead) s
      (do let op ← Kmalloc.sbrk (.morecore (Int32.ofNat b)) amt
          if op = sbrkFailed then return ()
          else
            Original.setNextf (Int32.ofNat b) op
            Original.carve sz nblks op) t := by
    refine (h.sbrk _ amt).bind ?_
    rintro a s' _ t' ⟨rfl, h', _⟩
    refine .ite Iff.rfl (fun _ => .pure ⟨rfl, h'⟩) fun _ => ?_
    exact (h'.setNextf _ a).seq fun _ _ _ h'' => h''.carve sz nblks a hnblks
  by_cases hlt : sz < s.vars.pageSz.toInt32
  · simp only [hlt, if_true]
    exact hregion _ _ (div_nonneg hpos hlt)
  · simp only [hlt, if_false]
    exact hregion _ _ (by decide)

theorem firstFree (h : Alike c s t) {b : Nat} (hb : b < 28) :
    Follows (Same (Alike c)) (Port.firstFree release (Int32.ofNat b)) s
      (Original.firstFree (Int32.ofNat b)) t := by
  refine (h.nextf_same _).seq fun a s' t' h' => ?_
  refine .ite Iff.rfl (fun _ => ?_) fun _ => .pure ⟨rfl, h'⟩
  exact (h'.morecore hb).seq fun _ s'' t'' h'' => h''.nextf_same _

theorem takeBlock (h : Alike c s t) {b : Nat} (hb : b < 28) :
    Follows (Same (Alike c)) (Port.takeBlock release (Int32.ofNat b)) s
      (Original.takeBlock (Int32.ofNat b)) t := by
  refine (h.firstFree hb).seq fun a s' t' h' => ?_
  refine .ite Iff.rfl (fun _ => .pure ⟨rfl, h'⟩) fun _ => ?_
  refine (h'.load32 a).seq fun next _ _ h' => (h'.setNextf _ next).seq fun _ _ _ h' => ?_
  refine (h'.store8 a magic).seq fun _ _ _ h' => (h'.store8 _ _).seq fun _ _ _ h' => ?_
  exact .pure ⟨rfl, h'⟩

/-- Serving a request that the classes of a positive `i32` size serve. -/
theorem serve (h : Alike True s t) (hpage : s.vars.pageSz = 4096)
    (hbucket : s.vars.pageBucket = 9) {nbytes : UInt32} (hn : nbytes.toNat ≤ maxReq) :
    Follows (Same (Alike True)) (Port.serve release nbytes) s (Original.serve nbytes) t := by
  have hknown : ∀ r s', (Port.selectBucket release nbytes).run s = .ok (r, s') →
      ∀ bucket, r = some bucket → ∃ b < 28, bucket = Int32.ofNat b := by
    intro r s' hrun bucket hr
    rw [Port.run_selectBucket nbytes hpage] at hrun
    cases hrun
    obtain ⟨b, hclass, hbase⟩ := Option.map_eq_some_iff.mp hr
    obtain ⟨_, hb, hmin⟩ := sizeClass_eq_some.mp hclass
    refine ⟨b, ?_, ?_⟩
    · by_contra hge
      have := hmin 27 (by omega)
      rw [cap_top] at this
      omega
    · rw [← hbase, hbucket]
      simp
  refine ((h.selectBucket nbytes).known hknown).bind ?_
  rintro r s' _ t' ⟨hr, rfl, h'⟩
  cases r with
  | none => exact .pure ⟨rfl, h'⟩
  | some bucket =>
      obtain ⟨b, hb, rfl⟩ := hr bucket rfl
      exact h'.takeBlock hb

/-- **`kmalloc`**, from the first call on. -/
theorem kmalloc (h : Alike (s.vars.pageSz ≠ 0) s t) (hmode : Mode s) (hok : InitOk s.log)
    {nbytes : UInt32} (hn : nbytes.toNat ≤ maxReq) :
    Follows (fun r s' r' t' => r = r' ∧ Alike (InitOk s'.log) s' t')
      (Port.kmalloc release nbytes) s (Original.kmalloc 4096 nbytes) t := by
  have hzero : s.vars.pageSz = 0 ↔ t.vars.pagesz = 0 := by
    rw [h.page]
    refine ⟨fun h0 => by rw [h0]; rfl, fun h0 => ?_⟩
    have := congrArg Int32.toUInt32 h0
    rwa [UInt32.toUInt32_toInt32] at this
  have hserve {s : Machine Port.Statics} {t : Machine Original.Statics} (h : Alike True s t)
      (hpage : s.vars.pageSz = 4096) (hbucket : s.vars.pageBucket = 9) :
      Follows (fun r s' r' t' => r = r' ∧ Alike (InitOk s'.log) s' t')
        (Port.serve release nbytes) s (Original.serve nbytes) t := by
    refine (h.serve hpage hbucket hn).mono ?_
    rintro r s' _ t' ⟨rfl, h'⟩
    exact ⟨rfl, h'.imp fun _ => trivial⟩
  refine Follows.get (.ite hzero (fun hpage => ?_) fun hpage => ?_)
  · have hknown : ∀ r s', (Port.firstCall release).run s = .ok (r, s') →
        s'.vars.pageSz = 4096 ∧ (r = true → s'.vars.pageBucket = 9) := by
      intro r s' hrun
      rw [Port.run_firstCall] at hrun
      have hcases := initialised_cases s
      rw [Except.ok.inj hrun] at hcases
      rcases hcases with ⟨hpage', _, _, _, ⟨_, hbucket, _⟩ | ⟨hfalse, _⟩⟩
      · exact ⟨hpage', fun _ => hbucket⟩
      · exact ⟨hpage', fun htrue => absurd (htrue.symm.trans hfalse) (by decide)⟩
    refine (h.firstCall.known hknown).bind ?_
    rintro r s' _ t' ⟨⟨hpage', hbucket⟩, rfl, h', hbad⟩
    cases r with
    | false => exact .pure ⟨rfl, h'.imp fun hok' => absurd hok' (hbad rfl)⟩
    | true => exact hserve (h'.imp fun _ => rfl) hpage' (hbucket rfl)
  · have hpage' : s.vars.pageSz = 4096 := by
      cases hmode with
      | unset h0 _ _ => exact absurd h0 hpage
      | ready h4096 _ => exact h4096
      | failed h4096 _ _ => exact h4096
    exact hserve (h.imp fun _ => hpage) hpage' (hmode.bucket hpage' hok)

/-- `realloc` from its call of `kmalloc` on. -/
theorem moveTo (h : Alike (s.vars.pageSz ≠ 0) s t) (hmode : Mode s) (hok : InitOk s.log)
    {nbytes : UInt32} (hn : nbytes.toNat ≤ maxReq) (cp onb : UInt32) :
    Follows (fun r s' r' t' => r = r' ∧ Alike (InitOk s'.log) s' t')
      (Port.moveTo release cp nbytes onb) s (Original.moveTo 4096 cp nbytes onb) t := by
  refine (h.kmalloc hmode hok hn).bind ?_
  rintro res s' _ t' ⟨rfl, h'⟩
  refine .ite Iff.rfl (fun _ => .pure ⟨rfl, h'⟩) fun _ => ?_
  refine .ite Iff.rfl (fun _ => ?_) fun _ => .pure ⟨rfl, h'⟩
  refine (h'.memcpy res cp _).bind ?_
  rintro _ s'' _ t'' ⟨rfl, hlog, h''⟩
  exact .pure ⟨rfl, hlog ▸ h''⟩

/-! ## `kfree` and `realloc` of a block in use -/

/-- The original's sanity check passes on a block in use. -/
theorem kfree (h : Alike c s t) {cp : UInt32}
    (hmagic : cp ≠ null → s.mem (cp - overheadSize) = magic) :
    Follows (Same (Alike c)) (Port.kfree release cp) s (Original.kfree cp) t := by
  simp only [Port.kfree, Original.kfree, release_subU32, release_kassert, pure_bind]
  refine .ite Iff.rfl (fun _ => .pure ⟨rfl, h⟩) fun hcp => ?_
  refine (h.load8 _).bind ?_
  rintro m s' _ t' ⟨hm, rfl, h'⟩
  rw [if_neg (not_not.mpr (hm.trans (hmagic hcp)))]
  refine (h'.load8 _).bind ?_
  rintro i s' _ t' ⟨_, rfl, h'⟩
  refine (h'.nextf_same _).seq fun next _ _ h' => ?_
  exact (h'.store32 _ next).seq fun _ _ _ h' => h'.setNextf _ _

end Alike

namespace Original

variable {t : Machine Statics}

/-- The window of `krealloc`, in the original's arithmetic. -/
theorem window {b : Nat} (hb : b < 29) : oldSize 4096 (Int32.ofNat b) = UInt32.ofNat (cap b) ∧
    lowerSize 4096 (Int32.ofNat b) = Int32.ofNat (Port.capBelow b) := by
  have h : ∀ b : Fin 29, oldSize 4096 (Int32.ofNat b.val) = UInt32.ofNat (cap b.val) ∧
      lowerSize 4096 (Int32.ofNat b.val) = Int32.ofNat (Port.capBelow b.val) := by decide
  exact h ⟨b, hb⟩

/-- `krealloc` of a block in use: kept, or given back and then moved. -/
theorem run_krealloc (fuel : Nat) {cp nbytes : UInt32} {b : Fin nbuckets}
    (hb : b.val < 29) (hpage : t.vars.pagesz = 4096) (hcp : cp ≠ null) (hn : nbytes ≠ 0)
    (hmagic : t.mem (cp - overheadSize) = magic)
    (hindex : (t.mem (cp - overheadSize + 1)).toNat = b) :
    (krealloc 4096 fuel cp nbytes).run t =
      if sizeClass nbytes.toNat = some b.val then .ok (cp, t)
      else (do
        kfree cp
        moveTo 4096 cp nbytes (UInt32.ofNat (cap b))).run t := by
  have hbyte : (t.mem (cp - overheadSize + 1)).toUInt32.toInt32 = Int32.ofNat b := by
    have hword : (t.mem (cp - overheadSize + 1)).toUInt32 = UInt32.ofNat b := by
      apply UInt32.toNat_inj.mp
      rw [UInt8.toNat_toUInt32, hindex, Port.toNat_bucket]
    rw [hword]
    rfl
  have hold : (oldBucket fuel (cp - overheadSize)).run t = .ok ((true, Int32.ofNat b), t) := by
    simp only [oldBucket, StateT.run_bind, run_load8, ok_bind, hmagic, if_true, hbyte]
    rfl
  obtain ⟨hsize, hlower⟩ := window hb
  simp only [krealloc, hcp, hn, if_false, if_true, StateT.run_bind, hold, ok_bind,
    StateT.run_get, pure_eq_ok, hpage, hsize, hlower, Port.keeps_iff hb hn]
  split <;> rfl

end Original

section Block

variable {s : Machine Port.Statics} {t : Machine Original.Statics} {live : List Handle}
  {S : Stock Block.bucket}

theorem Alike.realloc (h : Alike (s.vars.pageSz ≠ 0) s t) (hrepr : Repr ⟨s, live⟩ S)
    (hok : InitOk s.log) {cp n : UInt32} (hn : n.toNat ≤ maxReq)
    (hcp : cp = null ∨ Held live cp) (fuel fuel' : Nat) :
    Follows (fun r s' r' t' => r = r' ∧ Alike (InitOk s'.log) s' t')
      (Port.realloc release fuel cp n) s (Original.krealloc 4096 fuel' cp n) t := by
  rcases hcp with rfl | hheld
  · rw [Port.realloc, Original.krealloc, if_pos rfl, if_pos rfl]
    exact h.kmalloc hrepr.mode hok hn
  obtain ⟨x, hx, rfl⟩ := hrepr.owns.exists_held hheld
  have hne := hrepr.owns.ptr_ne_null (.inl hx)
  have hpage : s.vars.pageSz = 4096 := hrepr.mode.page hrepr.owns hx
  have hpage' : s.vars.pageSz ≠ 0 := by
    rw [hpage]
    decide
  obtain ⟨hmagic, hindex⟩ := hrepr.owns.header x hx
  rw [← Owns.ptr_sub] at hmagic hindex
  have hfree := h.kfree (fun _ => hmagic)
  by_cases h0 : n = 0
  · -- both free the block and return null
    rw [Port.realloc, Original.krealloc, if_neg hne, if_neg hne, if_pos h0, if_pos h0]
    exact hfree.seq fun _ _ _ h' => .pure ⟨rfl, h'.imp fun _ => hpage'⟩
  · intro r s' hrun
    have hb := (hrepr.owns.size x ((hrepr.owns.has x).mp (.inl hx))).1
    have htpage : t.vars.pagesz = 4096 := by
      rw [h.page, hpage]
      rfl
    have hmem := h.mem
    rw [hrepr.owns.run_realloc hx hpage h0] at hrun
    rw [Original.run_krealloc fuel' hb htpage hne h0 (hmem ▸ hmagic) (hmem ▸ hindex)]
    split at hrun
    · rename_i hclass
      cases hrun
      rw [if_pos hclass]
      exact ⟨_, _, rfl, rfl, h.imp fun _ => hpage'⟩
    · -- both free the block before they ask for the new one
      rename_i hclass
      rw [if_neg hclass]
      obtain ⟨_, u, hfree', _, h'⟩ := hfree _ _ (hrepr.owns.run_kfree hx)
      have hmove := (h'.imp fun _ => hpage').moveTo (hrepr.kfree hx).mode hok hn x.ptr
        (UInt32.ofNat (cap x.bucket))
      obtain ⟨r', t', hmove', hres⟩ := hmove r s' hrun
      exact ⟨r', t', run_bind_eq_ok.mpr ⟨(), u, hfree', hmove'⟩, hres⟩

end Block

/-! ## Runs -/

/-- A system of the port and one of the original that agree. -/
structure Linked (a : Sys Port.Statics) (u : Sys Original.Statics) : Prop where
  alike : Alike (a.machine.vars.pageSz ≠ 0) a.machine u.machine
  live : u.live = a.live

section Runs

variable {a b : Sys Port.Statics} {u v : Sys Original.Statics} {S : Stock Block.bucket}
  {c : Call} {r : UInt32} {fuel fuel' : Nat}

/-- **The step lemma**: a call of a disciplined client returns the same from
both, and leaves them agreeing. -/
theorem Linked.perform (fuel' : Nat) (h : Linked a u) (hsound : Sound a S) (hc : Disciplined a c)
    (hperform : (Port.allocator fuel).perform a c = .ok (r, b)) :
    ∃ v, (Original.allocator 4096 fuel').perform u c = .ok (r, v) ∧
      v.machine.log = b.machine.log ∧ (InitOk b.machine.log → Linked b v) := by
  obtain ⟨s, live⟩ := a
  obtain ⟨t, live'⟩ := u
  obtain ⟨halike, hlive⟩ := h
  dsimp only at halike hlive
  subst hlive
  obtain ⟨hrepr, hfit, hok⟩ := hsound
  cases c with
  | kmalloc n =>
      obtain ⟨s', hrun, rfl⟩ := perform_kmalloc.mp hperform
      obtain ⟨_, t', hrun', rfl, h'⟩ := halike.kmalloc hrepr.mode hok hc r s' hrun
      exact ⟨_, perform_kmalloc.mpr ⟨t', hrun', rfl⟩, h'.log,
        fun hok' => ⟨h'.imp fun _ => hok', rfl⟩⟩
  | kfree cp =>
      obtain ⟨s', hrun, rfl, rfl⟩ := perform_kfree.mp hperform
      have hheader : (cp ≠ null → s.mem (cp - overheadSize) = magic) ∧
          s'.vars.pageSz = s.vars.pageSz := by
        rcases hc with rfl | hheld
        · cases hrun
          exact ⟨fun hne => absurd rfl hne, rfl⟩
        · obtain ⟨x, hx, rfl⟩ := hrepr.owns.exists_held hheld
          rw [Owns.ptr_sub]
          cases (hrepr.owns.run_kfree hx).symm.trans hrun
          exact ⟨fun _ => (hrepr.owns.header x hx).1, rfl⟩
      obtain ⟨_, t', hrun', _, h'⟩ := halike.kfree hheader.1 _ s' hrun
      refine ⟨_, perform_kfree.mpr ⟨t', hrun', rfl, rfl⟩, h'.log, fun _ => ⟨?_, rfl⟩⟩
      exact h'.imp fun hne => hheader.2 ▸ hne
  | realloc cp n =>
      obtain ⟨s', hrun, rfl⟩ := perform_realloc.mp hperform
      obtain ⟨_, t', hrun', rfl, h'⟩ :=
        halike.realloc hrepr hok hc.1 hc.2 fuel fuel' r s' hrun
      exact ⟨_, perform_realloc.mpr ⟨t', hrun', rfl⟩, h'.log,
        fun hok' => ⟨h'.imp fun _ => hok', rfl⟩⟩
  | write cp off byte =>
      cases hperform
      refine ⟨_, rfl, halike.log, fun _ => ⟨?_, rfl⟩⟩
      exact { halike with mem := congrArg (Mem.store8 · _ byte) halike.mem }

/-- Two systems with an invariant of the port's. -/
def Joint (a : Sys Port.Statics) (u : Sys Original.Statics) : Prop :=
  Linked a u ∧ ∃ S, Sound a S

theorem Linked.disciplined (h : Linked a u) : Disciplined u c ↔ Disciplined a c := by
  cases c <;> simp only [Disciplined, h.live]

/-- A step of the port is matched by the original. -/
theorem Joint.step {l : Call × UInt32} (h : Joint a u)
    (hs : (Port.allocator fuel).Step Disciplined SbrkOk a l b) :
    ∃ v, (Original.allocator 4096 fuel').Step Disciplined SbrkOk u l v ∧ Joint b v := by
  obtain ⟨hlinked, S, hsound⟩ := h
  obtain ⟨hallowed, hperform, hok⟩ := hs
  obtain ⟨v, hperform', hlog, hlinked'⟩ :=
    hlinked.perform fuel' hsound hallowed hperform
  obtain ⟨S', hsound', _⟩ := hsound.step ⟨.of_disciplined hallowed, hperform, hok⟩
  exact ⟨v, ⟨hlinked.disciplined.mpr hallowed, hperform', by rwa [hlog]⟩, hlinked' hok.2,
    S', hsound'⟩

/-- A step of the original is matched by the port: the port's call returns,
and both programs are deterministic. -/
theorem Joint.step_back {l : Call × UInt32} (h : Joint a u)
    (hs : (Original.allocator 4096 fuel').Step Disciplined SbrkOk u l v) :
    ∃ b, (Port.allocator fuel).Step Disciplined SbrkOk a l b ∧ Joint b v := by
  obtain ⟨hlinked, S, hsound⟩ := h
  obtain ⟨hallowed, hperform', hok⟩ := hs
  have hallowed' := hlinked.disciplined.mp hallowed
  obtain ⟨c, r⟩ := l
  have hreturns : ∃ r b, (Port.allocator fuel).perform a c = .ok (r, b) :=
    hsound.returns (.of_disciplined hallowed')
  obtain ⟨r', b, hperform⟩ := hreturns
  obtain ⟨v', hsame, hlog, hlinked'⟩ :=
    hlinked.perform fuel' hsound hallowed' hperform
  obtain ⟨rfl, rfl⟩ := Prod.ext_iff.mp (Except.ok.inj (hsame.symm.trans hperform'))
  rw [hlog] at hok
  obtain ⟨S', hsound', _⟩ :=
    hsound.step (l := (c, r')) ⟨.of_disciplined hallowed', hperform, hok⟩
  exact ⟨b, ⟨hallowed', hperform, hok⟩, hlinked' hok.2, S', hsound'⟩

theorem Joint.start (mem : Mem) (os : Nat → UInt32) :
    Joint (Sys.start Port.Statics.initial mem os) (Sys.start Original.Statics.initial mem os) :=
  ⟨⟨⟨rfl, rfl, rfl, rfl, rfl, fun hne => absurd rfl hne⟩, rfl⟩, _, .start mem os⟩

end Runs

/-! ## The theorem -/

/-- The two programs have made the same calls of `sbrk` and have the same
free lists and the same bytes in memory. -/
structure Agree (a : Sys Port.Statics) (u : Sys Original.Statics) : Prop where
  log : u.machine.log = a.machine.log
  nextf : u.machine.vars.nextf = a.machine.vars.nextf
  mem : u.machine.mem = a.machine.mem

theorem Joint.agree {a : Sys Port.Statics} {u : Sys Original.Statics} (h : Joint a u) :
    Agree a u :=
  ⟨h.1.alike.log, h.1.alike.nextf, h.1.alike.mem⟩

/-- **Simulation**: on the same initial memory and the same answers of `sbrk`,
every run of a disciplined client against the port is one against the
original, call by call with the same returned pointers, and ends in agreement
with it; and every run against the original is one against the port. -/
theorem port_simulates_original (fuel fuel' : Nat) (mem : Mem) (os : Nat → UInt32) :
    (∀ tr a, Run ((Port.allocator fuel).Step Disciplined SbrkOk)
        (Sys.start Port.Statics.initial mem os) tr a →
      ∃ tr' u, Run ((Original.allocator 4096 fuel').Step Disciplined SbrkOk)
          (Sys.start Original.Statics.initial mem os) tr' u ∧
        labels tr' = labels tr ∧ Agree a u) ∧
    ∀ tr' u, Run ((Original.allocator 4096 fuel').Step Disciplined SbrkOk)
        (Sys.start Original.Statics.initial mem os) tr' u →
      ∃ tr a, Run ((Port.allocator fuel).Step Disciplined SbrkOk)
          (Sys.start Port.Statics.initial mem os) tr a ∧
        labels tr = labels tr' ∧ Agree a u := by
  constructor
  · intro tr a hrun
    have hstep : ∀ a l b u, Joint a u → (Port.allocator fuel).Step Disciplined SbrkOk a l b →
        ∃ v, (Original.allocator 4096 fuel').Step Disciplined SbrkOk u l v ∧ Joint b v :=
      fun _ _ _ _ h hs => h.step hs
    obtain ⟨tr', u, hrun', hlabels, hjoint⟩ := hrun.simulation (.start mem os) hstep
    exact ⟨tr', u, hrun', hlabels, hjoint.agree⟩
  · intro tr' u hrun'
    have hstep : ∀ u l v a, Joint a u →
        (Original.allocator 4096 fuel').Step Disciplined SbrkOk u l v →
        ∃ b, (Port.allocator fuel).Step Disciplined SbrkOk a l b ∧ Joint b v :=
      fun _ _ _ _ h hs => h.step_back hs
    obtain ⟨tr, a, hrun, hlabels, hjoint⟩ :=
      hrun'.simulation (R := fun u a => Joint a u) (.start mem os) hstep
    exact ⟨tr, a, hrun, hlabels, hjoint.agree⟩

/-- A block that moves with what was stored in it, and a request that `sbrk`
refuses. -/
theorem exists_moving_run : ∃ tr a,
    Run ((Port.allocator 0).Step Disciplined SbrkOk) (Port.boot twoPages) tr a ∧
    labels tr = [(.kmalloc 16, 4096), (.write 4096 2 7, null), (.realloc 4096 100, 8192),
      (.kmalloc 5000, null)] ∧ a.machine.mem 8194 = 7 := by
  obtain ⟨tr, a, hrun, hlabels, hbyte⟩ := exists_run_of_observe
    (show (Port.allocator 0).observe Disciplined SbrkOk
      [.kmalloc 16, .write 4096 2 7, .realloc 4096 100, .kmalloc 5000] (Port.boot twoPages)
      (fun a => a.machine.mem 8194) = some ([4096, 0, 8192, 0], 7) by decide +kernel)
  exact ⟨tr, a, hrun, hlabels, hbyte⟩

theorem port_simulates_original_moved : ∃ tr a tr' u,
    Run ((Port.allocator 0).Step Disciplined SbrkOk) (Port.boot twoPages) tr a ∧
    labels tr = [(.kmalloc 16, 4096), (.write 4096 2 7, null), (.realloc 4096 100, 8192),
      (.kmalloc 5000, null)] ∧
    Run ((Original.allocator 4096 0).Step Disciplined SbrkOk)
      (Sys.start Original.Statics.initial (fun _ => 0) twoPages) tr' u ∧
    labels tr' = labels tr ∧ Agree a u ∧ u.machine.mem 8194 = 7 := by
  obtain ⟨tr, a, hrun, hlabels, hbyte⟩ := exists_moving_run
  obtain ⟨tr', u, hrun', hsame, hagree⟩ :=
    (port_simulates_original 0 0 (fun _ => 0) twoPages).1 tr a hrun
  exact ⟨tr, a, tr', u, hrun, hlabels, hrun', hsame, hagree, hagree.mem ▸ hbyte⟩

end Challenges.Kmalloc

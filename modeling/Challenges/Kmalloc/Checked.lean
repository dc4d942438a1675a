import Challenges.Lib.Trap
import Challenges.Kmalloc.Compaction

/-!
# Checked — the build with overflow checks

Function by function, what `kmalloc.rs` does in a build that checks for
overflow: the same as in the release build, or it panics. Two places can
panic on a well-formed heap. `morecore` casts addresses to `i32` and adds the
block size, which a region around 2^31 does not allow. And `realloc` shifts by
`NBUCKETS + 3` for a free block that it has not found.
-/

namespace Challenges.Kmalloc

open Challenges.Lib Challenges.Kmalloc.Port

/-- The default features in a profile with overflow checks. -/
abbrev checked : Build := ⟨false, true⟩

/-! ## Arithmetic -/

section Arithmetic

variable {σ : Type} {x y : Int32} {u v : UInt32}

theorem checked_addI32 (h : BitVec.saddOverflow x.toBitVec y.toBitVec = false) :
    (checked.addI32 x y : M σ Int32) = pure (x + y) := by
  rw [Build.addI32, Build.check, h]
  rfl

theorem checked_addI32_overflow (h : BitVec.saddOverflow x.toBitVec y.toBitVec = true) :
    (checked.addI32 x y : M σ Int32) = throw .overflow := by
  rw [Build.addI32, Build.check, h]
  rfl

theorem checked_subI32 (h : BitVec.ssubOverflow x.toBitVec y.toBitVec = false) :
    (checked.subI32 x y : M σ Int32) = pure (x - y) := by
  rw [Build.subI32, Build.check, h]
  rfl

theorem checked_addU32 (h : BitVec.uaddOverflow u.toBitVec v.toBitVec = false) :
    (checked.addU32 u v : M σ UInt32) = pure (u + v) := by
  rw [Build.addU32, Build.check, h]
  rfl

theorem checked_subU32 (h : BitVec.usubOverflow u.toBitVec v.toBitVec = false) :
    (checked.subU32 u v : M σ UInt32) = pure (u - v) := by
  rw [Build.subU32, Build.check, h]
  rfl

theorem checked_shlOneI32 (h : x.toUInt32 < 32) :
    (checked.shlOneI32 x : M σ Int32) = pure ((1 : UInt32) <<< x.toUInt32).toInt32 := by
  have hge : ¬ x.toUInt32 ≥ 32 := UInt32.not_le.mpr h
  rw [Build.shlOneI32, Build.check, decide_eq_false hge]
  rfl

theorem checked_shlOneU32 (h : x.toUInt32 < 32) :
    (checked.shlOneU32 x : M σ UInt32) = pure ((1 : UInt32) <<< x.toUInt32) := by
  have hge : ¬ x.toUInt32 ≥ 32 := UInt32.not_le.mpr h
  rw [Build.shlOneU32, Build.check, decide_eq_false hge]
  rfl

theorem checked_shlOneU32_overflow (h : 32 ≤ x.toUInt32) :
    (checked.shlOneU32 x : M σ UInt32) = throw .overflow := by
  rw [Build.shlOneU32, Build.check, decide_eq_true h]
  rfl

theorem saddOverflow_iff : BitVec.saddOverflow x.toBitVec y.toBitVec = true ↔
    x.toInt + y.toInt < -2 ^ 31 ∨ 2 ^ 31 ≤ x.toInt + y.toInt := by
  simp [BitVec.saddOverflow, or_comm]

theorem ssubOverflow_iff : BitVec.ssubOverflow x.toBitVec y.toBitVec = true ↔
    x.toInt - y.toInt < -2 ^ 31 ∨ 2 ^ 31 ≤ x.toInt - y.toInt := by
  simp [BitVec.ssubOverflow, or_comm]

@[simp] theorem checked_kassert (test : Bool) :
    (checked.kassert test : M σ Unit) = pure () := (rfl)

end Arithmetic

namespace Port

variable {s t : Machine Statics} {n r : UInt32}

/-! ## The choice of a bucket -/

/-- A bucket can be counted up. -/
theorem succ_bucket_fits {k : Nat} (hk : k < 29) :
    BitVec.saddOverflow (Int32.ofNat k).toBitVec (1 : Int32).toBitVec = false := by
  have h : ∀ k : Fin 29,
      BitVec.saddOverflow (Int32.ofNat k.val).toBitVec (1 : Int32).toBitVec = false := by decide
  exact h ⟨k, hk⟩

/-- One round of the doubling loop does not overflow when its threshold does
not. -/
theorem growStep_checked {k : Nat} {d : Int32} (hk : k < 29)
    (hfit : BitVec.saddOverflow (UInt32.ofNat (2 ^ (k + 3))).toInt32.toBitVec d.toBitVec = false) :
    (growStep checked n d (UInt32.ofNat (2 ^ (k + 3)), Int32.ofNat k)).run s
      = (growStep release n d (UInt32.ofNat (2 ^ (k + 3)), Int32.ofNat k)).run s := by
  simp only [growStep, checked_addI32 hfit, checked_addI32 (succ_bucket_fits hk), release_addI32]

/-- The loop stays on the classes from `lo` to `hi`, whose thresholds fit. -/
theorem growClass_checked {lo hi : Nat} {d : Int32} (hlo : lo ≤ hi) (hhi : hi < 29)
    (hfit : ∀ k : Fin 29, lo ≤ k.val → k.val ≤ hi → BitVec.saddOverflow
      (UInt32.ofNat (2 ^ (k.val + 3))).toInt32.toBitVec d.toBitVec = false)
    (hlast : UInt32.ofNat (2 ^ (hi + 3)) <<< 1 = 0 ∨
      ¬ n > UInt32.ofNat (2 ^ (hi + 3)) + d.toUInt32) :
    (growClass checked n d (UInt32.ofNat (2 ^ (lo + 3))) (Int32.ofNat lo)).run s
      = (growClass release n d (UInt32.ofNat (2 ^ (lo + 3))) (Int32.ofNat lo)).run s := by
  apply loop_congr (I := fun v _ => ∃ k, lo ≤ k ∧ k ≤ hi ∧
    v = (UInt32.ofNat (2 ^ (k + 3)), Int32.ofNat k))
  · intro v s hv
    obtain ⟨k, hlok, hkhi, rfl⟩ := hv
    refine ⟨growStep_checked (by omega) (hfit ⟨k, by omega⟩ hlok hkhi), fun v' s' hstep => ?_⟩
    rw [run_growStep] at hstep
    split at hstep
    · rename_i hgt
      split at hstep
      · cases hstep
      · -- another round, so this was not the last class
        rename_i hne
        have hlt : k ≠ hi := by
          rintro rfl
          exact hlast.elim hne fun hno => hno hgt
        cases hstep
        refine ⟨k + 1, by omega, by omega, ?_⟩
        rw [(shl_one_amt (by omega)).1, Int32.ofNat_add]
        rfl
    · cases hstep
  · exact ⟨lo, Nat.le_refl _, hlo, rfl⟩

theorem selectBucket_checked (hpage : s.vars.pageSz = 4096) (hbucket : s.vars.pageBucket = 9) :
    (selectBucket checked n).run s = (selectBucket release n).run s := by
  have hn : (checked.subI32 (4096 : UInt32).toInt32 overheadSize.toInt32 : M Statics Int32)
      = pure 4092 := checked_subI32 (by decide)
  have hn' : (release.subI32 (4096 : UInt32).toInt32 overheadSize.toInt32 : M Statics Int32)
      = pure 4092 := rfl
  simp only [selectBucket, StateT.run_bind, StateT.run_get, pure_eq_ok, ok_bind, hpage, hbucket,
    hn, hn', StateT.run_pure]
  split
  · rename_i hle
    refine @growClass_checked s n 0 9 _ (by decide) (by decide) (by decide) (.inr ?_)
    have hthreshold : UInt32.ofNat (2 ^ (9 + 3)) + (-4 : Int32).toUInt32 = (4092 : Int32).toUInt32 := by
      decide
    rw [hthreshold, gt_iff_lt, UInt32.not_lt]
    exact hle
  · exact @growClass_checked s n 9 28 _ (by decide) (by decide) (by decide) (.inl (by decide))

/-! ## The first call -/

/-- Wherever the break is, the first call does not overflow. -/
theorem run_firstCall_checked : (firstCall checked).run s = .ok (initialised s) := by
  apply run_firstCall_fits
  case hsucc => exact fun k hk => checked_addI32 (succ_bucket_fits (by omega))
  case hn => exact checked_subI32 (by decide)
  case hmask => exact checked_subI32 (by decide)
  case hsub =>
    intro brk
    apply checked_subI32
    rw [← Bool.not_eq_true, ssubOverflow_iff, mask_page, Int32.toInt_ofNat_of_lt (by omega)]
    have : (4092 : Int32).toInt = 4092 := rfl
    omega
  case hadd =>
    intro brk
    apply checked_addI32
    have : pageSize.toInt32.toInt = 4096 := rfl
    rw [← Bool.not_eq_true, saddOverflow_iff, mask_page, toInt_sub_mask]
    omega

/-! ## `morecore` -/

/-- The address of a block, as an `i32`. -/
theorem toInt_toInt32 (a : UInt32) :
    a.toInt32.toInt = if a.toNat < 2 ^ 31 then (a.toNat : Int) else a.toNat - 2 ^ 32 := by
  have h := BitVec.toInt_eq_toNat_cond a.toBitVec
  rw [UInt32.toNat_toBitVec] at h
  rw [← Int32.toInt_toBitVec, UInt32.toBitVec_toInt32, h]
  split <;> split <;> omega

/-- The cast of an address overflows when the block ends above `i32::MAX`. -/
theorem link_overflow_iff {a : UInt32} {sz : Int32} {size : Nat} (hsz : sz.toInt = size) :
    BitVec.saddOverflow a.toInt32.toBitVec sz.toBitVec = true ↔
      a.toNat < 2 ^ 31 ∧ 2 ^ 31 ≤ a.toNat + size := by
  have := a.toNat_lt
  have := sz.toInt_lt
  rw [saddOverflow_iff, toInt_toInt32, hsz]
  split <;> omega

/-- `k` links of blocks of `size` bytes from `a` on, one of which starts below
2^31 and ends above. -/
def Straddles (a : UInt32) (size k : Nat) : Prop :=
  a.toNat < 2 ^ 31 ∧ 2 ^ 31 ≤ a.toNat + k * size

theorem carveStep_release {sz nblks : Int32} {a : UInt32} (hpos : nblks > 0) :
    (carveStep release sz (nblks, a)).run s = .ok (.inl (nblks - 1, a + sz.toUInt32),
      { s with mem := s.mem.store32 a (a + sz.toUInt32) }) := by
  simp [carveStep, hpos]

theorem carveStep_checked {sz nblks : Int32} {a : UInt32} (hpos : nblks > 0)
    (hfit : BitVec.saddOverflow a.toInt32.toBitVec sz.toBitVec = false) :
    (carveStep checked sz (nblks, a)).run s = (carveStep release sz (nblks, a)).run s := by
  have hsub : BitVec.ssubOverflow nblks.toBitVec (1 : Int32).toBitVec = false := by
    rw [gt_iff_lt, Int32.lt_iff_toInt_lt] at hpos
    have := nblks.toInt_lt
    have h0 : (0 : Int32).toInt = 0 := rfl
    have h1 : (1 : Int32).toInt = 1 := rfl
    rw [← Bool.not_eq_true, ssubOverflow_iff]
    omega
  simp only [carveStep, checked_addI32 hfit, checked_subI32 hsub, release_addI32, release_subI32]

theorem carveStep_overflow {sz nblks : Int32} {a : UInt32} (hpos : nblks > 0)
    (hover : BitVec.saddOverflow a.toInt32.toBitVec sz.toBitVec = true) :
    (carveStep checked sz (nblks, a)).run s = .error .overflow := by
  simp only [carveStep, hpos, if_true, checked_addI32_overflow hover]
  rfl

/-- **The carving loop** overflows at the block that straddles. -/
theorem carve_traps {sz : Int32} {size k : Nat} :
    ∀ {nblks : Int32} {a : UInt32} {s : Machine Statics}, nblks.toNatClampNeg = k →
      (0 < k → sz.toInt = size) → k * size ≤ 4096 →
      Traps .overflow (Straddles a size k)
        (loop Fault.diverges (carveStep checked sz) (k + 1) (nblks, a))
        (loop Fault.diverges (carveStep release sz) (k + 1) (nblks, a)) s := by
  induction k with
  | zero =>
      intro nblks a s hk _ _
      have hpos : ¬ nblks > 0 := by
        rw [gt_iff_lt, ← Int32.toNatClampNeg_pos_iff]
        omega
      have hdone (bld : Build) : (loop Fault.diverges (carveStep bld sz) (0 + 1) (nblks, a)).run s
          = .ok ((), s) := loop_done (by simp [carveStep, hpos])
      apply (Traps.never ((hdone checked).trans (hdone release).symm)).iff
      rw [Straddles, Nat.zero_mul, Nat.add_zero, false_iff, not_and, Nat.not_le]
      exact id
  | succ k ih =>
      intro nblks a s hk hsz hroom
      obtain ⟨hpos, hsub⟩ := toNatClampNeg_pred hk
      have hsize := hsz (Nat.succ_pos k)
      have hword : sz.toUInt32.toNat = size := by
        have hcast := toInt_toInt32 sz.toUInt32
        rw [Int32.toInt32_toUInt32, hsize] at hcast
        have := sz.toUInt32.toNat_lt
        split at hcast <;> omega
      have hover := link_overflow_iff (a := a) hsize
      rw [Nat.succ_mul] at hroom
      by_cases hfit : BitVec.saddOverflow a.toInt32.toBitVec sz.toBitVec = true
      · -- this link
        constructor
        · intro _
          unfold loop
          rw [StateT.run_bind, carveStep_overflow hpos hfit, error_bind]
        · intro hno
          rw [hover] at hfit
          rw [Straddles, Nat.succ_mul] at hno
          omega
      · -- a later one, if any
        have hstep := @carveStep_release s sz nblks a hpos
        have hstep' := (carveStep_checked hpos (Bool.not_eq_true _ ▸ hfit)).trans hstep
        rw [hover] at hfit
        apply Traps.of_run (loop_next hstep') (loop_next hstep)
        apply (ih hsub (fun _ => hsize) (by omega)).iff
        rw [Straddles, Straddles, UInt32.toNat_add, hword, Nat.succ_mul]
        have := a.toNat_lt
        omega

/-- The numbers of `morecore` fit, for every bucket that `kmalloc` can select. -/
theorem morecore_fits {b : Nat} (hb : b < 29) :
    let sz := ((1 : UInt32) <<< (Int32.ofNat b + 3).toUInt32).toInt32
    BitVec.saddOverflow (Int32.ofNat b).toBitVec (3 : Int32).toBitVec = false ∧
      (Int32.ofNat b + 3).toUInt32 < 32 ∧
      (¬ sz < 4096 → BitVec.saddOverflow sz.toBitVec (4096 : Int32).toBitVec = false) ∧
      BitVec.ssubOverflow (if sz < 4096 then 4096 / sz else 1 : Int32).toBitVec
        (1 : Int32).toBitVec = false ∧
      (b ≤ 8 → sz.toInt = room b) ∧ (nblks b - 1) * room b ≤ 4096 := by
  have h : ∀ b : Fin 29,
      let sz := ((1 : UInt32) <<< (Int32.ofNat b.val + 3).toUInt32).toInt32
      BitVec.saddOverflow (Int32.ofNat b.val).toBitVec (3 : Int32).toBitVec = false ∧
        (Int32.ofNat b.val + 3).toUInt32 < 32 ∧
        (¬ sz < 4096 → BitVec.saddOverflow sz.toBitVec (4096 : Int32).toBitVec = false) ∧
        BitVec.ssubOverflow (if sz < 4096 then 4096 / sz else 1 : Int32).toBitVec
          (1 : Int32).toBitVec = false ∧
        (b.val ≤ 8 → sz.toInt = room b) ∧ (nblks b - 1) * room b ≤ 4096 := by decide
  exact h ⟨b, hb⟩

/-- `morecore(b)` runs on a region that its links straddle. -/
def Crosses (s : Machine Statics) (b : Fin nbuckets) : Prop :=
  s.os s.log.length ≠ sbrkFailed ∧ Straddles (s.os s.log.length) (room b) (nblks b - 1)

theorem morecore_traps {b : Fin nbuckets} (hb : b.val < 29) (hpage : s.vars.pageSz = 4096) :
    Traps .overflow (Crosses s b) (morecore checked (Int32.ofNat b))
      (morecore release (Int32.ofNat b)) s := by
  obtain ⟨_, hn, _, hlarge⟩ := morecore_numbers hb
  obtain ⟨hbucket, hshift, hgrow, hcount, hroom, htotal⟩ := morecore_fits hb
  have hshl : (checked.shlOneI32 (Int32.ofNat b.val + 3) : M Statics Int32) = _ :=
    checked_shlOneI32 hshift
  have hshl' : (release.shlOneI32 (Int32.ofNat b.val + 3) : M Statics Int32) = _ :=
    release_shlOneI32 _
  generalize ((1 : UInt32) <<< (Int32.ofNat b.val + 3).toUInt32).toInt32 = sz at *
  have hrun := @run_morecore_carve s checked b sz hpage (checked_addI32 hbucket) hshl
    (fun _ => rfl) (fun hsz => checked_addI32 (hgrow hsz)) (checked_subI32 hcount)
  have hrun' := @run_morecore_carve s release b sz hpage rfl hshl' (fun _ => rfl)
    (fun _ => rfl) rfl
  by_cases hret : s.os s.log.length = sbrkFailed
  · rw [if_pos hret] at hrun hrun'
    exact (Traps.never (hrun.trans hrun'.symm)).iff (by simp [Crosses, hret])
  · rw [if_neg hret] at hrun hrun'
    have hlink : 0 < nblks b - 1 → sz.toInt = room b := by
      intro hpos
      apply hroom
      by_contra hgt
      have := hlarge (by omega)
      omega
    apply Traps.of_run hrun hrun'
    rw [carve, carve, hn]
    apply (carve_traps hn hlink htotal).iff
    rw [Crosses, and_iff_right hret]

/-! ## `kmalloc` -/

/-- `kmalloc(n)` runs `morecore` on a region that its links straddle, or one
whose first block has its header at the end of the address space. -/
def Overruns (s : Machine Statics) (n : UInt32) : Prop :=
  s.vars.pageBucket = 9 ∧ ∃ b : Fin nbuckets, sizeClass n.toNat = some b.val ∧
    s.vars.nextf b = null ∧ s.os s.log.length ≠ sbrkFailed ∧
      (Straddles (s.os s.log.length) (room b) (nblks b - 1) ∨
        2 ^ 32 - 4 ≤ (s.os s.log.length).toNat)

/-- The first blocks of the lists have room for a header. -/
def HeadsFit (s : Machine Statics) : Prop := ∀ b, (s.vars.nextf b).toNat < 2 ^ 32 - 4

/-- The address after a header. -/
theorem addOverhead_traps (p : UInt32) :
    Traps .overflow (2 ^ 32 - 4 ≤ p.toNat) (checked.addU32 p overheadSize)
      (release.addU32 p overheadSize) s := by
  have hiff : BitVec.uaddOverflow p.toBitVec overheadSize.toBitVec = true ↔
      2 ^ 32 - 4 ≤ p.toNat := by
    simp [BitVec.uaddOverflow]
  constructor
  · intro hend
    rw [Build.addU32, Build.check, hiff.mpr hend]
    rfl
  · intro hfits
    rw [← hiff, Bool.not_eq_true] at hfits
    rw [checked_addU32 hfits]
    rfl

theorem firstFree_traps {b : Fin nbuckets} (hb : b.val < 29) (hpage : s.vars.pageSz = 4096) :
    Traps .overflow (s.vars.nextf b = null ∧ Crosses s b) (firstFree checked (Int32.ofNat b))
      (firstFree release (Int32.ofNat b)) s := by
  by_cases hnull : s.vars.nextf b = null
  · have hrun (bld : Build) : (firstFree bld (Int32.ofNat b)).run s
        = (do morecore bld (Int32.ofNat b); nextf (UInt32.ofNat b.val)).run s := by
      simp only [firstFree, toUInt32_bucket, StateT.run_bind, run_nextf, ok_bind, if_pos hnull]
    apply Traps.of_run (hrun checked) (hrun release)
    apply ((morecore_traps hb hpage).before fun _ _ _ => rfl).iff
    rw [and_iff_right hnull]
  · have hrun (bld : Build) : (firstFree bld (Int32.ofNat b)).run s = .ok (s.vars.nextf b, s) := by
      simp only [firstFree, toUInt32_bucket, StateT.run_bind, run_nextf, ok_bind, if_neg hnull]
      rfl
    exact (Traps.never ((hrun checked).trans (hrun release).symm)).iff (by simp [hnull])

/-- Unlinking overflows when there is no room for a header. -/
theorem unlink_traps {b : Fin nbuckets} (p : UInt32) :
    Traps .overflow (2 ^ 32 - 4 ≤ p.toNat)
      (if p = null then return null else do
        setNextf (Int32.ofNat b).toUInt32 (← load32 p)
        store8 p magic
        store8 (p + 1) (Int32.ofNat b).toUInt32.toUInt8
        checked.addU32 p overheadSize)
      (if p = null then return null else do
        setNextf (Int32.ofNat b).toUInt32 (← load32 p)
        store8 p magic
        store8 (p + 1) (Int32.ofNat b).toUInt32.toUInt8
        release.addU32 p overheadSize) s := by
  by_cases hnull : p = null
  · rw [if_pos hnull, if_pos hnull, hnull]
    exact (Traps.never rfl).iff (by simp)
  · rw [if_neg hnull, if_neg hnull]
    apply Traps.after (run_load32 s p) (run_load32 s p)
    rw [toUInt32_bucket]
    apply Traps.after (run_setNextf b _) (run_setNextf b _)
    apply Traps.after (run_store8 _ p magic) (run_store8 _ p magic)
    apply Traps.after (run_store8 _ _ _) (run_store8 _ _ _)
    exact addOverhead_traps p

/-- The first block of a bucket after `morecore`. -/
theorem refilled_end_iff {b : Fin nbuckets} (hheads : HeadsFit s) :
    2 ^ 32 - 4 ≤ ((refilled s b).vars.nextf b).toNat ↔
      s.vars.nextf b = null ∧ s.os s.log.length ≠ sbrkFailed ∧
        2 ^ 32 - 4 ≤ (s.os s.log.length).toNat := by
  by_cases hnull : s.vars.nextf b = null
  · by_cases hret : s.os s.log.length = sbrkFailed
    · simp [refilled, hnull, afterMorecore_refused hret, hret]
    · simp [refilled, hnull, nextf_afterMorecore hret, hret]
  · have := hheads b
    rw [refilled, if_neg hnull]
    simp only [hnull, false_and, iff_false]
    omega

theorem takeBlock_traps {b : Fin nbuckets} (hb : b.val < 29) (hpage : s.vars.pageSz = 4096)
    (hheads : HeadsFit s) :
    Traps .overflow (s.vars.nextf b = null ∧ s.os s.log.length ≠ sbrkFailed ∧
        (Straddles (s.os s.log.length) (room b) (nblks b - 1) ∨
          2 ^ 32 - 4 ≤ (s.os s.log.length).toNat))
      (takeBlock checked (Int32.ofNat b)) (takeBlock release (Int32.ofNat b)) s := by
  have hrest := (firstFree_traps hb hpage).bind fun p t _ => unlink_traps (b := b) (s := t) p
  apply hrest.iff
  rw [run_firstFree hb hpage]
  have hend := refilled_end_iff (b := b) hheads
  constructor
  · rintro (⟨hnull, hret, hcross⟩ | ⟨p, t, hrun, hp⟩)
    · exact ⟨hnull, hret, .inl hcross⟩
    · cases hrun
      obtain ⟨hnull, hret, hp⟩ := hend.mp hp
      exact ⟨hnull, hret, .inr hp⟩
  · rintro ⟨hnull, hret, hcross | hp⟩
    · exact .inl ⟨hnull, hret, hcross⟩
    · exact .inr ⟨_, _, rfl, hend.mpr ⟨hnull, hret, hp⟩⟩

theorem serve_traps (hpage : s.vars.pageSz = 4096) (hbucket : s.vars.pageBucket = 9)
    (hheads : HeadsFit s) : Traps .overflow (Overruns s n) (serve checked n) (serve release n) s := by
  have hselect := run_selectBucket n hpage
  have hbase : (if n.toNat ≤ 4092 then (0 : Int32) else s.vars.pageBucket - 9) = 0 := by
    rw [hbucket]
    split <;> rfl
  rw [hbase] at hselect
  apply Traps.after ((selectBucket_checked hpage hbucket).trans hselect) hselect
  cases hclass : sizeClass n.toNat with
  | none => exact (Traps.never rfl).iff (by simp [Overruns, hclass])
  | some b =>
      have hb := (sizeClass_eq_some.mp hclass).2.1
      have htake := takeBlock_traps (b := ⟨b, lt_nbuckets hb⟩) hb hpage hheads
      simp only [Option.map_some, Int32.zero_add]
      apply htake.iff
      rw [Overruns, and_iff_right hbucket]
      constructor
      · intro hrest
        exact ⟨⟨b, lt_nbuckets hb⟩, hclass, hrest⟩
      · rintro ⟨c, hc, hrest⟩
        rw [hclass, Option.some_inj] at hc
        have hcb : (⟨b, lt_nbuckets hb⟩ : Fin nbuckets) = c := Fin.ext hc
        rwa [hcb]

/-- **`kmalloc`** in the checked build, whether or not anything is initialised. -/
theorem kmalloc_traps (hmode : Mode s)
    (hready : s.vars.pageSz = 4096 → s.vars.pageBucket = 9) (hheads : HeadsFit s) :
    Traps .overflow (Overruns (started s) n) (kmalloc checked n) (kmalloc release n) s := by
  cases hmode with
  | unset hpage hbucket _ =>
      have hrun (bld : Build) : (kmalloc bld n).run s
          = (do if ← firstCall bld then serve bld n else return null : M Statics UInt32).run s := by
        simp [kmalloc, hpage]
      obtain ⟨hpage', hnextf, _, _, hgo⟩ := initialised_cases s
      rw [started, if_pos hpage]
      have hfirst : (firstCall release).run s = .ok ((initialised s).1, (initialised s).2) := by
        rw [run_firstCall]
      have hfirst' : (firstCall checked).run s = .ok ((initialised s).1, (initialised s).2) := by
        rw [run_firstCall_checked]
      apply Traps.of_run (hrun checked) (hrun release)
      apply Traps.after hfirst' hfirst
      rcases hgo with ⟨hgo, hready, _⟩ | ⟨hgo, hstale, _⟩
      · have hheads' : HeadsFit (initialised s).2 := by
          intro b
          rw [hnextf]
          exact hheads b
        rw [if_pos hgo, if_pos hgo]
        exact serve_traps hpage' hready hheads'
      · -- the first call ends with null
        have hno : ¬ Overruns (initialised s).2 n := by
          intro h
          rw [Overruns, hstale, hbucket] at h
          exact absurd h.1 (by decide)
        rw [hgo]
        exact (Traps.never rfl).iff (by simp [hno])
  | ready hpage hbucket =>
      have hrun (bld : Build) : (kmalloc bld n).run s = (serve bld n).run s := by
        simp [kmalloc, hpage]
      rw [started_eq hpage]
      exact Traps.of_run (hrun checked) (hrun release) (serve_traps hpage hbucket hheads)
  | failed hpage hstale _ =>
      rw [hready hpage] at hstale
      exact absurd hstale (by decide)

/-! ## `realloc` -/

theorem subOverhead_checked {cp : UInt32} (hcp : 4 ≤ cp.toNat) :
    (checked.subU32 cp overheadSize : M Statics UInt32) = pure (cp - overheadSize) := by
  apply checked_subU32
  have h4 : overheadSize.toNat = 4 := rfl
  simp [BitVec.usubOverflow]
  omega

/-- `kfree` takes the address before the block, and computes nothing else. -/
theorem kfree_checked {cp : UInt32} (hcp : cp = null ∨ 4 ≤ cp.toNat) :
    (kfree checked cp).run s = (kfree release cp).run s := by
  rcases hcp with rfl | hcp
  · rfl
  · simp only [kfree, subOverhead_checked hcp, release_subU32, checked_kassert, release_kassert]

/-- The arithmetic of `oldSize` fits for a bucket that `kmalloc` can select,
and for the -1 of a search that failed. -/
theorem oldSize_fits {i : Int32} (hi : i = -1 ∨ ∃ b < 29, i = Int32.ofNat b) :
    BitVec.saddOverflow i.toBitVec (3 : Int32).toBitVec = false ∧ (i + 3).toUInt32 < 32 ∧
      ((1 : UInt32) <<< (i + 3).toUInt32 < 4096 → BitVec.usubOverflow
        ((1 : UInt32) <<< (i + 3).toUInt32).toBitVec overheadSize.toBitVec = false) ∧
      (¬ (1 : UInt32) <<< (i + 3).toUInt32 < 4096 → BitVec.uaddOverflow
        ((1 : UInt32) <<< (i + 3).toUInt32).toBitVec (4092 : UInt32).toBitVec = false) := by
  rcases hi with rfl | ⟨b, hb, rfl⟩
  · decide
  · have h : ∀ b : Fin 29,
        BitVec.saddOverflow (Int32.ofNat b.val).toBitVec (3 : Int32).toBitVec = false ∧
        (Int32.ofNat b.val + 3).toUInt32 < 32 ∧
        ((1 : UInt32) <<< (Int32.ofNat b.val + 3).toUInt32 < 4096 → BitVec.usubOverflow
          ((1 : UInt32) <<< (Int32.ofNat b.val + 3).toUInt32).toBitVec overheadSize.toBitVec
            = false) ∧
        (¬ (1 : UInt32) <<< (Int32.ofNat b.val + 3).toUInt32 < 4096 → BitVec.uaddOverflow
          ((1 : UInt32) <<< (Int32.ofNat b.val + 3).toUInt32).toBitVec (4092 : UInt32).toBitVec
            = false) := by decide
    exact h ⟨b, hb⟩

theorem oldSize_checked {i : Int32} (hi : i = -1 ∨ ∃ b < 29, i = Int32.ofNat b)
    (hpage : s.vars.pageSz = 4096) :
    (oldSize checked i).run s = (oldSize release i).run s := by
  obtain ⟨hadd, hshl, hsub, hgrow⟩ := oldSize_fits hi
  have hpageSub : (checked.subU32 4096 overheadSize : M Statics UInt32) = pure 4092 :=
    checked_subU32 (by decide)
  have hpageSub' : (4096 : UInt32) - overheadSize = 4092 := rfl
  simp only [oldSize, checked_addI32 hadd, checked_shlOneU32 hshl, release_addI32,
    release_shlOneU32, release_subU32, release_addU32, StateT.run_bind, StateT.run_get, pure_bind,
    pure_eq_ok, ok_bind, hpage, hpageSub, hpageSub']
  split
  · rename_i hsmall
    rw [checked_subU32 (hsub hsmall)]
  · rename_i hlarge
    rw [checked_addU32 (hgrow hlarge)]

/-- A larger index shifts too far: one byte of a header, or `NBUCKETS`. -/
theorem oldSize_overflow {j : Nat} (hlo : 29 ≤ j) (hhi : j < 256) :
    (oldSize checked (Int32.ofNat j)).run s = .error .overflow := by
  have hadd : BitVec.saddOverflow (Int32.ofNat j).toBitVec (3 : Int32).toBitVec = false := by
    have h3 : (3 : Int32).toInt = 3 := rfl
    rw [← Bool.not_eq_true, saddOverflow_iff, Int32.toInt_ofNat_of_lt (by omega), h3]
    omega
  have hshl : 32 ≤ (Int32.ofNat j + 3).toUInt32 := by
    have hsum : (Int32.ofNat j + 3).toUInt32 = UInt32.ofNat (j + 3) :=
      congrArg Int32.toUInt32 (Int32.ofNat_add j 3).symm
    have h32 : (32 : UInt32).toNat = 32 := rfl
    rw [hsum, UInt32.le_iff_toNat_le, UInt32.toNat_ofNat', h32]
    omega
  simp only [oldSize, checked_addI32 hadd, checked_shlOneU32_overflow hshl, pure_bind]
  rfl

theorem lowerSize_checked {b : Nat} (hb : b < 29) (hpage : s.vars.pageSz = 4096) :
    (lowerSize checked (Int32.ofNat b)).run s = (lowerSize release (Int32.ofNat b)).run s := by
  have h : ∀ b : Fin 29, Int32.ofNat b.val > 0 →
      BitVec.saddOverflow (Int32.ofNat b.val).toBitVec (2 : Int32).toBitVec = false ∧
        (Int32.ofNat b.val + 2).toUInt32 < 32 ∧
        (((1 : UInt32) <<< (Int32.ofNat b.val + 2).toUInt32).toInt32 < 4096 →
          BitVec.ssubOverflow ((1 : UInt32) <<< (Int32.ofNat b.val + 2).toUInt32).toInt32.toBitVec
            overheadSize.toInt32.toBitVec = false) ∧
        (¬ ((1 : UInt32) <<< (Int32.ofNat b.val + 2).toUInt32).toInt32 < 4096 →
          BitVec.saddOverflow ((1 : UInt32) <<< (Int32.ofNat b.val + 2).toUInt32).toInt32.toBitVec
            (4092 : Int32).toBitVec = false) := by decide
  have h4096 : (4096 : UInt32).toInt32 = 4096 := rfl
  have hpageSub : (checked.subI32 4096 overheadSize.toInt32 : M Statics Int32) = pure 4092 :=
    checked_subI32 (by decide)
  have hpageSub' : (4096 : Int32) - overheadSize.toInt32 = 4092 := rfl
  rw [lowerSize, lowerSize]
  split
  · rename_i hpos
    obtain ⟨hadd, hshl, hsub, hgrow⟩ := h ⟨b, hb⟩ hpos
    simp only [checked_addI32 hadd, checked_shlOneI32 hshl, release_addI32, release_shlOneI32,
      release_subI32, StateT.run_bind, StateT.run_get, pure_bind, pure_eq_ok, ok_bind, hpage, h4096,
      hpageSub, hpageSub']
    split
    · rename_i hsmall
      rw [checked_subI32 (hsub hsmall)]
    · rename_i hlarge
      rw [checked_addI32 (hgrow hlarge)]
  · rfl

theorem moveTo_traps {cp onb : UInt32} (hpage : s.vars.pageSz = 4096)
    (hready : s.vars.pageBucket = 9) (hheads : HeadsFit s) :
    Traps .overflow (Overruns s n) (moveTo checked cp n onb) (moveTo release cp n onb) s := by
  have hmalloc := kmalloc_traps (n := n) (.ready hpage hready) (fun _ => hready) hheads
  rw [started_eq hpage] at hmalloc
  exact hmalloc.before fun _ _ _ => rfl

theorem HeadsFit.pushed (h : HeadsFit s) {b : Fin nbuckets} {p : UInt32}
    (hp : p.toNat < 2 ^ 32 - 4) : HeadsFit (Port.pushed s b p) := by
  intro c
  rw [Port.pushed, withNextf_nextf]
  by_cases hc : c = b
  · rw [hc, Function.update_self]
    exact hp
  · rw [Function.update_of_ne hc]
    exact h c

section Realloc

variable {find : UInt32 → Int32 → M Statics Int32} {cp : UInt32}

/-- `realloc` once the header has been read. -/
def resize (bld : Build) (cp nbytes : UInt32) (old : Bool × Int32) : M Statics UInt32 := do
  let onb ← oldSize bld old.2
  if old.1 then
    let lower ← lowerSize bld old.2
    if nbytes ≤ onb ∧ nbytes > lower.toUInt32 then
      return cp
    else
      kfree bld cp
      moveTo bld cp nbytes onb
  else
    moveTo bld cp nbytes onb

/-- `realloc` reads the header first. -/
theorem reallocWith_eq (bld : Build) (hcp : cp ≠ null) (hn : n ≠ 0)
    (hsub : (bld.subU32 cp overheadSize : M Statics UInt32) = pure (cp - overheadSize)) :
    reallocWith bld find cp n
      = oldBucketWith find (cp - overheadSize) >>= resize bld cp n := by
  rw [reallocWith, if_neg hcp, if_neg hn, hsub, pure_bind]
  rfl

theorem reallocWith_traps {P : Prop} {old : Bool × Int32} (hcp : 4 ≤ cp.toNat) (hn : n ≠ 0)
    (hold : (oldBucketWith find (cp - overheadSize)).run s = .ok (old, s))
    (h : Traps .overflow P (resize checked cp n old) (resize release cp n old) s) :
    Traps .overflow P (reallocWith checked find cp n) (reallocWith release find cp n) s := by
  have hnull : cp ≠ null := by
    rintro rfl
    exact absurd hcp (by decide)
  rw [reallocWith_eq checked hnull hn (subOverhead_checked hcp),
    reallocWith_eq release hnull hn rfl]
  exact Traps.after hold hold h

/-- A request for nothing is a `kfree`. -/
theorem run_reallocWith_zero (bld : Build) (hcp : cp ≠ null) :
    (reallocWith bld find cp 0).run s = (fun p => (null, p.2)) <$> (kfree bld cp).run s := by
  simp only [reallocWith, hcp, if_false, if_true, StateT.run_bind]
  cases (kfree bld cp).run s <;> rfl

/-- The search plays no part for a block in use. -/
theorem reallocWith_used {j : Nat} (hcp : cp ≠ null) (hn : n ≠ 0)
    (hmagic : s.mem (cp - overheadSize) = magic)
    (hindex : (s.mem (cp - overheadSize + 1)).toNat = j) :
    (reallocWith release find cp n).run s = (realloc release 0 cp n).run s := by
  rw [realloc_eq, reallocWith_eq release hcp hn rfl, reallocWith_eq release hcp hn rfl,
    StateT.run_bind, StateT.run_bind, run_oldBucketWith_used hmagic hindex,
    run_oldBucketWith_used hmagic hindex]

/-- **A block in use**: its index shifts too far, or a move overruns. -/
theorem realloc_used_traps {j : Nat} (hpage : s.vars.pageSz = 4096)
    (hready : s.vars.pageBucket = 9) (hheads : HeadsFit s) (hcp : 4 ≤ cp.toNat) (hn : n ≠ 0)
    (hmagic : s.mem (cp - overheadSize) = magic)
    (hindex : (s.mem (cp - overheadSize + 1)).toNat = j) :
    Traps .overflow (29 ≤ j ∨ ∃ b : Fin nbuckets, b.val = j ∧ sizeClass n.toNat ≠ some j ∧
        Overruns (pushed s b (cp - overheadSize)) n)
      (reallocWith checked find cp n) (reallocWith release find cp n) s := by
  apply reallocWith_traps hcp hn (run_oldBucketWith_used hmagic hindex)
  by_cases hj : 29 ≤ j
  · have hlt := (s.mem (cp - overheadSize + 1)).toNat_lt
    constructor
    · intro _
      rw [resize, StateT.run_bind, oldSize_overflow hj (by omega), error_bind]
    · exact fun hno => absurd (.inl hj) hno
  · have hj : j < 29 := by omega
    have hsize := run_oldSize (s := s) hj hpage
    have hlower := run_lowerSize (s := s) hj hpage
    apply Traps.after ((oldSize_checked (.inr ⟨j, hj, rfl⟩) hpage).trans hsize) hsize
    rw [if_pos rfl, if_pos rfl]
    apply Traps.after ((lowerSize_checked hj hpage).trans hlower) hlower
    obtain ⟨b, rfl⟩ : ∃ b : Fin nbuckets, b.val = j := ⟨⟨j, lt_nbuckets hj⟩, rfl⟩
    by_cases hclass : sizeClass n.toNat = some b.val
    · have hkeeps := (keeps_iff hj hn).mpr hclass
      rw [if_pos hkeeps, if_pos hkeeps]
      exact (Traps.never rfl).iff (by simp [hclass]; omega)
    · have hkeeps := (keeps_iff hj hn).not.mpr hclass
      have hnull : cp ≠ null := by
        rintro rfl
        exact absurd hcp (by decide)
      have hfree := run_kfree hnull hindex
      have hend : (cp - overheadSize).toNat < 2 ^ 32 - 4 := by
        have h4 : overheadSize.toNat = 4 := rfl
        have hle : overheadSize ≤ cp := UInt32.le_iff_toNat_le.mpr (h4 ▸ hcp)
        have := cp.toNat_lt
        rw [UInt32.toNat_sub_of_le _ _ hle, h4]
        omega
      rw [if_neg hkeeps, if_neg hkeeps]
      apply Traps.after ((kfree_checked (.inr hcp)).trans hfree) hfree
      have hmove : Traps .overflow (Overruns (pushed s b (cp - overheadSize)) n)
          (moveTo checked cp n (UInt32.ofNat (cap b))) (moveTo release cp n (UInt32.ofNat (cap b)))
          (pushed s b (cp - overheadSize)) := moveTo_traps hpage hready (hheads.pushed hend)
      apply hmove.iff
      constructor
      · exact fun hover => .inr ⟨b, rfl, hclass, hover⟩
      · rintro (hge | ⟨c, hc, _, hover⟩)
        · omega
        · rwa [← Fin.ext hc]

/-- **A free block that is found**, or lost after the second search found it. -/
theorem realloc_found_traps {i : Int32} (hpage : s.vars.pageSz = 4096)
    (hready : s.vars.pageBucket = 9) (hheads : HeadsFit s) (hcp : 4 ≤ cp.toNat) (hn : n ≠ 0)
    (hold : (oldBucketWith find (cp - overheadSize)).run s = .ok ((false, i), s))
    (hi : i = -1 ∨ ∃ b < 29, i = Int32.ofNat b) :
    Traps .overflow (Overruns s n) (reallocWith checked find cp n)
      (reallocWith release find cp n) s := by
  apply reallocWith_traps hcp hn hold
  have hsize : ∃ onb, (oldSize release i).run s = .ok (onb, s) := by
    rcases hi with rfl | ⟨b, hb, rfl⟩
    · exact ⟨_, run_oldSize_lost hpage⟩
    · exact ⟨_, run_oldSize hb hpage⟩
  obtain ⟨onb, hsize⟩ := hsize
  apply Traps.after ((oldSize_checked hi hpage).trans hsize) hsize
  exact moveTo_traps hpage hready hheads

/-- **A free block that is not found** is taken for one of bucket `NBUCKETS`. -/
theorem realloc_lost_overflow (hcp : 4 ≤ cp.toNat) (hn : n ≠ 0)
    (hold : (oldBucketWith find (cp - overheadSize)).run s = .ok ((false, 30), s)) :
    (reallocWith checked find cp n).run s = .error .overflow := by
  have htraps : Traps .overflow True (resize checked cp n (false, 30))
      (resize release cp n (false, 30)) s := by
    constructor
    · intro _
      have hover : (oldSize checked 30).run s = .error .overflow := oldSize_overflow (j := 30)
        (by decide) (by decide)
      rw [resize, StateT.run_bind, hover, error_bind]
    · exact fun hno => absurd trivial hno
  exact (reallocWith_traps hcp hn hold htraps).1 trivial

end Realloc

end Port

end Challenges.Kmalloc

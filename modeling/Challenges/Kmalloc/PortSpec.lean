import Challenges.Kmalloc.Blocks

/-!
# PortSpec — what each function of `kmalloc.rs` does, in closed form

One lemma for each function of the release build, on a machine whose page
size is set: which state it returns in and with which value. No invariant
is assumed; later modules cite these lemmas and do not unfold the program.
-/

namespace Challenges.Kmalloc

open Challenges.Lib

/-- The bytes `morecore` asks for. At bucket 28 the block size `1 << 31` is
negative as an `i32` and taken for one below the page size. -/
def grant (b : Nat) : Nat := if b ≤ 8 ∨ b = 28 then 4096 else 2 ^ (b + 3) + 4096

/-- The bytes that one block of a bucket has, its header included. -/
def room (b : Nat) : Nat := grant b / nblks b

namespace Port

variable {s : Machine Statics}

/-! ## `NEXTF` -/

theorem lt_nbuckets {b : Nat} (hb : b < 29) : b < nbuckets := Nat.lt_succ_of_lt hb

theorem toUInt32_bucket (b : Fin nbuckets) :
    (Int32.ofNat b).toUInt32 = UInt32.ofNat b := rfl

theorem toNat_bucket (b : Fin nbuckets) : (UInt32.ofNat b.val).toNat = b := by
  have h : b.val < 30 := b.isLt
  rw [UInt32.toNat_ofNat', Nat.mod_eq_of_lt (by omega)]

theorem index_lt (b : Fin nbuckets) : (UInt32.ofNat b.val).toNat < nbuckets := by
  rw [toNat_bucket]
  exact b.isLt

theorem index_eq (b : Fin nbuckets) : ⟨(UInt32.ofNat b.val).toNat, index_lt b⟩ = b :=
  Fin.ext (toNat_bucket b)

@[simp] theorem run_nextf (b : Fin nbuckets) :
    (nextf (UInt32.ofNat b.val)).run s = .ok (s.vars.nextf b, s) := by
  rw [nextf, dif_pos (index_lt b), index_eq]
  rfl

/-- The machine with `NEXTF[b]` replaced. -/
def withNextf (s : Machine Statics) (b : Fin nbuckets) (p : UInt32) :
    Machine Statics :=
  { s with vars := { s.vars with nextf := Function.update s.vars.nextf b p } }

@[simp] theorem run_setNextf (b : Fin nbuckets) (p : UInt32) :
    (setNextf (UInt32.ofNat b.val) p).run s = .ok ((), withNextf s b p) := by
  rw [setNextf, dif_pos (index_lt b), index_eq]
  rfl

@[simp] theorem withNextf_mem (b : Fin nbuckets) (p : UInt32) :
    (withNextf s b p).mem = s.mem := rfl

@[simp] theorem withNextf_log (b : Fin nbuckets) (p : UInt32) :
    (withNextf s b p).log = s.log := rfl

@[simp] theorem withNextf_os (b : Fin nbuckets) (p : UInt32) :
    (withNextf s b p).os = s.os := rfl

@[simp] theorem withNextf_nextf (b : Fin nbuckets) (p : UInt32) :
    (withNextf s b p).vars.nextf = Function.update s.vars.nextf b p := rfl

@[simp] theorem withNextf_pageSz (b : Fin nbuckets) (p : UInt32) :
    (withNextf s b p).vars.pageSz = s.vars.pageSz := rfl

@[simp] theorem withNextf_pageBucket (b : Fin nbuckets) (p : UInt32) :
    (withNextf s b p).vars.pageBucket = s.vars.pageBucket := rfl

/-! ## `morecore` -/

theorem toNatClampNeg_pred {x : Int32} {k : Nat} (h : x.toNatClampNeg = k + 1) :
    x > 0 ∧ (x - 1).toNatClampNeg = k := by
  have hpos : x > 0 := by
    rw [gt_iff_lt, ← Int32.toNatClampNeg_pos_iff]
    omega
  have hone : (1 : Int32) ≤ x := by
    rw [gt_iff_lt, Int32.lt_iff_toInt_lt] at hpos
    rw [Int32.le_iff_toInt_le]
    simp at hpos ⊢
    omega
  refine ⟨hpos, ?_⟩
  rw [Int32.toNatClampNeg_sub_of_le (by decide) hone, h]
  rfl

/-- The carving loop writes one link for every block but the last. -/
theorem run_carveLoop {sz : Int32} {k : Nat} :
    ∀ {nblks : Int32} {a : UInt32} {s : Machine Statics}, nblks.toNatClampNeg = k →
      (loop Fault.diverges (carveStep release sz) (k + 1) (nblks, a)).run s
        = .ok ((), { s with mem := link s.mem a sz.toUInt32 k }) := by
  induction k with
  | zero =>
      intro nblks a s hk
      have hpos : ¬ nblks > 0 := by
        rw [gt_iff_lt, ← Int32.toNatClampNeg_pos_iff]
        omega
      exact loop_done (by simp [carveStep, hpos, link])
  | succ k ih =>
      intro nblks a s hk
      obtain ⟨hpos, hsub⟩ := toNatClampNeg_pred hk
      have hstep : (carveStep release sz (nblks, a)).run s
          = .ok (.inl (nblks - 1, a + sz.toUInt32),
              { s with mem := s.mem.store32 a (a + sz.toUInt32) }) := by
        simp [carveStep, hpos]
      rw [loop_next hstep, ih hsub, link]

theorem run_carve (sz nblks : Int32) (a : UInt32) :
    (carve release sz nblks a).run s
      = .ok ((), { s with mem := link s.mem a sz.toUInt32 nblks.toNatClampNeg }) :=
  run_carveLoop rfl

/-- What `morecore` asks `sbrk` for, from the size of a block. -/
def moreAmt (sz : Int32) : Int32 := if sz < 4096 then 4096 else sz + 4096

/-- How many links it writes. -/
def moreLinks (sz : Int32) : Int32 := (if sz < 4096 then 4096 / sz else 1) - 1

/-- The numbers `morecore` computes for a bucket that `kmalloc` can select. -/
theorem morecore_numbers {b : Nat} (hb : b < 29) :
    let sz := ((1 : UInt32) <<< (Int32.ofNat b + 3).toUInt32).toInt32
    moreAmt sz = Int32.ofNat (grant b) ∧
      (moreLinks sz).toNatClampNeg = nblks b - 1 ∧
      (b ≤ 8 → sz.toUInt32 = UInt32.ofNat (room b)) ∧ (8 < b → nblks b = 1) := by
  have h : ∀ b : Fin 29,
      let sz := ((1 : UInt32) <<< (Int32.ofNat b.val + 3).toUInt32).toInt32
      moreAmt sz = Int32.ofNat (grant b) ∧
        (moreLinks sz).toNatClampNeg = nblks b - 1 ∧
        (b.val ≤ 8 → sz.toUInt32 = UInt32.ofNat (room b)) ∧
        (8 < b.val → nblks b = 1) := by decide
  exact h ⟨b, hb⟩

/-- Below bucket 28 the size of a block is positive as an `i32`. -/
theorem blockSize_pos {b : Nat} (hb : b < 28) :
    0 < ((1 : UInt32) <<< (Int32.ofNat b + 3).toUInt32).toInt32 := by
  have h : ∀ b : Fin 28,
      0 < ((1 : UInt32) <<< (Int32.ofNat b.val + 3).toUInt32).toInt32 := by decide
  exact h ⟨b, hb⟩

/-- `morecore` up to the carving loop, in a build whose arithmetic fits. -/
theorem run_morecore_carve {bld : Build} {b : Fin nbuckets} {sz : Int32}
    (hpage : s.vars.pageSz = 4096)
    (hadd : (bld.addI32 (Int32.ofNat b) 3 : M Statics Int32) = pure (Int32.ofNat b + 3))
    (hshl : (bld.shlOneI32 (Int32.ofNat b + 3) : M Statics Int32) = pure sz)
    (hassert : ∀ test, (bld.kassert test : M Statics Unit) = pure ())
    (hgrow : ¬ sz < 4096 → (bld.addI32 sz 4096 : M Statics Int32) = pure (sz + 4096))
    (hsub : (bld.subI32 (if sz < 4096 then 4096 / sz else 1) 1 : M Statics Int32)
      = pure (moreLinks sz)) :
    (morecore bld (Int32.ofNat b)).run s =
      if s.os s.log.length = sbrkFailed then
        .ok ((), s.afterSbrk (.morecore (Int32.ofNat b)) (moreAmt sz) (s.os s.log.length))
      else (carve bld sz (moreLinks sz) (s.os s.log.length)).run
        (withNextf (s.afterSbrk (.morecore (Int32.ofNat b)) (moreAmt sz) (s.os s.log.length)) b
          (s.os s.log.length)) := by
  have h4096 : (4096 : UInt32).toInt32 = 4096 := rfl
  simp only [morecore, hadd, hshl, hassert, StateT.run_bind, StateT.run_get, pure_bind, pure_eq_ok,
    ok_bind, hpage, h4096, moreAmt]
  split
  all_goals
    rename_i hsz
    simp only [hsz, if_true, if_false] at hsub
    try simp only [hgrow hsz, pure_bind]
    simp only [StateT.run_bind, ok_bind, run_sbrk]
    split
    · rfl
    · simp only [StateT.run_bind, toUInt32_bucket, run_setNextf, ok_bind, hsub, pure_bind]

/-- The machine after `morecore(b)`. -/
def afterMorecore (s : Machine Statics) (b : Fin nbuckets) : Machine Statics :=
  let ret := s.os s.log.length
  let t := s.afterSbrk (.morecore (Int32.ofNat b)) (Int32.ofNat (grant b)) ret
  if ret = sbrkFailed then t
  else withNextf { t with mem := link t.mem ret (UInt32.ofNat (room b)) (nblks b - 1) } b ret

theorem run_morecore {b : Fin nbuckets} (hb : b.val < 29)
    (hpage : s.vars.pageSz = 4096) :
    (morecore release (Int32.ofNat b)).run s = .ok ((), afterMorecore s b) := by
  obtain ⟨hamt, hn, hsmall, hlarge⟩ := morecore_numbers hb
  have hshl : (release.shlOneI32 (Int32.ofNat b.val + 3) : M Statics Int32) = _ :=
    release_shlOneI32 _
  generalize ((1 : UInt32) <<< (Int32.ofNat b.val + 3).toUInt32).toInt32 = sz at *
  -- for a large class there is one block, and the stride of the links is not used
  have hlink (m : Mem) (a : UInt32) : link m a sz.toUInt32 (nblks b - 1)
      = link m a (UInt32.ofNat (room b)) (nblks b - 1) := by
    rcases Nat.lt_or_ge 8 b.val with h | h
    · rw [hlarge h]
      rfl
    · rw [hsmall h]
  rw [run_morecore_carve hpage rfl hshl (fun _ => rfl) (fun _ => rfl) rfl, hamt, afterMorecore]
  split
  · rfl
  · rw [run_carve, hn, hlink]
    rfl

/-! ## Taking a block -/

/-- The machine in which `kmalloc` reads `NEXTF[b]`, after `morecore` when
the bucket is empty. -/
def refilled (s : Machine Statics) (b : Fin nbuckets) : Machine Statics :=
  if s.vars.nextf b = null then afterMorecore s b else s

/-- Unlink the first block of a bucket and write its header. -/
def unlinked (s : Machine Statics) (b : Fin nbuckets) : Machine Statics :=
  let p := s.vars.nextf b
  { withNextf s b (s.mem.load32 p) with
    mem := (s.mem.store8 p magic).store8 (p + 1) (UInt8.ofNat b) }

/-- Unlinking writes in the first word of the block. -/
theorem unlinked_same {b : Fin nbuckets} {p : UInt32} (hp : s.vars.nextf b = p)
    (hfit : p.toNat + 4 ≤ 2 ^ 32) :
    Mem.SameOutside s.mem (unlinked s b).mem p.toNat 4 := by
  obtain ⟨hnext, _⟩ := Mem.toNat_bytes hfit
  rw [unlinked, hp]
  exact ((Mem.store8_same _ _ _).widen (Nat.le_refl _) (by omega)).trans
    ((Mem.store8_same _ _ _).widen (by omega) (by omega))

/-- The header of a block that was unlinked. -/
theorem unlinked_header {b : Fin nbuckets} {p : UInt32} (hp : s.vars.nextf b = p)
    (hfit : p.toNat + 4 ≤ 2 ^ 32) :
    (unlinked s b).mem p = magic ∧ ((unlinked s b).mem (p + 1)).toNat = b := by
  obtain ⟨hnext, _⟩ := Mem.toNat_bytes hfit
  have hne : p ≠ p + 1 := by
    intro heq
    rw [← heq] at hnext
    omega
  have hb : b.val < 30 := b.isLt
  rw [unlinked, hp]
  simp only [Mem.store8, Function.update_self, Function.update_of_ne hne, true_and]
  rw [UInt8.toNat_ofNat', Nat.mod_eq_of_lt (by omega)]

/-- What `kmalloc` returns for bucket `b`, and the machine it leaves. -/
def taken (s : Machine Statics) (b : Fin nbuckets) : UInt32 × Machine Statics :=
  let t := refilled s b
  if t.vars.nextf b = null then (null, t)
  else (t.vars.nextf b + overheadSize, unlinked t b)

theorem taken_of_ne {t : Machine Statics} {b : Fin nbuckets} (ht : refilled s b = t)
    (hne : t.vars.nextf b ≠ null) :
    taken s b = (t.vars.nextf b + overheadSize, unlinked t b) := by
  rw [taken, ht, if_neg hne]

/-- Two machines with one head of the bucket and one system: a request of the
bucket gets the same answer, and where their memories agreed they still do. -/
theorem afterMorecore_congr {s' : Machine Statics} {b : Fin nbuckets}
    (hhead : s'.vars.nextf b = s.vars.nextf b) (hos : s'.os = s.os) (hlog : s'.log = s.log) :
    (afterMorecore s' b).vars.nextf b = (afterMorecore s b).vars.nextf b ∧
      (afterMorecore s' b).log = (afterMorecore s b).log ∧
      ∀ a, s'.mem a = s.mem a → (afterMorecore s' b).mem a = (afterMorecore s b).mem a := by
  have hfill (caller : Caller) (amt : Int32) (ret a : UInt32) (h : s'.mem a = s.mem a) :
      (s'.afterSbrk caller amt ret).mem a = (s.afterSbrk caller amt ret).mem a := by
    simp only [Machine.afterSbrk]
    split
    · exact Mem.fill_congr h _ _ _
    · exact h
  simp only [afterMorecore, hos, hlog]
  split
  · exact ⟨hhead, by simp [Machine.afterSbrk, hlog], hfill _ _ _⟩
  · refine ⟨by simp, by simp [Machine.afterSbrk, hlog], fun a ha => ?_⟩
    exact link_congr (hfill _ _ _ a ha) _ _ _

theorem taken_congr {s' : Machine Statics} {b : Fin nbuckets}
    (hhead : s'.vars.nextf b = s.vars.nextf b) (hos : s'.os = s.os) (hlog : s'.log = s.log) :
    (taken s' b).1 = (taken s b).1 ∧ (taken s' b).2.log = (taken s b).2.log ∧
      ∀ a, s'.mem a = s.mem a → (taken s' b).2.mem a = (taken s b).2.mem a := by
  have hrefilled : (refilled s' b).vars.nextf b = (refilled s b).vars.nextf b ∧
      (refilled s' b).log = (refilled s b).log ∧
      ∀ a, s'.mem a = s.mem a → (refilled s' b).mem a = (refilled s b).mem a := by
    rw [refilled, refilled, hhead]
    split
    · exact afterMorecore_congr hhead hos hlog
    · exact ⟨hhead, hlog, fun a ha => ha⟩
  obtain ⟨hnextf, hlog', hmem⟩ := hrefilled
  simp only [taken, hnextf]
  split
  · exact ⟨rfl, hlog', hmem⟩
  · refine ⟨rfl, hlog', fun a ha => ?_⟩
    simp only [unlinked, hnextf]
    exact Mem.store8_congr (Mem.store8_congr (hmem a ha) _ _) _ _

theorem log_taken (b : Fin nbuckets) : (taken s b).2.log = (refilled s b).log := by
  rw [taken]
  split <;> rfl

theorem run_firstFree {b : Fin nbuckets} (hb : b.val < 29) (hpage : s.vars.pageSz = 4096) :
    (firstFree release (Int32.ofNat b)).run s
      = .ok ((refilled s b).vars.nextf b, refilled s b) := by
  simp only [firstFree, toUInt32_bucket, StateT.run_bind, run_nextf, ok_bind, refilled]
  split
  · simp only [StateT.run_bind, run_morecore hb hpage, ok_bind, run_nextf]
  · rfl

theorem run_takeBlock {b : Fin nbuckets} (hb : b.val < 29) (hpage : s.vars.pageSz = 4096) :
    (takeBlock release (Int32.ofNat b)).run s = .ok (taken s b) := by
  simp only [takeBlock, StateT.run_bind, run_firstFree hb hpage, ok_bind, taken]
  split
  · rfl
  · simp only [toUInt32_bucket, StateT.run_bind, run_load32, run_setNextf, run_store8,
      release_addU32, ok_bind, UInt32.toUInt8_ofNat']
    rfl

/-- `kmalloc` on a machine whose first call is over. -/
theorem run_serve (nbytes : UInt32) (hpage : s.vars.pageSz = 4096)
    (hbucket : s.vars.pageBucket = 9) :
    (sizeClass nbytes.toNat = none ∧ (serve release nbytes).run s = .ok (null, s)) ∨
      ∃ b : Fin nbuckets, b.val < 29 ∧ sizeClass nbytes.toNat = some b.val ∧
        (serve release nbytes).run s = .ok (taken s b) := by
  have hbase : (if nbytes.toNat ≤ 4092 then (0 : Int32) else s.vars.pageBucket - 9) = 0 := by
    rw [hbucket]
    split <;> rfl
  simp only [serve, StateT.run_bind, run_selectBucket nbytes hpage, ok_bind, hbase]
  cases hs : sizeClass nbytes.toNat with
  | none => exact .inl ⟨rfl, rfl⟩
  | some b =>
      have hb := (sizeClass_eq_some.mp hs).2.1
      refine .inr ⟨⟨b, lt_nbuckets hb⟩, hb, rfl, ?_⟩
      simp only [Option.map_some, Int32.zero_add]
      exact run_takeBlock (b := ⟨b, lt_nbuckets hb⟩) hb hpage

/-- `kmalloc` selects the bucket `b` for `nbytes`. -/
def Selects (s : Machine Statics) (nbytes : UInt32) (b : Fin nbuckets) : Prop :=
  (selectBucket release nbytes).run s = .ok (some (Int32.ofNat b), s)

theorem selects_iff (hpage : s.vars.pageSz = 4096) (hbucket : s.vars.pageBucket = 9)
    {nbytes : UInt32} {b : Fin nbuckets} :
    Selects s nbytes b ↔ sizeClass nbytes.toNat = some b.val := by
  have hbase : (if nbytes.toNat ≤ 4092 then (0 : Int32) else s.vars.pageBucket - 9) = 0 := by
    rw [hbucket]
    split <;> rfl
  rw [Selects, run_selectBucket nbytes hpage, hbase]
  cases hs : sizeClass nbytes.toNat with
  | none => simp
  | some c =>
      have hc : c < 30 := lt_nbuckets (sizeClass_eq_some.mp hs).2.1
      have hinj : ∀ c b : Fin nbuckets, Int32.ofNat c.val = Int32.ofNat b.val ↔ c = b := by
        decide
      simp only [Option.map_some, Int32.zero_add, Except.ok.injEq, Prod.mk.injEq,
        Option.some.injEq, and_true]
      rw [hinj ⟨c, hc⟩ b, Fin.ext_iff]

/-- `kmalloc` with `PAGE_BUCKET` left at its initial `-1`: a request above
the page size is served ten buckets below its class, and the least such
class indexes `NEXTF` at `-1`. -/
theorem run_serve_stale (nbytes : UInt32) (hpage : s.vars.pageSz = 4096)
    (hbucket : s.vars.pageBucket = -1) :
    (sizeClass nbytes.toNat = none ∧ (serve release nbytes).run s = .ok (null, s)) ∨
      (∃ b : Fin nbuckets, b.val < 29 ∧ nbytes.toNat ≤ 4092 ∧
        sizeClass nbytes.toNat = some b.val ∧
        (serve release nbytes).run s = .ok (taken s b)) ∨
      (4092 < nbytes.toNat ∧ nbytes.toNat ≤ 8188 ∧
        (serve release nbytes).run s = .error .indexOutOfBounds) ∨
      ∃ b : Fin nbuckets, b.val + 10 < 29 ∧ 4092 < nbytes.toNat ∧
        sizeClass nbytes.toNat = some (b.val + 10) ∧
        (serve release nbytes).run s = .ok (taken s b) := by
  simp only [serve, StateT.run_bind, run_selectBucket nbytes hpage, ok_bind, hbucket]
  cases hs : sizeClass nbytes.toNat with
  | none => exact .inl ⟨rfl, rfl⟩
  | some c =>
      obtain ⟨hfit, hc, hmin⟩ := sizeClass_eq_some.mp hs
      right
      by_cases hle : nbytes.toNat ≤ 4092
      · refine .inl ⟨⟨c, lt_nbuckets hc⟩, hc, hle, rfl, ?_⟩
        simp only [Option.map_some, hle, if_true, Int32.zero_add]
        exact run_takeBlock (b := ⟨c, lt_nbuckets hc⟩) hc hpage
      · right
        simp only [Option.map_some, hle, if_false]
        -- the search starts at `-1` in place of 9, so it ends ten below the class
        have hc9 : 9 ≤ c := by
          by_contra hlt
          have := cap_mono (show c ≤ 8 by omega)
          have : cap 8 = 2044 := by decide
          omega
        rcases Nat.eq_or_lt_of_le hc9 with rfl | hgt
        · have hcap : cap 9 = 8188 := by decide
          exact .inl ⟨by omega, by omega, rfl⟩
        · obtain ⟨d, rfl⟩ : ∃ d, c = d + 10 := ⟨c - 10, by omega⟩
          have hd : d < 29 := by omega
          have hbase : (-1 : Int32) - 9 + Int32.ofNat (d + 10) = Int32.ofNat d := by
            rw [Int32.ofNat_add, Int32.add_comm, Int32.add_assoc]
            exact Int32.add_zero _
          refine .inr ⟨⟨d, lt_nbuckets hd⟩, hc, by omega, rfl, ?_⟩
          rw [hbase]
          exact run_takeBlock (b := ⟨d, lt_nbuckets hd⟩) hd hpage

theorem run_kmalloc {nbytes : UInt32} (hpage : s.vars.pageSz = 4096) :
    (kmalloc release nbytes).run s = (serve release nbytes).run s := by
  simp [kmalloc, hpage]

/-! ## The first call -/

/-- The bytes by which the first call moves the break. -/
def alignBy (brk : UInt32) : Int32 :=
  let n := 4092 - (brk.toInt32 &&& 4095)
  if n < 0 then n + 4096 else n

/-- The machine with `PAGE_BUCKET` set. -/
def ready (s : Machine Statics) : Machine Statics :=
  { s with vars := { s.vars with pageBucket := 9 } }

/-- The rest of the first call, once the amount `n` is known. -/
def aligned (s : Machine Statics) (n : Int32) : Bool × Machine Statics :=
  if 0 < n then
    let ret := s.os s.log.length
    if ret = sbrkFailed then (false, s.afterSbrk .align n ret)
    else (true, ready (s.afterSbrk .align n ret))
  else (true, ready s)

/-- The machine after the query of the break. -/
def queried (s : Machine Statics) : Machine Statics :=
  { s with vars := { s.vars with pageSz := 4096 } }.afterSbrk .query 0 (s.os s.log.length)

/-- The machine after the first call's block, and whether `kmalloc` goes on. -/
def initialised (s : Machine Statics) : Bool × Machine Statics :=
  aligned (queried s) (alignBy (s.os s.log.length))

/-- The amounts below a page that the first call doubles. -/
theorem pageStep_numbers {k : Nat} (hk : k ≤ 9) :
    (4096 > UInt32.ofNat (2 ^ (k + 3)) ↔ k < 9) ∧
      UInt32.ofNat (2 ^ (k + 3)) <<< 1 = UInt32.ofNat (2 ^ (k + 1 + 3)) ∧
      Int32.ofNat k + 1 = Int32.ofNat (k + 1) ∧ (Int32.ofNat k).toNatClampNeg = k := by
  have h : ∀ k : Fin 10, (4096 > UInt32.ofNat (2 ^ (k.val + 3)) ↔ k.val < 9) ∧
      UInt32.ofNat (2 ^ (k.val + 3)) <<< 1 = UInt32.ofNat (2 ^ (k.val + 1 + 3)) ∧
      Int32.ofNat k.val + 1 = Int32.ofNat (k.val + 1) ∧
      (Int32.ofNat k.val).toNatClampNeg = k.val := by decide
  exact h ⟨k, by omega⟩

section FirstCall

variable {bld : Build}
  (hsucc : ∀ k ≤ 9, (bld.addI32 (Int32.ofNat k) 1 : M Statics Int32) = pure (Int32.ofNat k + 1))
include hsucc

theorem run_findPageBucket (hpage : s.vars.pageSz = 4096) :
    (findPageBucket bld).run s = .ok (9, s) := by
  have hloop : ∃ b t, (findPageBucket bld).run s = .ok (b, t) ∧ b = 9 ∧ t = s := by
    apply loop_spec (Q := fun b t => b = 9 ∧ t = s)
      (I := fun v t => t = s ∧ ∃ k ≤ 9, v = (UInt32.ofNat (2 ^ (k + 3)), Int32.ofNat k))
      (v := fun v => 9 - v.2.toNatClampNeg)
    case hstep =>
      intro v t hv
      obtain ⟨rfl, k, hk, rfl⟩ := hv
      obtain ⟨hmore, hshl, hcount, hindex⟩ := pageStep_numbers hk
      have hrun : (pageStep bld (UInt32.ofNat (2 ^ (k + 3)), Int32.ofNat k)).run t
          = .ok (if k < 9 then .inl (UInt32.ofNat (2 ^ (k + 1 + 3)), Int32.ofNat (k + 1))
              else .inr (Int32.ofNat k), t) := by
        simp only [pageStep, StateT.run_bind, StateT.run_get, pure_eq_ok, ok_bind, hpage, hmore,
          hsucc k hk, pure_bind, hshl, hcount]
        split <;> rfl
      by_cases hlt : k < 9
      · -- the amount is below the page, and is doubled
        rw [if_pos hlt] at hrun
        have hnext := (pageStep_numbers (show k + 1 ≤ 9 by omega)).2.2.2
        refine .inl ⟨_, _, hrun, ⟨rfl, k + 1, by omega, rfl⟩, ?_⟩
        dsimp only
        omega
      · obtain rfl : k = 9 := by omega
        rw [if_neg hlt] at hrun
        exact .inr ⟨_, _, hrun, rfl, rfl⟩
    case hfuel => decide
    case hI => exact ⟨rfl, 0, by decide, rfl⟩
  obtain ⟨b, t, hrun, rfl, rfl⟩ := hloop
  exact hrun

theorem run_setPageBucket (hpage : s.vars.pageSz = 4096) :
    (setPageBucket bld).run s = .ok (true, ready s) := by
  simp only [setPageBucket, StateT.run_bind, run_findPageBucket hsucc hpage, ok_bind]
  rfl

theorem run_aligned (n : Int32) (hpage : s.vars.pageSz = 4096) :
    (if n > 0 then do
        let interm ← sbrk .align n
        if interm = sbrkFailed then return false else setPageBucket bld
      else setPageBucket bld : M Statics Bool).run s = .ok (aligned s n) := by
  rw [aligned]
  by_cases hn : 0 < n
  · simp only [gt_iff_lt, hn, if_true, StateT.run_bind, run_sbrk, ok_bind]
    split
    · rfl
    · exact run_setPageBucket hsucc hpage
  · simp only [gt_iff_lt, hn, if_false]
    exact run_setPageBucket hsucc hpage

/-- The first call, in a build in which its numbers fit. -/
theorem run_firstCall_fits
    (hn : (bld.subI32 pageSize.toInt32 overheadSize.toInt32 : M Statics Int32) = pure 4092)
    (hmask : (bld.subI32 pageSize.toInt32 1 : M Statics Int32) = pure 4095)
    (hsub : ∀ brk : UInt32, (bld.subI32 4092 (brk.toInt32 &&& 4095) : M Statics Int32)
      = pure (4092 - (brk.toInt32 &&& 4095)))
    (hadd : ∀ brk : UInt32, (bld.addI32 (4092 - (brk.toInt32 &&& 4095)) pageSize.toInt32
      : M Statics Int32) = pure (4092 - (brk.toInt32 &&& 4095) + 4096)) :
    (firstCall bld).run s = .ok (initialised s) := by
  simp only [firstCall, hn, hmask, hsub, hadd, StateT.run_bind, run_sbrk, pure_bind,
    StateT.run_modify, pure_eq_ok, ok_bind, initialised, alignBy]
  split
  · exact run_aligned hsucc (s := queried s) _ rfl
  · exact run_aligned hsucc (s := queried s) _ rfl

end FirstCall

theorem run_firstCall : (firstCall release).run s = .ok (initialised s) :=
  run_firstCall_fits (fun _ _ => rfl) rfl rfl (fun _ => rfl) (fun _ => rfl)

/-- `kmalloc` when nothing is initialised. -/
theorem run_kmalloc_first {nbytes : UInt32} (hpage : s.vars.pageSz = 0) :
    (kmalloc release nbytes).run s =
      if (initialised s).1 then (serve release nbytes).run (initialised s).2
      else .ok (null, (initialised s).2) := by
  simp only [kmalloc, StateT.run_bind, StateT.run_get, pure_eq_ok, ok_bind, hpage, if_true,
    run_firstCall]
  split <;> simp [*]

/-- How far the break is into its page. -/
theorem mask_page (brk : UInt32) : brk.toInt32 &&& 4095 = Int32.ofNat (brk.toNat % 4096) := by
  have hand : brk &&& 4095 = UInt32.ofNat (brk.toNat % 4096) := by
    apply UInt32.toNat_inj.mp
    have hlt : brk.toNat % 4096 < UInt32.size := by
      have : brk.toNat % 4096 < 4096 := Nat.mod_lt _ (by decide)
      exact Nat.lt_trans this (by decide)
    rw [UInt32.toNat_and, UInt32.toNat_ofNat_of_lt' hlt]
    exact Nat.and_two_pow_sub_one_eq_mod brk.toNat 12
  exact congrArg UInt32.toInt32 hand

theorem toInt_sub_mask (brk : UInt32) :
    (4092 - Int32.ofNat (brk.toNat % 4096)).toInt = 4092 - (brk.toNat % 4096 : Nat) := by
  have hr : brk.toNat % 4096 < 4096 := Nat.mod_lt _ (by decide)
  rw [Int32.toInt_sub, Int32.toInt_ofNat_of_lt (by omega), show (4092 : Int32).toInt = 4092 from rfl,
    Int.bmod_eq_of_le (by omega) (by omega)]

/-- The first call brings the break just below the next page's header. -/
theorem alignBy_spec (brk : UInt32) :
    (brk.toNat + (alignBy brk).toNatClampNeg) % 4096 = 4092 ∧
      (alignBy brk).toNatClampNeg < 4096 ∧ ¬ alignBy brk < 0 := by
  have hr : brk.toNat % 4096 < 4096 := Nat.mod_lt _ (by decide)
  have hsub := toInt_sub_mask brk
  rw [alignBy, mask_page]
  generalize 4092 - Int32.ofNat (brk.toNat % 4096) = n at hsub
  split
  · rename_i hneg
    rw [Int32.lt_iff_toInt_lt, hsub, show (0 : Int32).toInt = 0 from rfl] at hneg
    have hadd : (n + 4096).toInt = 8188 - (brk.toNat % 4096 : Nat) := by
      rw [Int32.toInt_add, hsub, show (4096 : Int32).toInt = 4096 from rfl,
        Int.bmod_eq_of_le (by omega) (by omega)]
      omega
    rw [Int32.toNatClampNeg, Int32.lt_iff_toInt_lt, hadd, show (0 : Int32).toInt = 0 from rfl]
    omega
  · rename_i hneg
    rw [Int32.lt_iff_toInt_lt, hsub, show (0 : Int32).toInt = 0 from rfl] at hneg
    rw [Int32.toNatClampNeg, Int32.lt_iff_toInt_lt, hsub, show (0 : Int32).toInt = 0 from rfl]
    omega

/-! ## `kfree` -/

/-- Put the block at `p` on top of bucket `b`. -/
def pushed (s : Machine Statics) (b : Fin nbuckets) (p : UInt32) : Machine Statics :=
  withNextf { s with mem := s.mem.store32 p (s.vars.nextf b) } b p

theorem run_kfree_null : (kfree release null).run s = .ok ((), s) := rfl

theorem run_kfree {cp : UInt32} {b : Fin nbuckets} (hcp : cp ≠ null)
    (hindex : (s.mem (cp - overheadSize + 1)).toNat = b) :
    (kfree release cp).run s = .ok ((), pushed s b (cp - overheadSize)) := by
  have hbyte : (s.mem (cp - overheadSize + 1)).toUInt32.toInt32.toUInt32
      = UInt32.ofNat b := by
    apply UInt32.toNat_inj.mp
    rw [UInt32.toUInt32_toInt32, UInt8.toNat_toUInt32, hindex, toNat_bucket]
  simp only [kfree, hcp, if_false, release_subU32, release_kassert, StateT.run_bind,
    run_load8, pure_bind, ok_bind, hbyte, run_nextf, run_store32, run_setNextf]
  rfl

/-- A header that holds no bucket index sends `kfree` outside `NEXTF`. -/
theorem run_kfree_outside {cp : UInt32} (hcp : cp ≠ null)
    (hindex : nbuckets ≤ (s.mem (cp - overheadSize + 1)).toNat) :
    (kfree release cp).run s = .error .indexOutOfBounds := by
  have hout : ¬ (s.mem (cp - overheadSize + 1)).toUInt32.toInt32.toUInt32.toNat
      < nbuckets := by
    rw [UInt32.toUInt32_toInt32, UInt8.toNat_toUInt32]
    omega
  simp only [kfree, hcp, if_false, release_subU32, release_kassert, StateT.run_bind,
    run_load8, pure_bind, ok_bind, nextf, dif_neg hout]
  rfl

/-! ## `realloc` -/

theorem run_oldSize {b : Nat} (hb : b < 29) (hpage : s.vars.pageSz = 4096) :
    (oldSize release (Int32.ofNat b)).run s = .ok (UInt32.ofNat (cap b), s) := by
  have h : ∀ b : Fin 29, (if (1 : UInt32) <<< (Int32.ofNat b.val + 3).toUInt32 < 4096
      then (1 : UInt32) <<< (Int32.ofNat b.val + 3).toUInt32 - overheadSize
      else (1 : UInt32) <<< (Int32.ofNat b.val + 3).toUInt32 + (4096 - overheadSize))
        = UInt32.ofNat (cap b.val) := by decide
  rw [← h ⟨b, hb⟩]
  simp only [oldSize, release_addI32, release_shlOneU32, release_subU32, release_addU32,
    StateT.run_bind, StateT.run_get, pure_bind, pure_eq_ok, ok_bind, hpage]
  split <;> rfl

/-- The payload of the class below, and `0` below the least class. -/
def capBelow (b : Nat) : Nat := if b = 0 then 0 else cap (b - 1)

theorem run_lowerSize {b : Nat} (hb : b < 29) (hpage : s.vars.pageSz = 4096) :
    (lowerSize release (Int32.ofNat b)).run s
      = .ok (Int32.ofNat (capBelow b), s) := by
  have h : ∀ b : Fin 29, (if Int32.ofNat b.val > 0 then
      if ((1 : UInt32) <<< (Int32.ofNat b.val + 2).toUInt32).toInt32 < 4096 then
        ((1 : UInt32) <<< (Int32.ofNat b.val + 2).toUInt32).toInt32 - overheadSize.toInt32
      else ((1 : UInt32) <<< (Int32.ofNat b.val + 2).toUInt32).toInt32
        + (4096 - overheadSize.toInt32)
      else Int32.ofNat b.val) = Int32.ofNat (capBelow b.val) := by decide
  have h4096 : (4096 : UInt32).toInt32 = 4096 := rfl
  rw [← h ⟨b, hb⟩, lowerSize]
  split
  · simp only [release_addI32, release_shlOneI32, release_subI32,
      StateT.run_bind, StateT.run_get, pure_bind, pure_eq_ok, ok_bind, hpage, h4096]
    split <;> rfl
  · rfl

/-- A block is kept exactly when the request is of the block's own class. -/
theorem keeps_iff {nbytes : UInt32} {b : Nat} (hb : b < 29) (hn : nbytes ≠ 0) :
    (nbytes ≤ UInt32.ofNat (cap b) ∧ nbytes > (Int32.ofNat (capBelow b)).toUInt32)
      ↔ sizeClass nbytes.toNat = some b := by
  have hcap : ∀ b : Fin 29, (UInt32.ofNat (cap b.val)).toNat = cap b.val ∧
      (Int32.ofNat (capBelow b.val)).toUInt32.toNat = capBelow b.val := by decide
  obtain ⟨hcap, hbelow⟩ := hcap ⟨b, hb⟩
  dsimp only at hcap hbelow
  have hpos : nbytes.toNat ≠ 0 := fun h => hn (UInt32.toNat_inj.mp h)
  rw [gt_iff_lt, UInt32.le_iff_toNat_le, UInt32.lt_iff_toNat_lt, hcap, hbelow,
    sizeClass_eq_some, capBelow]
  constructor
  · rintro ⟨hle, hlt⟩
    refine ⟨hle, hb, fun c hc => ?_⟩
    rw [if_neg (by omega)] at hlt
    have := cap_mono (show c ≤ b - 1 by omega)
    omega
  · rintro ⟨hle, _, hmin⟩
    refine ⟨hle, ?_⟩
    split
    · omega
    · exact hmin (b - 1) (by omega)

theorem run_realloc_null (fuel : Nat) (nbytes : UInt32) :
    (realloc release fuel null nbytes).run s = (kmalloc release nbytes).run s := by
  rw [realloc, if_pos rfl]

theorem run_realloc_zero (fuel : Nat) {cp : UInt32} (hcp : cp ≠ null) :
    (realloc release fuel cp 0).run s
      = (fun p => (null, p.2)) <$> (kfree release cp).run s := by
  simp only [realloc, hcp, if_false, if_true, StateT.run_bind]
  cases (kfree release cp).run s <;> rfl

/-- The machine after the `memcpy` from `cp` to `r`. -/
def copied (t : Machine Statics) (r cp nbytes onb : UInt32) : Machine Statics :=
  { t with mem := t.mem.copy r cp (if nbytes < onb then nbytes else onb) }

/-- `moveTo`, from what its call of `kmalloc` does. -/
theorem run_moveTo {cp nbytes onb r : UInt32} {t : Machine Statics}
    (h : (kmalloc release nbytes).run s = .ok (r, t)) :
    (moveTo release cp nbytes onb).run s
      = .ok (r, if r = null ∨ cp = r then t else copied t r cp nbytes onb) := by
  simp only [moveTo, StateT.run_bind, h, ok_bind]
  by_cases hr : r = null
  · simp [hr]
  · by_cases hcp : cp = r
    · simp [hr, hcp]
    · simp [hr, hcp, copied]

/-- `realloc` of a block in use: kept, or given back and then moved. -/
theorem run_realloc (fuel : Nat) {cp nbytes : UInt32} {b : Fin nbuckets}
    (hb : b.val < 29) (hpage : s.vars.pageSz = 4096) (hcp : cp ≠ null) (hn : nbytes ≠ 0)
    (hmagic : s.mem (cp - overheadSize) = magic)
    (hindex : (s.mem (cp - overheadSize + 1)).toNat = b) :
    (realloc release fuel cp nbytes).run s =
      if sizeClass nbytes.toNat = some b.val then .ok (cp, s)
      else (moveTo release cp nbytes (UInt32.ofNat (cap b))).run
        (pushed s b (cp - overheadSize)) := by
  have hbyte : (s.mem (cp - overheadSize + 1)).toUInt32.toInt32 = Int32.ofNat b := by
    have hword : (s.mem (cp - overheadSize + 1)).toUInt32 = UInt32.ofNat b := by
      apply UInt32.toNat_inj.mp
      rw [UInt8.toNat_toUInt32, hindex, toNat_bucket]
    rw [hword]
    rfl
  have hold : (oldBucket release fuel (cp - overheadSize)).run s
      = .ok ((true, Int32.ofNat b), s) := by
    simp only [oldBucket, StateT.run_bind, run_load8, ok_bind, hmagic, if_true, hbyte]
    rfl
  simp only [realloc, hcp, hn, if_false, if_true, release_subU32, StateT.run_bind,
    pure_bind, hold, ok_bind, run_oldSize hb hpage, run_lowerSize hb hpage,
    keeps_iff hb hn]
  split
  · rfl
  · simp only [StateT.run_bind, run_kfree hcp hindex, ok_bind]

end Port

end Challenges.Kmalloc

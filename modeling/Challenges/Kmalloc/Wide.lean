import Challenges.Lib.Memory64
import Challenges.Kmalloc.PortSpec

/-!
# Wide — `kmalloc.rs` on a 64-bit machine

The same source, where a pointer has eight bytes and so has a header. The
links that `morecore` writes are computed in `i32`: the address of the next
block loses its upper half, and gets the sign of the lower one in its place.
The requests that one page serves are then inside the page just when the page
is in the lowest or the highest two gigabytes of the address space.

`kmalloc` and what it calls, in the release profile.
-/

namespace Challenges.Kmalloc.Wide

open Challenges.Lib

/-- `ptr::null_mut()` -/
abbrev null : UInt64 := 0

/-- The pointer `sbrk` answers with when it fails. -/
abbrev sbrkFailed : UInt64 := 0xffffffffffffffff

/-- `mem::size_of::<Overhead>()` -/
abbrev overheadSize : UInt64 := 8

/-- The machine, and the static variables. -/
structure World where
  mem : Mem64
  os : Nat → UInt64
  /-- the increments that `sbrk` was called with -/
  log : List Int32
  nextf : Fin nbuckets → UInt64
  pageSz : UInt32
  pageBucket : Int32

abbrev Prog := StateT World (Except Fault)

/-! ## The program -/

/-- `p as i32` of a pointer. -/
def toI32 (p : UInt64) : Int32 := p.toInt64.toInt32

/-- `n as usize` and `n as *mut Overhead` of an `i32`. -/
def ofI32 (n : Int32) : UInt64 := n.toInt64.toUInt64

def load64 (a : UInt64) : Prog UInt64 := do
  return (← get).mem.load64 a

def store64 (a v : UInt64) : Prog Unit :=
  modify fun w => { w with mem := w.mem.store64 a v }

def store8 (a : UInt64) (v : UInt8) : Prog Unit :=
  modify fun w => { w with mem := w.mem.store8 a v }

/-- The world after an `sbrk` call. -/
def World.afterSbrk (w : World) (amt : Int32) : World :=
  let ret := w.os w.log.length
  { w with
    mem := if ret ≠ sbrkFailed ∧ 0 < amt then w.mem.clear ret (ofI32 amt) else w.mem
    log := w.log ++ [amt] }

def sbrk (amt : Int32) : Prog UInt64 := do
  let w ← get
  set (w.afterSbrk amt)
  return w.os w.log.length

/-- Reading `NEXTF[bucket as usize]`. -/
def nextf (bucket : Int32) : Prog UInt64 := do
  if h : (ofI32 bucket).toNat < nbuckets then
    return (← get).nextf ⟨_, h⟩
  else
    throw .indexOutOfBounds

/-- `NEXTF[bucket as usize] = p` -/
def setNextf (bucket : Int32) (p : UInt64) : Prog Unit :=
  if h : (ofI32 bucket).toNat < nbuckets then
    modify fun w => { w with nextf := Function.update w.nextf ⟨_, h⟩ p }
  else
    throw .indexOutOfBounds

/-- One round of `while PAGE_SZ > amt`, on `amt` and `bucket`. -/
def pageStep (v : UInt32 × Int32) : Prog ((UInt32 × Int32) ⊕ Int32) := do
  if (← get).pageSz > v.1 then return .inl (v.1 <<< 1, v.2 + 1) else return .inr v.2

def setPageBucket : Prog Bool := do
  let bucket ← loop .diverges pageStep 33 (8, 0)
  modify fun w => { w with pageBucket := bucket }
  return true

/-- The block under `if PAGE_SZ == 0`; the answer is whether `kmalloc` goes
on. -/
def firstCall : Prog Bool := do
  modify fun w => { w with pageSz := pageSize }
  let n := pageSize.toInt32
  let overhead ← sbrk 0
  let n := n - 8 - (toI32 overhead &&& (n - 1))
  let n := if n < 0 then n + pageSize.toInt32 else n
  if n > 0 then
    let interm ← sbrk n
    if interm = sbrkFailed then return false else setPageBucket
  else
    setPageBucket

/-- One round of `while nbytes > (amt as i32 + n) as usize`, on `amt` and
`bucket`. -/
def growStep (nbytes : UInt64) (n : Int32) (v : UInt32 × Int32) :
    Prog ((UInt32 × Int32) ⊕ Option Int32) := do
  if nbytes > ofI32 (v.1.toInt32 + n) then
    if v.1 <<< 1 = 0 then return .inr none else return .inl (v.1 <<< 1, v.2 + 1)
  else
    return .inr (some v.2)

/-- The bucket for a request. -/
def selectBucket (nbytes : UInt64) : Prog (Option Int32) := do
  let w ← get
  let n := w.pageSz.toInt32 - 8
  if nbytes ≤ ofI32 n then
    loop .diverges (growStep nbytes (-8)) 33 (8, 0)
  else
    loop .diverges (growStep nbytes n) 33 (w.pageSz, w.pageBucket)

/-- One round of `while nblks > 0`, on `nblks` and `overhead`. -/
def carveStep (sz : Int32) (v : Int32 × UInt64) : Prog ((Int32 × UInt64) ⊕ Unit) := do
  if v.1 > 0 then
    store64 v.2 (ofI32 (toI32 v.2 + sz))
    let overhead := ofI32 (toI32 v.2 + sz)
    return .inl (v.1 - 1, overhead)
  else
    return .inr ()

def morecore (bucket : Int32) : Prog Unit := do
  let sz := ((1 : UInt32) <<< (bucket + 3).toUInt32).toInt32
  let pageSz := (← get).pageSz.toInt32
  let (amt, nblks) := if sz < pageSz then (pageSz, pageSz / sz) else (sz + pageSz, 1)
  let overhead ← sbrk amt
  if overhead = sbrkFailed then
    return ()
  else
    setNextf bucket overhead
    loop .diverges (carveStep sz) ((nblks - 1).toNatClampNeg + 1) (nblks - 1, overhead)

/-- `overhead = NEXTF[bucket]`, after `morecore(bucket)` when it is null. -/
def firstFree (bucket : Int32) : Prog UInt64 := do
  let overhead ← nextf bucket
  if overhead = null then
    morecore bucket
    nextf bucket
  else
    return overhead

/-- Unlink the first block of a bucket, write its header and return the
address after it. -/
def takeBlock (bucket : Int32) : Prog UInt64 := do
  let overhead ← firstFree bucket
  if overhead = null then
    return null
  else
    setNextf bucket (← load64 overhead)
    store8 overhead magic
    store8 (overhead + 1) bucket.toUInt32.toUInt8
    return overhead + overheadSize

/-- `kmalloc` once `PAGE_SZ` is set. -/
def serve (nbytes : UInt64) : Prog UInt64 := do
  match ← selectBucket nbytes with
  | none => return null
  | some bucket => takeBlock bucket

def kmalloc (nbytes : UInt64) : Prog UInt64 := do
  if (← get).pageSz = 0 then
    if ← firstCall then serve nbytes else return null
  else
    serve nbytes

/-- A client that makes the same request `k` times. -/
def requests (nbytes : UInt64) : Nat → Prog (List UInt64)
  | 0 => return []
  | k + 1 => do
      let p ← kmalloc nbytes
      return p :: (← requests nbytes k)

/-! ## Addresses that lose their upper half -/

/-- What is left of an address that has been an `i32`. -/
def narrow (p : UInt64) : UInt64 := ofI32 (toI32 p)

theorem toInt_toInt64 (p : UInt64) : p.toInt64.toInt = (p.toNat : Int).bmod (2 ^ 64) :=
  BitVec.toInt_eq_toNat_bmod p.toBitVec

theorem bmod_narrow (p : UInt64) :
    ((narrow p).toNat : Int).bmod (2 ^ 64) = (p.toNat : Int).bmod (2 ^ 32) := by
  rw [← toInt_toInt64, narrow, ofI32, toI32, Int64.toInt64_toUInt64, Int32.toInt_toInt64,
    Int64.toInt_toInt32, toInt_toInt64]
  exact Int.bmod_bmod_of_dvd (by decide)

/-- The lower half is kept. -/
theorem narrow_mod (p : UInt64) : (narrow p).toNat % 2 ^ 32 = p.toNat % 2 ^ 32 := by
  have hmod := bmod_narrow p
  have hlt := (narrow p).toNat_lt
  rw [Int.bmod_def, Int.bmod_def] at hmod
  omega

/-- An address survives in the lowest and in the highest two gigabytes. -/
theorem narrow_eq_iff (p : UInt64) :
    narrow p = p ↔ p.toNat < 2 ^ 31 ∨ 2 ^ 64 - 2 ^ 31 ≤ p.toNat := by
  have hmod := bmod_narrow p
  have hlt := (narrow p).toNat_lt
  have hlt' := p.toNat_lt
  rw [← UInt64.toNat_inj]
  rw [Int.bmod_def, Int.bmod_def] at hmod
  omega

/-- The address that `morecore` computes for the block behind the one at `p`. -/
theorem ofI32_add (p : UInt64) (sz : Int32) : ofI32 (toI32 p + sz) = narrow (p + ofI32 sz) := by
  simp only [narrow, toI32, ofI32, UInt64.toInt64_add, Int64.toInt32_add, Int64.toInt64_toUInt64,
    Int32.toInt32_toInt64]

/-! ## The nodes of a page -/

/-- The blocks of `sz` bytes that `morecore` makes of the page at `r`. -/
def node (r : UInt64) (sz : Nat) : Nat → UInt64
  | 0 => r
  | k + 1 => narrow (node r sz k + UInt64.ofNat sz)

section Nodes

variable {r : UInt64} {s i j k : Nat}

/-- The lower halves are as they should be. -/
theorem node_mod (r : UInt64) (s k : Nat) :
    (node r s k).toNat % 2 ^ 32 = (r.toNat + k * s) % 2 ^ 32 := by
  induction k with
  | zero => rw [node, Nat.zero_mul, Nat.add_zero]
  | succ k ih =>
      rw [node, narrow_mod, UInt64.toNat_add, UInt64.toNat_ofNat', Nat.succ_mul]
      omega

theorem narrow_node (r : UInt64) (s k : Nat) : narrow (node r s (k + 1)) = node r s (k + 1) := by
  rw [narrow_eq_iff, node]
  have hmod := bmod_narrow (node r s k + UInt64.ofNat s)
  have hlt := (narrow (node r s k + UInt64.ofNat s)).toNat_lt
  rw [Int.bmod_def, Int.bmod_def] at hmod
  omega

/-- The words of two nodes of a page do not overlap. -/
theorem node_apart (hs : 8 ≤ s) (hi : i * s ≤ 4096) (hj : j * s ≤ 4096) (hne : i ≠ j)
    (hk : k < 8) : ¬ node r s j + UInt64.ofNat k - node r s i < 8 := by
  have hmodi := node_mod r s i
  have hmodj := node_mod r s j
  have hapart : i * s + 8 ≤ j * s ∨ j * s + 8 ≤ i * s := by
    rcases Nat.lt_or_gt_of_ne hne with hlt | hlt
    · have hmul := Nat.mul_le_mul_right s (show i + 1 ≤ j from hlt)
      rw [Nat.succ_mul] at hmul
      exact .inl (by omega)
    · have hmul := Nat.mul_le_mul_right s (show j + 1 ≤ i from hlt)
      rw [Nat.succ_mul] at hmul
      exact .inr (by omega)
  have hlti := (node r s i).toNat_lt
  have hltj := (node r s j).toNat_lt
  rw [UInt64.lt_iff_toNat_lt, UInt64.toNat_sub, UInt64.toNat_add, UInt64.toNat_ofNat']
  change ¬ _ < 8
  omega

/-- A store in one node leaves the links of the others. -/
theorem load64_store64 (m : Mem64) (v : UInt64) (hs : 8 ≤ s) (hi : i * s ≤ 4096)
    (hj : j * s ≤ 4096) (hne : i ≠ j) :
    (m.store64 (node r s i) v).load64 (node r s j) = m.load64 (node r s j) := by
  refine congrArg UInt64.ofNat (littleEndian_congr fun k hk => ?_)
  exact if_neg (node_apart hs hi hj hne hk)

theorem load64_store8 (m : Mem64) (v : UInt8) {e : UInt64} (he : e < 8) (hs : 8 ≤ s)
    (hi : i * s ≤ 4096) (hj : j * s ≤ 4096) (hne : i ≠ j) :
    (m.store8 (node r s i + e) v).load64 (node r s j) = m.load64 (node r s j) := by
  refine congrArg UInt64.ofNat (littleEndian_congr fun k hk => ?_)
  refine Function.update_of_ne (fun heq => ?_) v m
  apply node_apart (r := r) hs hi hj hne hk
  rw [heq, UInt64.add_comm, UInt64.add_sub_cancel]
  exact he

end Nodes

/-! ## The free list of a page -/

/-- The memory after `morecore` has written `k` links in the page at `r`. -/
def linked (m : Mem64) (r : UInt64) (sz : Nat) : Nat → Mem64
  | 0 => m
  | k + 1 => (linked m r sz k).store64 (node r sz k) (node r sz (k + 1))

/-- The links are there. -/
theorem load64_linked (m : Mem64) {r : UInt64} {sz k j : Nat} (hsz : 8 ≤ sz)
    (hk : k * sz ≤ 4096) (hj : j < k) :
    (linked m r sz k).load64 (node r sz j) = node r sz (j + 1) := by
  induction k with
  | zero => exact absurd hj (Nat.not_lt_zero j)
  | succ k ih =>
      have hle : k * sz ≤ 4096 := Nat.le_trans (Nat.mul_le_mul_right sz (Nat.le_succ k)) hk
      rcases Nat.lt_succ_iff_lt_or_eq.mp hj with hlt | rfl
      · have hjle : j * sz ≤ 4096 := Nat.le_trans (Nat.mul_le_mul_right sz hlt.le) hle
        rw [linked, load64_store64 _ _ hsz hle hjle hlt.ne', ih hle hlt]
      · exact Mem64.store64_load64 _ _ _

/-- The blocks that `morecore(b)` makes of a page. -/
def blocks (b : Nat) : Nat := 2 ^ (9 - b)

/-- The numbers that `morecore(b)` computes, below the page size. -/
theorem numbers {b : Nat} (hb : b ≤ 8) :
    let sz := ((1 : UInt32) <<< (Int32.ofNat b + 3).toUInt32).toInt32
    sz < 4096 ∧ ofI32 sz = UInt64.ofNat (2 ^ (b + 3)) ∧
      ((4096 : Int32) / sz - 1).toNatClampNeg = blocks b - 1 ∧
      blocks b * 2 ^ (b + 3) = 4096 ∧ (ofI32 (Int32.ofNat b)).toNat = b := by
  have h : ∀ b : Fin 9, let sz := ((1 : UInt32) <<< (Int32.ofNat b.val + 3).toUInt32).toInt32
      sz < 4096 ∧ ofI32 sz = UInt64.ofNat (2 ^ (b.val + 3)) ∧
        ((4096 : Int32) / sz - 1).toNatClampNeg = blocks b - 1 ∧
        blocks b * 2 ^ (b.val + 3) = 4096 ∧ (ofI32 (Int32.ofNat b.val)).toNat = b.val := by decide
  exact h ⟨b, by omega⟩

section Calls

variable {w u : World} {b : Fin nbuckets} {n : UInt64}

@[simp] theorem run_nextf (w : World) (hb : b.val ≤ 8) :
    (nextf (Int32.ofNat b)).run w = .ok (w.nextf b, w) := by
  obtain ⟨_, _, _, _, hval⟩ := numbers hb
  have hin : (ofI32 (Int32.ofNat b)).toNat < nbuckets := by rw [hval]; exact b.isLt
  have hidx : (⟨_, hin⟩ : Fin nbuckets) = b := Fin.ext hval
  rw [nextf, dif_pos hin, hidx]
  rfl

@[simp] theorem run_setNextf (w : World) (p : UInt64) (hb : b.val ≤ 8) :
    (setNextf (Int32.ofNat b) p).run w
      = .ok ((), { w with nextf := Function.update w.nextf b p }) := by
  obtain ⟨_, _, _, _, hval⟩ := numbers hb
  have hin : (ofI32 (Int32.ofNat b)).toNat < nbuckets := by rw [hval]; exact b.isLt
  have hidx : (⟨_, hin⟩ : Fin nbuckets) = b := Fin.ext hval
  rw [setNextf, dif_pos hin, hidx]
  rfl

/-- The loop of `morecore` writes the links from the `i`-th on. -/
theorem run_carve {sz : Int32} {size : Nat} {r : UInt64} (hsize : ofI32 sz = UInt64.ofNat size)
    {m : Mem64} {k : Nat} : ∀ {i : Nat} {c : Int32} {w : World}, c.toNatClampNeg = k →
      w.mem = linked m r size i →
      (loop Fault.diverges (carveStep sz) (k + 1) (c, node r size i)).run w
        = .ok ((), { w with mem := linked m r size (i + k) }) := by
  induction k with
  | zero =>
      intro i c w hc hmem
      have hpos : ¬ c > 0 := by
        rw [gt_iff_lt, ← Int32.toNatClampNeg_pos_iff]
        omega
      exact loop_done (by simp [carveStep, hpos, ← hmem])
  | succ k ih =>
      intro i c w hc hmem
      obtain ⟨hpos, hsub⟩ := Port.toNatClampNeg_pred hc
      have hnext : ofI32 (toI32 (node r size i) + sz) = node r size (i + 1) := by
        rw [ofI32_add, hsize, node]
      have hstep : (carveStep sz (c, node r size i)).run w
          = .ok (.inl (c - 1, node r size (i + 1)),
              { w with mem := linked m r size (i + 1) }) := by
        simp [carveStep, hpos, hnext, store64, linked, hmem]
      rw [loop_next hstep, ih hsub rfl, Nat.add_right_comm i 1 k]
      rfl

/-- The machine after `morecore(b)` has got a page. -/
def refilled (w : World) (b : Fin nbuckets) : World :=
  let r := w.os w.log.length
  { w with
    mem := linked (w.mem.clear r 4096) r (2 ^ (b.val + 3)) (blocks b - 1)
    log := w.log ++ [4096]
    nextf := Function.update w.nextf b r }

theorem refilled_nextf (w : World) (b : Fin nbuckets) :
    (refilled w b).nextf b = w.os w.log.length := Function.update_self _ _ _

theorem run_morecore (hb : b.val ≤ 8) (hpage : w.pageSz = 4096)
    (hret : w.os w.log.length ≠ sbrkFailed) :
    (morecore (Int32.ofNat b)).run w = .ok ((), refilled w b) := by
  obtain ⟨hlt, hsize, hcount, _, _⟩ := numbers hb
  have h4096 : (4096 : UInt32).toInt32 = 4096 := rfl
  have hsbrk : (sbrk 4096).run w = .ok (w.os w.log.length, w.afterSbrk 4096) := rfl
  have hmem : (w.afterSbrk 4096).mem = w.mem.clear (w.os w.log.length) 4096 := by
    rw [World.afterSbrk, if_pos ⟨hret, by decide⟩]
    rfl
  simp only [morecore, StateT.run_bind, StateT.run_get, pure_eq_ok, ok_bind, hpage, h4096,
    if_pos hlt, hsbrk, if_neg hret, run_setNextf _ _ hb]
  rw [hcount]
  have hlinks := run_carve (i := 0) (r := w.os w.log.length) (k := blocks b - 1)
    (w := { w.afterSbrk 4096 with nextf := Function.update w.nextf b (w.os w.log.length) })
    hsize hcount hmem
  rw [Nat.zero_add] at hlinks
  exact hlinks

/-- Unlink the block at `p` and write its header. -/
def taken (w : World) (b : Fin nbuckets) (p : UInt64) : World :=
  { w with
    nextf := Function.update w.nextf b (w.mem.load64 p)
    mem := (w.mem.store8 p magic).store8 (p + 1) (Int32.ofNat b).toUInt32.toUInt8 }

theorem run_takeBlock {p : UInt64} (hb : b.val ≤ 8) (hp : p ≠ null)
    (hfree : (firstFree (Int32.ofNat b)).run w = .ok (p, u)) :
    (takeBlock (Int32.ofNat b)).run w = .ok (p + 8, taken u b p) := by
  simp only [takeBlock, StateT.run_bind, hfree, ok_bind, if_neg hp]
  simp [load64, store8, hb, taken]

theorem firstFree_listed (hb : b.val ≤ 8) (hlisted : w.nextf b ≠ null) :
    (firstFree (Int32.ofNat b)).run w = .ok (w.nextf b, w) := by
  simp [firstFree, hb, hlisted]

theorem firstFree_empty (hb : b.val ≤ 8) (hpage : w.pageSz = 4096)
    (hret : w.os w.log.length ≠ sbrkFailed) (hempty : w.nextf b = null) :
    (firstFree (Int32.ofNat b)).run w = .ok (w.os w.log.length, refilled w b) := by
  simp only [firstFree, StateT.run_bind, run_nextf w hb, ok_bind, if_pos hempty,
    run_morecore hb hpage hret, run_nextf _ hb, refilled_nextf]

/-- A request is served from the least bucket that fits it and a header. -/
structure OfClass (n : UInt64) (b : Nat) : Prop where
  fits : n.toNat + 8 ≤ 2 ^ (b + 3)
  least : ∀ c < b, 2 ^ (c + 3) < n.toNat + 8

theorem run_growStep {k : Nat} (hk : k ≤ 8) :
    (growStep n (-8) (UInt32.ofNat (2 ^ (k + 3)), Int32.ofNat k)).run w
      = .ok (if 2 ^ (k + 3) < n.toNat + 8
          then .inl (UInt32.ofNat (2 ^ (k + 1 + 3)), Int32.ofNat (k + 1))
          else .inr (some (Int32.ofNat k)), w) := by
  have h : ∀ k : Fin 9, (ofI32 ((UInt32.ofNat (2 ^ (k.val + 3))).toInt32 + -8)).toNat + 8
      = 2 ^ (k.val + 3) ∧
      UInt32.ofNat (2 ^ (k.val + 3)) <<< 1 = UInt32.ofNat (2 ^ (k.val + 1 + 3)) ∧
      UInt32.ofNat (2 ^ (k.val + 1 + 3)) ≠ 0 ∧
      Int32.ofNat k.val + 1 = Int32.ofNat (k.val + 1) := by decide
  obtain ⟨hroom, hshl, hne, hsucc⟩ := h ⟨k, by omega⟩
  simp only at hroom hshl hne hsucc
  have hpass : n > ofI32 ((UInt32.ofNat (2 ^ (k + 3))).toInt32 + -8)
      ↔ 2 ^ (k + 3) < n.toNat + 8 := by
    rw [gt_iff_lt, UInt64.lt_iff_toNat_lt]
    omega
  simp only [growStep, hpass, hshl, if_neg hne, hsucc]
  split <;> rfl

theorem run_grow {d : Nat} (hn : OfClass n b) (hb : b.val ≤ 8) : ∀ {k fuel : Nat}, k + d = b →
    d < fuel → (loop Fault.diverges (growStep n (-8)) fuel
      (UInt32.ofNat (2 ^ (k + 3)), Int32.ofNat k)).run w = .ok (some (Int32.ofNat b), w) := by
  induction d with
  | zero =>
      intro k fuel hk hfuel
      obtain ⟨f, rfl⟩ : ∃ f, fuel = f + 1 := ⟨fuel - 1, by omega⟩
      obtain rfl : k = b := by omega
      have hfits := hn.fits
      exact loop_done (by rw [run_growStep hb, if_neg (by omega)])
  | succ d ih =>
      intro k fuel hk hfuel
      obtain ⟨f, rfl⟩ : ∃ f, fuel = f + 1 := ⟨fuel - 1, by omega⟩
      have hpass := hn.least k (by omega)
      rw [loop_next (by rw [run_growStep (by omega), if_pos hpass])]
      exact ih (by omega) (by omega)

theorem run_selectBucket (hn : OfClass n b) (hb : b.val ≤ 8) (hpage : w.pageSz = 4096) :
    (selectBucket n).run w = .ok (some (Int32.ofNat b), w) := by
  have hsmall : n ≤ ofI32 ((4096 : UInt32).toInt32 - 8) := by
    have hpow : 2 ^ (b.val + 3) ≤ 2 ^ 11 := Nat.pow_le_pow_right (by decide) (by omega)
    have hfits := hn.fits
    have hval : (ofI32 ((4096 : UInt32).toInt32 - 8)).toNat = 4088 := rfl
    rw [UInt64.le_iff_toNat_le]
    omega
  simp only [selectBucket, StateT.run_bind, StateT.run_get, pure_eq_ok, ok_bind, hpage,
    if_pos hsmall]
  exact run_grow (k := 0) hn hb (Nat.zero_add _) (by omega)

/-- A request of a class is answered from its list. -/
theorem run_kmalloc (hn : OfClass n b) (hb : b.val ≤ 8) (hpage : w.pageSz = 4096) :
    (kmalloc n).run w = (takeBlock (Int32.ofNat b)).run w := by
  have hready : ¬ (4096 : UInt32) = 0 := by decide
  simp only [kmalloc, serve, StateT.run_bind, StateT.run_get, pure_eq_ok, ok_bind, hpage,
    if_neg hready, run_selectBucket hn hb hpage]

end Calls

/-! ## The requests that a page serves -/

/-- The machine between the requests: `i` blocks of the page at `r` have been
handed out. -/
structure Serving (b : Fin nbuckets) (r : UInt64) (i : Nat) (w : World) : Prop where
  page : w.pageSz = 4096
  first : i < blocks b → w.nextf b = node r (2 ^ (b.val + 3)) i
  links : ∀ j, i ≤ j → j + 1 < blocks b →
    w.mem.load64 (node r (2 ^ (b.val + 3)) j) = node r (2 ^ (b.val + 3)) (j + 1)

section Page

variable {w t : World} {b : Fin nbuckets} {n r : UInt64} {i : Nat}

/-- The blocks lie in the first 4096 bytes. -/
theorem block_le (hb : b.val ≤ 8) {j : Nat} (hj : j ≤ blocks b) : j * 2 ^ (b.val + 3) ≤ 4096 := by
  obtain ⟨_, _, _, hpage, _⟩ := numbers hb
  rw [← hpage]
  exact Nat.mul_le_mul_right _ hj

theorem size_ge (b : Fin nbuckets) : 8 ≤ 2 ^ (b.val + 3) := by
  have hpow : 2 ^ 3 ≤ 2 ^ (b.val + 3) := Nat.pow_le_pow_right (by decide) (by omega)
  exact hpow

theorem serving_refilled (hb : b.val ≤ 8) (hpage : w.pageSz = 4096) :
    Serving b (w.os w.log.length) 0 (refilled w b) where
  page := hpage
  first := fun _ => refilled_nextf w b
  links := fun j _ hj => load64_linked _ (size_ge b) (block_le hb (Nat.sub_le _ _)) (by omega)

/-- Taking a block leaves the links behind it. -/
theorem Serving.taken (h : Serving b r i w) (hb : b.val ≤ 8) (hi : i < blocks b) :
    Serving b r (i + 1) (taken w b (node r (2 ^ (b.val + 3)) i)) where
  page := h.page
  first := fun hlt => (Function.update_self _ _ _).trans (h.links i (Nat.le_refl i) hlt)
  links := by
    intro j hij hj
    have hapart := load64_store8 (r := r) (i := i) (j := j) (s := 2 ^ (b.val + 3))
    have hzero := hapart w.mem magic (e := 0) (by decide) (size_ge b) (block_le hb hi.le)
      (block_le hb (by omega)) (by omega)
    have hone := hapart (w.mem.store8 (node r (2 ^ (b.val + 3)) i) magic)
      (Int32.ofNat b).toUInt32.toUInt8 (e := 1) (by decide) (size_ge b) (block_le hb hi.le)
      (block_le hb (by omega)) (by omega)
    rw [UInt64.add_zero] at hzero
    exact hone.trans (hzero.trans (h.links j (by omega) hj))

/-- One request, from a block that is not the null pointer. -/
theorem Serving.next (h : Serving b r i w) (hn : OfClass n b) (hb : b.val ≤ 8)
    (hi : i < blocks b) (hne : node r (2 ^ (b.val + 3)) i ≠ null) :
    ∃ u, (kmalloc n).run w = .ok (node r (2 ^ (b.val + 3)) i + 8, u) ∧
      Serving b r (i + 1) u ∧ u.log = w.log := by
  have hfirst := h.first hi
  have hfree := firstFree_listed (w := w) hb (by rwa [hfirst])
  rw [hfirst] at hfree
  exact ⟨_, (run_kmalloc hn hb h.page).trans (run_takeBlock hb hne hfree), h.taken hb hi, rfl⟩

/-- The requests for the blocks that are left, when no address is null. -/
theorem Serving.run_requests {k : Nat} : ∀ {i : Nat} {w : World}, Serving b r i w →
    OfClass n b → b.val ≤ 8 → i + k = blocks b →
    (∀ j, i ≤ j → j < blocks b → node r (2 ^ (b.val + 3)) j ≠ null) →
    ∃ t, (requests n k).run w
        = .ok ((List.range' i k).map fun j => node r (2 ^ (b.val + 3)) j + 8, t) ∧
      t.log = w.log := by
  induction k with
  | zero =>
      intro i w _ _ _ _ _
      exact ⟨w, rfl, rfl⟩
  | succ k ih =>
      intro i w h hn hb hk hne
      obtain ⟨u, hrun, hu, hlog⟩ := h.next hn hb (by omega) (hne i (Nat.le_refl i) (by omega))
      obtain ⟨t, hrest, hsame⟩ := ih hu hn hb (by omega) fun j hj => hne j (by omega)
      refine ⟨t, ?_, hsame.trans hlog⟩
      simp only [requests, StateT.run_bind, hrun, ok_bind, hrest, List.range'_succ, List.map_cons]
      rfl

end Page

/-! ## The calls of `sbrk` -/

section Log

variable {w : World} {b : Fin nbuckets} {n : UInt64}

/-- `morecore` makes one call. -/
theorem exists_morecore (hb : b.val ≤ 8) (hpage : w.pageSz = 4096) :
    ∃ u, (morecore (Int32.ofNat b)).run w = .ok ((), u) ∧ u.pageSz = 4096 ∧
      u.log = w.log ++ [4096] := by
  by_cases hret : w.os w.log.length = sbrkFailed
  · obtain ⟨hlt, _⟩ := numbers hb
    have h4096 : (4096 : UInt32).toInt32 = 4096 := rfl
    have hsbrk : (sbrk 4096).run w = .ok (w.os w.log.length, w.afterSbrk 4096) := rfl
    refine ⟨w.afterSbrk 4096, ?_, hpage, rfl⟩
    simp only [morecore, StateT.run_bind, StateT.run_get, pure_eq_ok, ok_bind, hpage, h4096,
      if_pos hlt, hsbrk, if_pos hret]
    rfl
  · exact ⟨_, run_morecore hb hpage hret, hpage, rfl⟩

theorem exists_firstFree (hb : b.val ≤ 8) (hpage : w.pageSz = 4096) :
    ∃ p u, (firstFree (Int32.ofNat b)).run w = .ok (p, u) ∧ u.pageSz = 4096 ∧
      w.log.length ≤ u.log.length ∧ (w.nextf b = null → w.log.length < u.log.length) := by
  by_cases hempty : w.nextf b = null
  · obtain ⟨u, hmore, hpageu, hlog⟩ := exists_morecore hb hpage
    have hlen : u.log.length = w.log.length + 1 := by rw [hlog, List.length_append]; rfl
    refine ⟨u.nextf b, u, ?_, hpageu, by omega, fun _ => by omega⟩
    simp only [firstFree, StateT.run_bind, run_nextf w hb, ok_bind, if_pos hempty,
      hmore, run_nextf u hb]
  · exact ⟨_, w, firstFree_listed hb hempty, hpage, Nat.le_refl _, fun h => absurd h hempty⟩

/-- A request returns; from an empty list it has called `sbrk`. -/
theorem exists_kmalloc (hn : OfClass n b) (hb : b.val ≤ 8) (hpage : w.pageSz = 4096) :
    ∃ p u, (kmalloc n).run w = .ok (p, u) ∧ u.pageSz = 4096 ∧
      w.log.length ≤ u.log.length ∧ (w.nextf b = null → w.log.length < u.log.length) := by
  obtain ⟨p, u, hfree, hpageu, hlog⟩ := exists_firstFree hb hpage
  rw [run_kmalloc hn hb hpage]
  by_cases hp : p = null
  · refine ⟨null, u, ?_, hpageu, hlog⟩
    simp only [takeBlock, StateT.run_bind, hfree, ok_bind, if_pos hp]
    rfl
  · exact ⟨p + 8, taken u b p, run_takeBlock hb hp hfree, hpageu, hlog⟩

theorem exists_requests {k : Nat} (hn : OfClass n b) (hb : b.val ≤ 8) : ∀ {w : World},
    w.pageSz = 4096 →
    ∃ ps t, (requests n k).run w = .ok (ps, t) ∧ w.log.length ≤ t.log.length := by
  induction k with
  | zero => exact fun _ => ⟨[], _, rfl, Nat.le_refl _⟩
  | succ k ih =>
      intro w hpage
      obtain ⟨p, u, hrun, hpageu, hle, _⟩ := exists_kmalloc hn hb hpage
      obtain ⟨ps, t, hrest, hle'⟩ := ih hpageu
      refine ⟨p :: ps, t, ?_, Nat.le_trans hle hle'⟩
      simp only [requests, StateT.run_bind, hrun, ok_bind, hrest]
      rfl

end Log

/-! ## The theorem -/

section Theorem

variable {w : World} {b : Fin nbuckets} {n r : UInt64}

/-- The page at `r`, from its second block to its last, is in the lowest or in
the highest two gigabytes. -/
def Near (r : UInt64) (b : Nat) : Prop :=
  r.toNat + (blocks b - 1) * 2 ^ (b + 3) < 2 ^ 31 ∨ 2 ^ 64 - 2 ^ 31 ≤ r.toNat + 2 ^ (b + 3)

instance (r : UInt64) (b : Nat) : Decidable (Near r b) := inferInstanceAs (Decidable (_ ∨ _))

/-- The blocks of a page that is near lie one after the other. -/
theorem node_of_near (hb : b.val ≤ 8) (hfit : r.toNat + 4096 ≤ 2 ^ 64) (h : Near r b) {j : Nat}
    (hj : j < blocks b) : node r (2 ^ (b.val + 3)) j = r + UInt64.ofNat (j * 2 ^ (b.val + 3)) := by
  induction j with
  | zero => rw [Nat.zero_mul]; exact (UInt64.add_zero r).symm
  | succ j ih =>
      have hsum : node r (2 ^ (b.val + 3)) j + UInt64.ofNat (2 ^ (b.val + 3))
          = r + UInt64.ofNat ((j + 1) * 2 ^ (b.val + 3)) := by
        rw [ih (by omega), Nat.succ_mul, UInt64.ofNat_add, UInt64.add_assoc]
      have hin := block_le hb (j := j + 1 + 1) hj
      have hlow : (j + 1) * 2 ^ (b.val + 3) ≤ (blocks b - 1) * 2 ^ (b.val + 3) :=
        Nat.mul_le_mul_right _ (by omega)
      have hhigh : 2 ^ (b.val + 3) ≤ (j + 1) * 2 ^ (b.val + 3) :=
        Nat.le_mul_of_pos_left _ (Nat.succ_pos j)
      have hpos := size_ge b
      rw [Nat.succ_mul] at hin
      rw [node, hsum, narrow_eq_iff, UInt64.toNat_add, UInt64.toNat_ofNat']
      unfold Near at h
      omega

theorem node_ne_of_near (hb : b.val ≤ 8) (hr : r ≠ null) (hfit : r.toNat + 4096 ≤ 2 ^ 64)
    (h : Near r b) {j : Nat} (hj : j < blocks b) : node r (2 ^ (b.val + 3)) j ≠ null := by
  intro heq
  have hin := block_le hb (j := j + 1) hj
  have hpos := size_ge b
  have hzero := congrArg UInt64.toNat ((node_of_near hb hfit h hj).symm.trans heq)
  have hsome : r.toNat ≠ 0 := fun h => hr (UInt64.toNat_inj.mp h)
  have hval : null.toNat = 0 := rfl
  rw [Nat.succ_mul] at hin
  rw [UInt64.toNat_add, UInt64.toNat_ofNat', hval] at hzero
  omega

/-- An answer inside the page is the answer for the block that should be there. -/
theorem node_of_inside (hb : b.val ≤ 8) (hfit : r.toNat + 4096 ≤ 2 ^ 64) {j : Nat}
    (hj : j < blocks b) {p : UInt64} (hp : p = node r (2 ^ (b.val + 3)) j + 8)
    (hlo : r.toNat ≤ p.toNat) (hhi : p.toNat ≤ r.toNat + 4096) :
    (node r (2 ^ (b.val + 3)) j).toNat = r.toNat + j * 2 ^ (b.val + 3) := by
  have hmod := node_mod r (2 ^ (b.val + 3)) j
  have hlt := (node r (2 ^ (b.val + 3)) j).toNat_lt
  have hin := block_le hb (j := j + 1) hj
  have hpos := size_ge b
  have hval : (8 : UInt64).toNat = 8 := rfl
  rw [Nat.succ_mul] at hin
  rw [hp, UInt64.toNat_add, hval] at hlo hhi
  omega

/-- A page whose answers are all inside it is near. -/
theorem near_of_inside (hb : b.val ≤ 8)
    (h : ∀ j < blocks b, (node r (2 ^ (b.val + 3)) j).toNat = r.toNat + j * 2 ^ (b.val + 3)) :
    Near r b := by
  have htwo : 2 ≤ blocks b := by
    have hpow : 2 ^ 1 ≤ 2 ^ (9 - b.val) := Nat.pow_le_pow_right (by decide) (by omega)
    exact hpow
  have hstable : ∀ j, 0 < j → j < blocks b → r.toNat + j * 2 ^ (b.val + 3) < 2 ^ 31 ∨
      2 ^ 64 - 2 ^ 31 ≤ r.toNat + j * 2 ^ (b.val + 3) := by
    intro j hpos hj
    obtain ⟨k, rfl⟩ : ∃ k, j = k + 1 := ⟨j - 1, by omega⟩
    rw [← h _ hj]
    exact (narrow_eq_iff _).mp (narrow_node r _ k)
  have hfirst := hstable 1 Nat.one_pos (by omega)
  have hlast := hstable (blocks b - 1) (by omega) (by omega)
  have hin := block_le hb (j := blocks b - 1) (Nat.sub_le _ _)
  have hpos := size_ge b
  rw [Nat.one_mul] at hfirst
  unfold Near
  omega

/-- The first request calls `morecore`, and goes on as from the full list. -/
theorem requests_refilled (hn : OfClass n b) (hb : b.val ≤ 8) (hpage : w.pageSz = 4096)
    (hret : w.os w.log.length ≠ sbrkFailed) (hne : w.os w.log.length ≠ null)
    (hempty : w.nextf b = null) :
    (requests n (blocks b)).run w = (requests n (blocks b)).run (refilled w b) := by
  obtain ⟨k, hk⟩ : ∃ k, blocks b = k + 1 := Nat.exists_eq_succ_of_ne_zero (Nat.two_pow_pos _).ne'
  have hnext := refilled_nextf w b
  have hlisted := firstFree_listed (w := refilled w b) hb (by rwa [hnext])
  rw [hnext] at hlisted
  have hempty := run_takeBlock hb hne (firstFree_empty hb hpage hret hempty)
  have hfull := run_takeBlock hb hne hlisted
  have hkmalloc : (kmalloc n).run w = (kmalloc n).run (refilled w b) := by
    rw [run_kmalloc hn hb hpage, run_kmalloc (w := refilled w b) hn hb hpage, hempty, hfull]
  rw [hk]
  simp only [requests, StateT.run_bind, hkmalloc]

/-- The requests that use up the page make one call of `sbrk`, and every
answer is `n` bytes of the page. -/
def ServedByPage (w : World) (b : Fin nbuckets) (n : UInt64) : Prop :=
  ∃ ps t, (requests n (blocks b)).run w = .ok (ps, t) ∧ t.log = w.log ++ [4096] ∧
    ∀ p ∈ ps, (w.os w.log.length).toNat ≤ p.toNat ∧
      p.toNat + n.toNat ≤ (w.os w.log.length).toNat + 4096

/-- No address of the page is lost when the answers come from one call. -/
theorem Serving.node_ne {k : Nat} : ∀ {i : Nat} {w t : World} {ps : List UInt64},
    Serving b r i w → OfClass n b → b.val ≤ 8 → i + k = blocks b →
    (requests n k).run w = .ok (ps, t) → t.log.length ≤ w.log.length →
    ∀ j, i ≤ j → j < blocks b → node r (2 ^ (b.val + 3)) j ≠ null := by
  induction k with
  | zero => exact fun _ _ _ hk _ _ j hij hj => absurd hj (by omega)
  | succ k ih =>
      intro i w t ps h hn hb hk hrun hlog j hij hj
      by_cases hnull : node r (2 ^ (b.val + 3)) i = null
      · -- the list has come to its end too early
        exfalso
        obtain ⟨p, u, hmalloc, hpage, _, hgrown⟩ := exists_kmalloc hn hb h.page
        obtain ⟨_, t', hrest, hle⟩ := exists_requests (k := k) hn hb hpage
        have hlt := hgrown ((h.first (by omega)).trans hnull)
        simp only [requests, StateT.run_bind, hmalloc, ok_bind, hrest] at hrun
        cases hrun
        omega
      · obtain ⟨u, hmalloc, hu, hsame⟩ := h.next hn hb (by omega) hnull
        rw [requests] at hrun
        obtain ⟨_, _, hfirst, hrest⟩ := run_bind_eq_ok.mp hrun
        obtain ⟨_, t', hrest, hpure⟩ := run_bind_eq_ok.mp hrest
        rw [hmalloc] at hfirst
        cases hfirst
        cases hpure
        rcases Nat.eq_or_lt_of_le hij with rfl | hlt
        · exact hnull
        · exact ih hu hn hb (by omega) hrest (by rwa [hsame]) j hlt hj

/-- When no address is null, the requests are answered from one page. -/
theorem run_page (hn : OfClass n b) (hb : b.val ≤ 8) (hpage : w.pageSz = 4096)
    (hret : w.os w.log.length ≠ sbrkFailed) (hr : w.os w.log.length ≠ null)
    (hempty : w.nextf b = null)
    (hne : ∀ j, 0 ≤ j → j < blocks b → node (w.os w.log.length) (2 ^ (b.val + 3)) j ≠ null) :
    ∃ t, (requests n (blocks b)).run w
        = .ok ((List.range (blocks b)).map fun j =>
            node (w.os w.log.length) (2 ^ (b.val + 3)) j + 8, t) ∧
      t.log = w.log ++ [4096] := by
  rw [requests_refilled hn hb hpage hret hr hempty, List.range_eq_range']
  exact (serving_refilled hb hpage).run_requests hn hb (Nat.zero_add _) hne

/-- What serves all requests from inside the page is near. -/
theorem near_of_served (hn : OfClass n b) (hb : b.val ≤ 8) (hpage : w.pageSz = 4096)
    (hret : w.os w.log.length ≠ sbrkFailed) (hr : w.os w.log.length ≠ null)
    (hempty : w.nextf b = null) (hfit : (w.os w.log.length).toNat + 4096 ≤ 2 ^ 64)
    (h : ServedByPage w b n) : Near (w.os w.log.length) b := by
  obtain ⟨ps, t, hrun, hlog, hinside⟩ := h
  have hrefill := requests_refilled hn hb hpage hret hr hempty
  have hnodes := (serving_refilled hb hpage).node_ne hn hb (Nat.zero_add _)
    (hrefill.symm.trans hrun) (Nat.le_of_eq (congrArg List.length hlog))
  obtain ⟨t', hrun', _⟩ := run_page hn hb hpage hret hr hempty hnodes
  rw [hrun] at hrun'
  cases hrun'
  refine near_of_inside hb fun j hj => ?_
  obtain ⟨hlo, hhi⟩ := hinside _ (List.mem_map_of_mem (List.mem_range.mpr hj))
  exact node_of_inside hb hfit hj rfl hlo (by omega)

/-- A block of a page that is near has room for the request. -/
theorem inside_of_near (hn : OfClass n b) (hb : b.val ≤ 8) (hfit : r.toNat + 4096 < 2 ^ 64)
    {j : Nat} (hj : j < blocks b) {p : UInt64}
    (hp : p = r + UInt64.ofNat (j * 2 ^ (b.val + 3)) + 8) :
    r.toNat ≤ p.toNat ∧ p.toNat + n.toNat ≤ r.toNat + 4096 := by
  have hin := block_le hb (j := j + 1) hj
  have hfits := hn.fits
  have hval : (8 : UInt64).toNat = 8 := rfl
  rw [Nat.succ_mul] at hin
  rw [hp, UInt64.toNat_add, UInt64.toNat_add, UInt64.toNat_ofNat', hval]
  omega

/-- **64-bit addresses in `i32`**: when the list of a class below the page size
is empty, the page that `morecore` gets serves its requests if and only if it
is near; its blocks are then handed out from the first to the last. -/
theorem page_serves_iff (hb : b.val ≤ 8) (hn : OfClass n b) (hpage : w.pageSz = 4096)
    (hempty : w.nextf b = null) (hne : w.os w.log.length ≠ null)
    (hfit : (w.os w.log.length).toNat + 4096 < 2 ^ 64) :
    (ServedByPage w b n ↔ Near (w.os w.log.length) b) ∧
      (Near (w.os w.log.length) b → ∃ t, (requests n (blocks b)).run w
        = .ok ((List.range (blocks b)).map fun j =>
            w.os w.log.length + UInt64.ofNat (j * 2 ^ (b.val + 3)) + 8, t) ∧
        t.log = w.log ++ [4096]) := by
  have hret : w.os w.log.length ≠ sbrkFailed := by
    intro heq
    rw [heq] at hfit
    exact absurd hfit (by decide)
  have hexact : Near (w.os w.log.length) b → ∃ t, (requests n (blocks b)).run w
      = .ok ((List.range (blocks b)).map fun j =>
          w.os w.log.length + UInt64.ofNat (j * 2 ^ (b.val + 3)) + 8, t) ∧
      t.log = w.log ++ [4096] := by
    intro hnear
    obtain ⟨t, hrun, hlog⟩ := run_page hn hb hpage hret hne hempty fun j _ hj =>
      node_ne_of_near hb hne hfit.le hnear hj
    refine ⟨t, ?_, hlog⟩
    rw [hrun, List.map_congr_left fun j hj =>
      congrArg (· + 8) (node_of_near hb hfit.le hnear (List.mem_range.mp hj))]
  refine ⟨⟨near_of_served hn hb hpage hret hne hempty hfit.le, fun hnear => ?_⟩, hexact⟩
  obtain ⟨t, hrun, hlog⟩ := hexact hnear
  refine ⟨_, t, hrun, hlog, fun p hp => ?_⟩
  obtain ⟨j, hj, rfl⟩ := List.mem_map.mp hp
  exact inside_of_near hn hb hfit (List.mem_range.mp hj) rfl

/-- An empty heap whose next page is at `page`. -/
def awaiting (page : UInt64) : World :=
  ⟨fun _ => 0, fun _ => page, [], fun _ => null, 4096, 9⟩

/-- Two blocks of half a page: behind a small program, and where the heap of a
position-independent program starts. -/
theorem page_serves_iff_two :
    ServedByPage (awaiting 0x601000) 8 2040 ∧ ¬ ServedByPage (awaiting 0x555555556000) 8 2040 :=
  ⟨(page_serves_iff (w := awaiting 0x601000) (b := 8) (by decide) ⟨by decide, by decide⟩ rfl rfl
      (by decide) (by decide)).1.mpr (by decide),
    fun h => absurd ((page_serves_iff (w := awaiting 0x555555556000) (b := 8) (by decide)
      ⟨by decide, by decide⟩ rfl rfl (by decide) (by decide)).1.mp h) (by decide)⟩

end Theorem

end Challenges.Kmalloc.Wide

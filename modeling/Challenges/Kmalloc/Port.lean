import Challenges.Kmalloc.Machine

/-!
# Port — `kmalloc.rs`

The Rust allocator, function by function. `RCHECK` and `MSTATS` are set by
no build file, so `RSLOP` is `0` and is left out, and a block's header is
the four bytes of `Overhead`: the pointer `ov_next` while the block is
free, `ovu_magic` and `ovu_index` in its first two bytes while it is in
use. `kmalloc` is cut at its blank lines into the first call, the choice
of a bucket and the unlinking of a block; `realloc` is cut in the same way.
-/

namespace Challenges.Kmalloc

open Challenges.Lib

/-- `MAGIC`, as the byte stored in a header. -/
def magic : UInt8 := 0xef

/-- `PAGE_SIZE`. -/
def pageSize : UInt32 := 4096

/-- `NBUCKETS`. -/
abbrev nbuckets : Nat := 30

instance : NeZero nbuckets := ⟨by decide⟩

/-- `REALLOC_SRCHLEN`. -/
def reallocSrchlen : Int32 := 4

/-- `mem::size_of::<Overhead>()`. -/
abbrev overheadSize : UInt32 := 4

namespace Port

/-- `NEXTF`, `PAGE_SZ` and `PAGE_BUCKET`. -/
structure Statics where
  nextf : Fin nbuckets → UInt32
  pageSz : UInt32
  pageBucket : Int32

/-- The initial values of the static variables. -/
def Statics.initial : Statics := ⟨fun _ => null, 0, -1⟩

/-- Reading `NEXTF[i]`. -/
def nextf (i : UInt32) : M Statics UInt32 := do
  if h : i.toNat < nbuckets then
    return (← get).vars.nextf ⟨i.toNat, h⟩
  else
    throw .indexOutOfBounds

/-- `NEXTF[i] = p`. -/
def setNextf (i p : UInt32) : M Statics Unit :=
  if h : i.toNat < nbuckets then
    modify fun s => { s with
      vars := { s.vars with nextf := Function.update s.vars.nextf ⟨i.toNat, h⟩ p } }
  else
    throw .indexOutOfBounds

variable (bld : Build)

/-! ## `kmalloc` -/

/-- One round of `while PAGE_SZ > amt`, on `amt` and `bucket`. -/
def pageStep (v : UInt32 × Int32) : M Statics ((UInt32 × Int32) ⊕ Int32) := do
  if (← get).vars.pageSz > v.1 then
    return .inl (v.1 <<< 1, ← bld.addI32 v.2 1)
  else
    return .inr v.2

/-- The bucket whose blocks have the page's size. -/
def findPageBucket : M Statics Int32 := loop .diverges (pageStep bld) 33 (8, 0)

/-- `PAGE_BUCKET = bucket`, the last statement of the first call. -/
def setPageBucket : M Statics Bool := do
  let bucket ← findPageBucket bld
  modify fun s => { s with vars := { s.vars with pageBucket := bucket } }
  return true

/-- The block under `if PAGE_SZ == 0`; the answer is whether `kmalloc` goes
on. A failed `sbrk` returns with `PAGE_SZ` set and `PAGE_BUCKET` not. -/
def firstCall : M Statics Bool := do
  modify fun s => { s with vars := { s.vars with pageSz := pageSize } }
  let n := pageSize.toInt32
  let overhead ← sbrk .query 0
  let n ← bld.subI32 (← bld.subI32 n overheadSize.toInt32)
    (overhead.toInt32 &&& (← bld.subI32 n 1))
  let n ← if n < 0 then bld.addI32 n pageSize.toInt32 else pure n
  if n > 0 then
    let interm ← sbrk .align n
    if interm = sbrkFailed then return false else setPageBucket bld
  else
    setPageBucket bld

/-- One round of `while nbytes > (amt as i32 + n) as usize`, on `amt` and
`bucket`. `none` is the `return ptr::null_mut()` for an `amt` shifted out. -/
def growStep (nbytes : UInt32) (n : Int32) (v : UInt32 × Int32) :
    M Statics ((UInt32 × Int32) ⊕ Option Int32) := do
  if nbytes > (← bld.addI32 v.1.toInt32 n).toUInt32 then
    if v.1 <<< 1 = 0 then
      return .inr none
    else
      return .inl (v.1 <<< 1, ← bld.addI32 v.2 1)
  else
    return .inr (some v.2)

/-- The doubling loop. -/
def growClass (nbytes : UInt32) (n : Int32) (amt : UInt32) (bucket : Int32) :
    M Statics (Option Int32) :=
  loop .diverges (growStep bld nbytes n) 33 (amt, bucket)

/-- The bucket for a request: from the smallest class for a request below
the page size, from the page's class for a larger one. -/
def selectBucket (nbytes : UInt32) : M Statics (Option Int32) := do
  let v := (← get).vars
  let n ← bld.subI32 v.pageSz.toInt32 overheadSize.toInt32
  if nbytes ≤ n.toUInt32 then
    growClass bld nbytes (-4) 8 0
  else
    growClass bld nbytes n v.pageSz v.pageBucket

/-- One round of `while nblks > 0`, on `nblks` and `overhead`: link the
block to the one after it. -/
def carveStep (sz : Int32) (v : Int32 × UInt32) :
    M Statics ((Int32 × UInt32) ⊕ Unit) := do
  if v.1 > 0 then
    store32 v.2 (← bld.addI32 v.2.toInt32 sz).toUInt32
    let overhead := (← bld.addI32 v.2.toInt32 sz).toUInt32
    return .inl (← bld.subI32 v.1 1, overhead)
  else
    return .inr ()

def carve (sz nblks : Int32) (overhead : UInt32) : M Statics Unit :=
  loop .diverges (carveStep bld sz) (nblks.toNatClampNeg + 1) (nblks, overhead)

/-- The division `amt / sz` is by a power of two, so it never faults. -/
def morecore (bucket : Int32) : M Statics Unit := do
  let sz ← bld.shlOneI32 (← bld.addI32 bucket 3)
  bld.kassert (sz > 0)
  let pageSz := (← get).vars.pageSz.toInt32
  let (amt, nblks) ←
    if sz < pageSz then pure (pageSz, pageSz / sz)
    else do pure (← bld.addI32 sz pageSz, 1)
  let overhead ← sbrk (.morecore bucket) amt
  if overhead = sbrkFailed then
    return ()
  else
    setNextf bucket.toUInt32 overhead
    carve bld sz (← bld.subI32 nblks 1) overhead

/-- `overhead = NEXTF[bucket]`, after `morecore(bucket)` when it is null. -/
def firstFree (bucket : Int32) : M Statics UInt32 := do
  let overhead ← nextf bucket.toUInt32
  if overhead = null then
    morecore bld bucket
    nextf bucket.toUInt32
  else
    return overhead

/-- Unlink the first block of a bucket, write its header and return the
address after it. -/
def takeBlock (bucket : Int32) : M Statics UInt32 := do
  let overhead ← firstFree bld bucket
  if overhead = null then
    return null
  else
    setNextf bucket.toUInt32 (← load32 overhead)
    store8 overhead magic
    store8 (overhead + 1) bucket.toUInt32.toUInt8
    bld.addU32 overhead overheadSize

/-- `kmalloc` once `PAGE_SZ` is set. -/
def serve (nbytes : UInt32) : M Statics UInt32 := do
  match ← selectBucket bld nbytes with
  | none => return null
  | some bucket => takeBlock bld bucket

def kmalloc (nbytes : UInt32) : M Statics UInt32 := do
  if (← get).vars.pageSz = 0 then
    if ← firstCall bld then serve bld nbytes else return null
  else
    serve bld nbytes

def kcalloc (nelem elsize : UInt32) : M Statics UInt32 := do
  let ptr ← kmalloc bld (← bld.mulU32 nelem elsize)
  memset ptr 0 (← bld.mulU32 nelem elsize)
  return ptr

/-! ## `kfree` and `realloc` -/

def kfree (cp : UInt32) : M Statics Unit := do
  if cp = null then
    return ()
  else
    let overhead ← bld.subU32 cp overheadSize
    bld.kassert ((← load8 overhead) = magic)
    let size := (← load8 (overhead + 1)).toUInt32.toInt32
    bld.kassert (size < 30)
    store32 overhead (← nextf size.toUInt32)
    setNextf size.toUInt32 overhead

/-- One round of the inner `loop` of `findbucket`, on `j`: `p` is not
advanced in it. -/
def searchStep (p freep : UInt32) (srchlen : Int32) (j : Int32) :
    M Statics (Int32 ⊕ Bool) := do
  let inter : UInt32 := if p = null ∨ j = 0 then 0 else 1
  if inter = srchlen.toUInt32 then
    return .inr false
  else if p = freep then
    return .inr true
  else
    return .inl (← bld.addI32 j 1)

/-- Whether the inner loop met `freep` before it broke off. -/
def searchList (fuel : Nat) (p freep : UInt32) (srchlen : Int32) : M Statics Bool :=
  loop .diverges (searchStep bld p freep srchlen) fuel 0

/-- The outer loop of `findbucket`, over the buckets that are left. -/
def searchBuckets (fuel : Nat) (freep : UInt32) (srchlen : Int32) :
    List (Fin nbuckets) → M Statics Int32
  | [] => return -1
  | i :: rest => do
      let p := (← get).vars.nextf i
      if ← searchList bld fuel p freep srchlen then
        return Int32.ofNat i
      else
        searchBuckets fuel freep srchlen rest

/-- `fuel` bounds each run of the inner loop. -/
def findbucket (fuel : Nat) (freep : UInt32) (srchlen : Int32) : M Statics Int32 :=
  searchBuckets bld fuel freep srchlen (List.finRange nbuckets)

/-- `was_alloced` and `i`: whether the block is in use, and its bucket. -/
def oldBucket (fuel : Nat) (overhead : UInt32) : M Statics (Bool × Int32) := do
  if (← load8 overhead) = magic then
    return (true, (← load8 (overhead + 1)).toUInt32.toInt32)
  else
    let i ← findbucket bld fuel overhead 1
    let temp ← findbucket bld fuel overhead reallocSrchlen
    return (false, if i < 0 ∧ temp < 0 then 30 else i)

/-- `onb`: the bytes a caller may use in a block of bucket `i`. -/
def oldSize (i : Int32) : M Statics UInt32 := do
  let onb ← bld.shlOneU32 (← bld.addI32 i 3)
  let pageSz := (← get).vars.pageSz
  if onb < pageSz then
    bld.subU32 onb overheadSize
  else
    bld.addU32 onb (← bld.subU32 pageSz overheadSize)

/-- `i` after line 228: the bytes of a block of the bucket below. -/
def lowerSize (i : Int32) : M Statics Int32 := do
  if i > 0 then
    let i ← bld.shlOneI32 (← bld.addI32 i 2)
    let pageSz := (← get).vars.pageSz.toInt32
    if i < pageSz then
      bld.subI32 i overheadSize.toInt32
    else
      bld.addI32 i (← bld.subI32 pageSz overheadSize.toInt32)
  else
    return i

/-- `realloc` from `res = kmalloc(nbytes)` on: a new block, and the copy. -/
def moveTo (cp nbytes onb : UInt32) : M Statics UInt32 := do
  let res ← kmalloc bld nbytes
  if res = null then
    return null
  else if cp ≠ res then
    memcpy res cp (if nbytes < onb then nbytes else onb)
    return res
  else
    return res

/-- `fuel` is for `findbucket`. -/
def realloc (fuel : Nat) (cp nbytes : UInt32) : M Statics UInt32 := do
  if cp = null then
    kmalloc bld nbytes
  else if nbytes = 0 then
    kfree bld cp
    return null
  else
    let overhead ← bld.subU32 cp overheadSize
    let (wasAlloced, i) ← oldBucket bld fuel overhead
    let onb ← oldSize bld i
    if wasAlloced then
      let lower ← lowerSize bld i
      if nbytes ≤ onb ∧ nbytes > lower.toUInt32 then
        return cp
      else
        kfree bld cp
        moveTo bld cp nbytes onb
    else
      moveTo bld cp nbytes onb

def kmallocUsableSize (cp : UInt32) : M Statics UInt32 := do
  if cp = null then
    return 0
  else
    let overhead ← bld.subU32 cp overheadSize
    bld.kassert ((← load8 overhead) = magic)
    return (← load8 (overhead + 1)).toUInt32

end Port

end Challenges.Kmalloc

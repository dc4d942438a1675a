import Challenges.Kmalloc.Port

/-!
# Original — `original/kmalloc.c`

The C allocator the port was made from, for a 32-bit target without
`DEBUG`, `RCHECK` and `MSTATS`: `int` and `long` are `Int32`, `unsigned`,
`u_long` and `size_t` are `UInt32`, and an expression that mixes the two is
unsigned. `getpagesize()` belongs to the C library and is a parameter.
-/

namespace Challenges.Kmalloc

open Challenges.Lib

namespace Original

/-- `nextf`, `pagesz` and `pagebucket`. -/
structure Statics where
  nextf : Fin nbuckets → UInt32
  pagesz : Int32
  pagebucket : Int32

/-- Static variables without an initialiser are zero. -/
def Statics.initial : Statics := ⟨fun _ => null, 0, 0⟩

/-- Reading `nextf[i]`; an index outside the array is undefined. -/
def nextf (i : Int32) : M Statics UInt32 := do
  if h : i.toUInt32.toNat < nbuckets then
    return (← get).vars.nextf ⟨i.toUInt32.toNat, h⟩
  else
    throw .indexOutOfBounds

/-- `nextf[i] = p`. -/
def setNextf (i : Int32) (p : UInt32) : M Statics Unit :=
  if h : i.toUInt32.toNat < nbuckets then
    modify fun s => { s with
      vars := { s.vars with
        nextf := Function.update s.vars.nextf ⟨i.toUInt32.toNat, h⟩ p } }
  else
    throw .indexOutOfBounds

/-! ## `kmalloc` -/

/-- One round of `while (pagesz > amt)`, an unsigned comparison. -/
def pageStep (v : UInt32 × Int32) : M Statics ((UInt32 × Int32) ⊕ Int32) := do
  if (← get).vars.pagesz.toUInt32 > v.1 then
    return .inl (v.1 <<< 1, v.2 + 1)
  else
    return .inr v.2

def findPageBucket : M Statics Int32 := loop .diverges pageStep 33 (8, 0)

/-- `pagebucket = bucket`, the last statement of the first call. -/
def setPagebucket : M Statics Bool := do
  let bucket ← findPageBucket
  modify fun s => { s with vars := { s.vars with pagebucket := bucket } }
  return true

/-- The block under `if (pagesz == 0)`; the answer is whether `kmalloc`
goes on. -/
def firstCall (getpagesize : Int32) : M Statics Bool := do
  modify fun s => { s with vars := { s.vars with pagesz := getpagesize } }
  let n := getpagesize
  let op ← sbrk .query 0
  let n := (n.toUInt32 - overheadSize - (op &&& (n - 1).toUInt32)).toInt32
  let n := if n < 0 then n + getpagesize else n
  if n ≠ 0 then
    let brk ← sbrk .align n
    if brk = sbrkFailed then return false else setPagebucket
  else
    setPagebucket

/-- One round of `while (nbytes > amt + n)`, in unsigned arithmetic. -/
def growStep (nbytes : UInt32) (n : Int32) (v : UInt32 × Int32) :
    M Statics ((UInt32 × Int32) ⊕ Option Int32) := do
  if nbytes > v.1 + n.toUInt32 then
    if v.1 <<< 1 = 0 then
      return .inr none
    else
      return .inl (v.1 <<< 1, v.2 + 1)
  else
    return .inr (some v.2)

def growClass (nbytes : UInt32) (n : Int32) (amt : UInt32) (bucket : Int32) :
    M Statics (Option Int32) :=
  loop .diverges (growStep nbytes n) 33 (amt, bucket)

def selectBucket (nbytes : UInt32) : M Statics (Option Int32) := do
  let v := (← get).vars
  let n := (v.pagesz.toUInt32 - overheadSize).toInt32
  if nbytes ≤ n.toUInt32 then
    growClass nbytes (-4) 8 0
  else
    growClass nbytes n v.pagesz.toUInt32 v.pagebucket

/-- One round of `while (--nblks > 0)`, on `nblks` and `op`: link the block
to the one after it. -/
def carveStep (sz : Int32) (v : Int32 × UInt32) :
    M Statics ((Int32 × UInt32) ⊕ Unit) := do
  let nblks := v.1 - 1
  if nblks > 0 then
    store32 v.2 (v.2 + sz.toUInt32)
    return .inl (nblks, v.2 + sz.toUInt32)
  else
    return .inr ()

def carve (sz nblks : Int32) (op : UInt32) : M Statics Unit :=
  loop .diverges (carveStep sz) (nblks.toNatClampNeg + 1) (nblks, op)

/-- `morecore` after its check of `sz`. -/
def grow (bucket sz : Int32) : M Statics Unit := do
  let pagesz := (← get).vars.pagesz
  let (amt, nblks) :=
    if sz < pagesz then (pagesz, pagesz / sz) else (sz + pagesz, 1)
  let op ← sbrk (.morecore bucket) amt
  if op = sbrkFailed then
    return ()
  else
    setNextf bucket op
    carve sz nblks op

def morecore (bucket : Int32) : M Statics Unit :=
  let sz := ((1 : UInt32) <<< (bucket + 3).toUInt32).toInt32
  if sz ≤ 0 then
    return ()
  else
    grow bucket sz

/-- `op = nextf[bucket]`, after `morecore(bucket)` when it is null. -/
def firstFree (bucket : Int32) : M Statics UInt32 := do
  let op ← nextf bucket
  if op = null then
    morecore bucket
    nextf bucket
  else
    return op

/-- Unlink the first block of a bucket, write its header and return the
address after it. -/
def takeBlock (bucket : Int32) : M Statics UInt32 := do
  let op ← firstFree bucket
  if op = null then
    return null
  else
    setNextf bucket (← load32 op)
    store8 op magic
    store8 (op + 1) bucket.toUInt32.toUInt8
    return op + overheadSize

/-- `kmalloc` once `pagesz` is set. -/
def serve (nbytes : UInt32) : M Statics UInt32 := do
  match ← selectBucket nbytes with
  | none => return null
  | some bucket => takeBlock bucket

def kmalloc (getpagesize : Int32) (nbytes : UInt32) : M Statics UInt32 := do
  if (← get).vars.pagesz = 0 then
    if ← firstCall getpagesize then serve nbytes else return null
  else
    serve nbytes

/-! ## `kfree` and `krealloc` -/

def kfree (cp : UInt32) : M Statics Unit := do
  if cp = null then
    return ()
  else
    let op := cp - overheadSize
    if (← load8 op) ≠ magic then
      return ()
    else
      let size := (← load8 (op + 1)).toUInt32.toInt32
      store32 op (← nextf size)
      setNextf size op

/-- One round of the inner `for` of `findbucket`, on `p` and `j`. -/
def searchStep (freep : UInt32) (srchlen : Int32) (v : UInt32 × Int32) :
    M Statics ((UInt32 × Int32) ⊕ Bool) := do
  if v.1 ≠ null ∧ v.2 ≠ srchlen then
    if v.1 = freep then
      return .inr true
    else
      return .inl (← load32 v.1, v.2 + 1)
  else
    return .inr false

/-- Whether the inner loop met `freep`. -/
def searchList (fuel : Nat) (p freep : UInt32) (srchlen : Int32) : M Statics Bool :=
  loop .diverges (searchStep freep srchlen) fuel (p, 0)

/-- The outer loop of `findbucket`, over the buckets that are left. -/
def searchBuckets (fuel : Nat) (freep : UInt32) (srchlen : Int32) :
    List (Fin nbuckets) → M Statics Int32
  | [] => return -1
  | i :: rest => do
      let p := (← get).vars.nextf i
      if ← searchList fuel p freep srchlen then
        return Int32.ofNat i
      else
        searchBuckets fuel freep srchlen rest

/-- `fuel` bounds each run of the inner loop. -/
def findbucket (fuel : Nat) (freep : UInt32) (srchlen : Int32) : M Statics Int32 :=
  searchBuckets fuel freep srchlen (List.finRange nbuckets)

/-- `was_alloced` and `i`: whether the block is in use, and its bucket. -/
def oldBucket (fuel : Nat) (op : UInt32) : M Statics (Bool × Int32) := do
  if (← load8 op) = magic then
    return (true, (← load8 (op + 1)).toUInt32.toInt32)
  else
    let i ← findbucket fuel op 1
    if i < 0 then
      let i ← findbucket fuel op reallocSrchlen
      return (false, if i < 0 then 30 else i)
    else
      return (false, i)

/-- `onb`: the bytes a caller may use in a block of bucket `i`. -/
def oldSize (pagesz : Int32) (i : Int32) : UInt32 :=
  let onb := (1 : UInt32) <<< (i + 3).toUInt32
  if onb < pagesz.toUInt32 then onb - overheadSize
  else onb + (pagesz.toUInt32 - overheadSize)

/-- `i` after its adjustment: the bytes of a block of the bucket below. -/
def lowerSize (pagesz : Int32) (i : Int32) : Int32 :=
  if i ≠ 0 then
    let i := ((1 : UInt32) <<< (i + 2).toUInt32).toInt32
    if i < pagesz then (i.toUInt32 - overheadSize).toInt32
    else (i.toUInt32 + (pagesz.toUInt32 - overheadSize)).toInt32
  else
    i

/-- `krealloc` from the call of `kmalloc` on: a new block, and the copy. -/
def moveTo (getpagesize : Int32) (cp nbytes onb : UInt32) : M Statics UInt32 := do
  let res ← kmalloc getpagesize nbytes
  if res = null then
    return null
  else if cp ≠ res then
    memcpy res cp (if nbytes < onb then nbytes else onb)
    return res
  else
    return res

/-- `fuel` is for `findbucket`. -/
def krealloc (getpagesize : Int32) (fuel : Nat) (cp nbytes : UInt32) :
    M Statics UInt32 := do
  if cp = null then
    kmalloc getpagesize nbytes
  else if nbytes = 0 then
    kfree cp
    return null
  else
    let (wasAlloced, i) ← oldBucket fuel (cp - overheadSize)
    let pagesz := (← get).vars.pagesz
    let onb := oldSize pagesz i
    if wasAlloced then
      if nbytes ≤ onb ∧ nbytes > (lowerSize pagesz i).toUInt32 then
        return cp
      else
        kfree cp
        moveTo getpagesize cp nbytes onb
    else
      moveTo getpagesize cp nbytes onb

end Original

end Challenges.Kmalloc

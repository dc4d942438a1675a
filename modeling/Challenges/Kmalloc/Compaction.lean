import Challenges.Kmalloc.Alignment
import Challenges.Kmalloc.Contents
import Challenges.Kmalloc.Findbucket

/-!
# Compaction — `realloc` of a block that was freed

`realloc` takes a header without `MAGIC` for that of a free block and looks
for the block on the free lists, at the heads first and then four blocks
deep, to learn its size. The port makes both searches and keeps the result
of the first. The search is a parameter here, and assumed to be right: what
is lost is lost in `realloc` itself. Where a region starts at an odd address,
the link of a free block can look like `MAGIC`; the block is then taken to be
in use, and its link for its index.
-/

namespace Challenges.Kmalloc

open Challenges.Lib Challenges.Kmalloc.Port

/-! ## `realloc` over a search -/

namespace Port

variable (bld : Build) (find : UInt32 → Int32 → M Statics Int32)

/-- `oldBucket`, with `find` for `findbucket`. -/
def oldBucketWith (overhead : UInt32) : M Statics (Bool × Int32) := do
  if (← load8 overhead) = magic then
    return (true, (← load8 (overhead + 1)).toUInt32.toInt32)
  else
    let i ← find overhead 1
    let temp ← find overhead reallocSrchlen
    return (false, if i < 0 ∧ temp < 0 then 30 else i)

/-- `realloc`, with `find` for `findbucket`. -/
def reallocWith (cp nbytes : UInt32) : M Statics UInt32 := do
  if cp = null then
    kmalloc bld nbytes
  else if nbytes = 0 then
    kfree bld cp
    return null
  else
    let overhead ← bld.subU32 cp overheadSize
    let (wasAlloced, i) ← oldBucketWith find overhead
    let onb ← oldSize bld i
    if wasAlloced then
      let lower ← lowerSize bld i
      if nbytes ≤ onb ∧ nbytes > lower.toUInt32 then
        return cp
      else
        kfree bld cp
        moveTo bld cp nbytes onb
    else
      moveTo bld cp nbytes onb

theorem realloc_eq (fuel : Nat) : realloc bld fuel = reallocWith bld (findbucket bld fuel) := rfl

end Port

/-- `find` is a search of the free lists that meets its specification. -/
def Searches (find : UInt32 → Int32 → M Statics Int32) (s : Machine Statics) : Prop :=
  ∀ lists : Fin nbuckets → List UInt32,
    (∀ b, Chain s.mem.load32 null (s.vars.nextf b) (lists b)) →
    ∀ freep srchlen, -1 ≤ srchlen →
      (find freep srchlen).run s = .ok (bucketOf lists freep srchlen, s)

/-- Such a search: walk the lists and look. -/
def search (freep : UInt32) (srchlen : Int32) : M Statics Int32 := do
  let s ← get
  return bucketOf (fun b => walk s.mem.load32 null (2 ^ 32) (s.vars.nextf b)) freep srchlen

theorem search_searches (s : Machine Statics) : Searches search s := by
  intro lists hlists freep srchlen _
  have hwalk (b : Fin nbuckets) :
      walk s.mem.load32 null (2 ^ 32) (s.vars.nextf b) = lists b :=
    (hlists b).walk_eq ((hlists b).length_lt (fun _ _ => UInt32.toNat_inj.mp) UInt32.toNat_lt)
  simp only [search, StateT.run_bind, StateT.run_get, pure_eq_ok, ok_bind, hwalk]
  rfl

/-! ## What the two searches find -/

section Search

variable {s t : Machine Statics} {live : List Handle} {S : Stock Block.bucket}
  {x : Block} {n r : UInt32} {k : Nat} {find : UInt32 → Int32 → M Statics Int32}

/-- A block is among the first `m` of a list exactly when its place is. -/
theorem Owns.mem_take (h : Owns s live S) (hk : (S.parked x.bucket)[k]? = some x)
    (b : Fin nbuckets) (m : Nat) :
    x.addr ∈ ((S.parked b).map Block.addr).take m ↔ b = x.bucket ∧ k < m := by
  have hx := Stock.has_of_parked (List.mem_of_getElem? hk)
  rw [← List.map_take, List.mem_map]
  constructor
  · rintro ⟨y, hy, haddr⟩
    have hparked := List.mem_of_mem_take hy
    have hptr : y.ptr = x.ptr := by rw [Block.ptr, haddr, Block.ptr]
    have heq := h.ptr_inj (Stock.has_of_parked hparked) hx hptr
    subst heq
    have hb := S.parked_cls b y hparked
    subst hb
    obtain ⟨j, hj⟩ := List.getElem?_of_mem hy
    rw [List.getElem?_take] at hj
    split at hj
    · rename_i hlt
      have hkl := (List.getElem?_eq_some_iff.mp hk).1
      rw [(List.getElem?_inj hkl (S.parked_nodup _)).mp (hk.trans hj.symm)]
      exact ⟨rfl, hlt⟩
    · cases hj
  · rintro ⟨rfl, hlt⟩
    refine ⟨x, List.mem_of_getElem? (i := k) ?_, rfl⟩
    rw [List.getElem?_take, if_pos hlt, hk]

/-- The search of depth `d` finds a block at a place below `d`. -/
theorem Owns.bucketOf_free (h : Owns s live S) (hk : (S.parked x.bucket)[k]? = some x)
    {d : Int32} (hd : d ≠ -1) :
    bucketOf (fun b => (S.parked b).map Block.addr) x.addr d
      = if k < d.toNatClampNeg then Int32.ofNat x.bucket else -1 := by
  have hmem (b : Fin nbuckets) : x.addr ∈ searched d ((S.parked b).map Block.addr) ↔
      b = x.bucket ∧ k < d.toNatClampNeg := by
    rw [searched, if_neg hd, h.mem_take hk]
  split
  · rename_i hlt
    refine bucketOf_found ((hmem x.bucket).mpr ⟨rfl, hlt⟩) fun j hj hj' => ?_
    exact absurd ((hmem j).mp hj').1 (Fin.ne_of_lt hj)
  · rename_i hge
    exact bucketOf_none fun j hj => hge ((hmem j).mp hj).2

/-- **The second result is dropped**: only the head of a list keeps its bucket. -/
theorem Owns.run_oldBucketWith (h : Owns s live S) (hk : (S.parked x.bucket)[k]? = some x)
    (hdeep : k < 4) (hfree : s.mem x.addr ≠ magic) (hfind : Searches find s) :
    (oldBucketWith find x.addr).run s
      = .ok ((false, if k = 0 then Int32.ofNat x.bucket else -1), s) := by
  have hlists : ∀ b, Chain s.mem.load32 null (s.vars.nextf b) ((S.parked b).map Block.addr) :=
    h.chain
  have hone : (find x.addr 1).run s
      = .ok (if k = 0 then Int32.ofNat x.bucket else -1, s) := by
    rw [hfind _ hlists x.addr 1 (by decide), h.bucketOf_free hk (by decide)]
    have hclamp : Int32.toNatClampNeg 1 = 1 := rfl
    simp only [hclamp, Nat.lt_one_iff]
  have hfour : (find x.addr reallocSrchlen).run s = .ok (Int32.ofNat x.bucket, s) := by
    have hclamp : reallocSrchlen.toNatClampNeg = 4 := rfl
    rw [hfind _ hlists x.addr reallocSrchlen (by decide), h.bucketOf_free hk (by decide),
      hclamp, if_pos hdeep]
  have hpos : ¬ Int32.ofNat x.bucket < 0 := by
    have hall : ∀ b : Fin nbuckets, ¬ Int32.ofNat b.val < 0 := by decide
    exact hall x.bucket
  simp only [oldBucketWith, StateT.run_bind, run_load8, ok_bind, hfree, if_false, hone, hfour,
    hpos, and_false]
  rfl

end Search

/-! ## What the new block holds -/

/-- The byte at offset `i` of the block that bucket `b` hands out next: the
first of its list, or one of memory that `sbrk` has zeroed. -/
def nextByte (s : Machine Statics) (b : Fin nbuckets) (i : Nat) : UInt8 :=
  if s.vars.nextf b = null then 0
  else s.mem (s.vars.nextf b + overheadSize + UInt32.ofNat i)

section Bytes

variable {s t u : Machine Statics} {live : List Handle} {S : Stock Block.bucket}
  {x : Block} {b : Fin nbuckets} {n r : UInt32} {i : Nat}

/-- The first block of a fresh region is zero but for its header. -/
theorem afterMorecore_zero (hb : b.val < 28) (hret : s.os s.log.length ≠ sbrkFailed)
    (hfit : (s.os s.log.length).toNat + grant b ≤ 2 ^ 32) (hi : i < cap b) :
    (afterMorecore s b).mem (s.os s.log.length + overheadSize + UInt32.ofNat i) = 0 := by
  have hb' : b.val < 29 := by omega
  have hsz := toNat_room hb'
  have hcap := room_eq hb
  have hle := room_le_grant hb'
  have hamt := toNat_grant hb'
  have hptr : (s.os s.log.length + overheadSize).toNat = (s.os s.log.length).toNat + 4 :=
    Mem.toNat_add_ofNat (k := 4) (by omega)
  have haddr : (s.os s.log.length + overheadSize + UInt32.ofNat i).toNat
      = (s.os s.log.length).toNat + 4 + i := by
    rw [Mem.toNat_add_ofNat (by omega), hptr]
  have hlink := link_first (four_le_room hb') (carve_fits hb' hfit)
    (m := s.mem.fill (s.os s.log.length) 0 (Int32.ofNat (grant b)).toUInt32)
  rw [mem_afterMorecore hb' hret, hlink _ (by omega) (by rw [hsz]; omega)]
  exact Mem.fill_inside (by omega) (by omega) (by omega)

/-- Its header is written below those bytes. -/
theorem unlinked_zero (hb : b.val < 28) (hret : s.os s.log.length ≠ sbrkFailed)
    (hfit : (s.os s.log.length).toNat + grant b ≤ 2 ^ 32)
    (hhead : (afterMorecore s b).vars.nextf b = s.os s.log.length) (hi : i < cap b) :
    (unlinked (afterMorecore s b) b).mem (s.os s.log.length + overheadSize + UInt32.ofNat i)
      = 0 := by
  have hzero := afterMorecore_zero hb hret hfit hi
  have hcap := room_eq hb
  have hle := room_le_grant (show b.val < 29 by omega)
  generalize s.os s.log.length = ret at *
  have hptr : (ret + overheadSize).toNat = ret.toNat + 4 :=
    Mem.toNat_add_ofNat (k := 4) (by omega)
  have haddr : (ret + overheadSize + UInt32.ofNat i).toNat = ret.toNat + 4 + i := by
    rw [Mem.toNat_add_ofNat (by omega), hptr]
  rw [unlinked_same hhead (by omega) _ (by omega)]
  exact hzero

/-- `kmalloc` of a request of a class. -/
theorem run_kmalloc_class {b : Fin nbuckets} (hpage : s.vars.pageSz = 4096)
    (hready : s.vars.pageBucket = 9) (hclass : sizeClass n.toNat = some b.val) :
    (kmalloc release n).run s = .ok (taken s b) := by
  rw [run_kmalloc hpage]
  rcases run_serve n hpage hready with ⟨hnone, _⟩ | ⟨c, _, hc, hserve⟩
  · rw [hclass] at hnone
    cases hnone
  · rw [hclass] at hc
    rw [hserve, ← Fin.ext (Option.some.inj hc)]

/-- **What `kmalloc` hands out**: the bytes the block had. -/
theorem Repr.kmalloc_byte (h : Repr ⟨s, live⟩ S) (hpage : s.vars.pageSz = 4096)
    (hready : s.vars.pageBucket = 9) (hclass : sizeClass n.toNat = some b.val)
    (hb : b.val < 28) (hrun : (Port.kmalloc release n).run s = .ok (r, u))
    (hfresh : Fresh u.log) (hr : r ≠ null) (hi : i < cap b) :
    u.mem (r + UInt32.ofNat i) = nextByte s b i := by
  have hb' : b.val < 29 := by omega
  have htaken : (r, u) = taken s b := by
    rw [run_kmalloc_class hpage hready hclass] at hrun
    exact (Except.ok.inj hrun).symm
  have hfresh' : Fresh (taken s b).2.log := htaken ▸ hfresh
  cases h.owns.taking hb' hfresh' with
  | @hit y rest hp hne hhit =>
      have hy : y ∈ S.parked b := hp ▸ List.mem_cons_self
      have hyhas := Stock.has_of_parked hy
      rw [hhit] at htaken
      obtain ⟨rfl, rfl⟩ := Prod.ext_iff.mp htaken
      have husable : y.usable = cap b := by
        have hcls := S.parked_cls b y hy
        rw [← hcls]
        exact usable_eq h.owns hyhas (by rw [hcls]; exact hb)
      -- a block from the list: its payload was not written to
      have hpayload := (h.owns.unlinked_frame hp hyhas).1
      have hsize := h.owns.size_ge hyhas
      rw [nextByte, if_neg hne, h.owns.nextf_eq hp]
      refine hpayload.byte rfl (by rwa [husable]) ?_
      have hin := h.owns.inside hyhas
      rw [h.owns.ptr_toNat hyhas, Block.usable]
      omega
  | refuse _ _ _ _ hrefuse =>
      rw [hrefuse] at htaken
      exact absurd (Prod.ext_iff.mp htaken).1 hr
  | @refill y rest hp hnextf hret hlog _ hcls hnd hnew howns hrefill =>
      -- the first block of a new region, of which only the header was written to
      obtain ⟨_, hfit, _⟩ := h.owns.carved_region hb' hret hlog
      have hhead : (afterMorecore s b).vars.nextf b = s.os s.log.length := by
        rw [nextf_afterMorecore hret, Function.update_self]
      have hy := howns.nextf_eq (Stock.fill_parked hcls hnd hnew)
      rw [hrefill] at htaken
      obtain ⟨rfl, rfl⟩ := Prod.ext_iff.mp htaken
      rw [nextByte, if_pos hnextf, Block.ptr, ← hy, hhead]
      exact unlinked_zero hb hret hfit hhead hi

end Bytes

/-! ## What `realloc` does with the block -/

/-- The size that `realloc` takes for the old block. -/
def foundSize (k : Nat) (x : Block) : UInt32 := if k = 0 then UInt32.ofNat (cap x.bucket) else 0

/-- `onb`, the size that goes with an index. -/
def sizeAt (i : Int32) : UInt32 :=
  let onb := (1 : UInt32) <<< (i + 3).toUInt32
  if onb < 4096 then onb - overheadSize else onb + (4096 - overheadSize)

/-- The size that goes with the index below. -/
def lowerAt (i : Int32) : Int32 :=
  if i > 0 then
    let sz := ((1 : UInt32) <<< (i + 2).toUInt32).toInt32
    if sz < 4096 then sz - overheadSize.toInt32 else sz + (4096 - overheadSize.toInt32)
  else i

/-- The index that is read from a link that looks like `MAGIC`. -/
def linkIndex (s : Machine Statics) (x : Block) : Nat := (s.mem (x.addr + 1)).toNat

/-- With that index, the block has the size that is asked for. -/
def Window (s : Machine Statics) (x : Block) (n : UInt32) : Prop :=
  n ≤ sizeAt (Int32.ofNat (linkIndex s x)) ∧ n > (lowerAt (Int32.ofNat (linkIndex s x))).toUInt32

instance (s : Machine Statics) (x : Block) (n : UInt32) : Decidable (Window s x n) :=
  inferInstanceAs (Decidable (_ ∧ _))

section Calls

variable {s t u v : Machine Statics} {live : List Handle} {S : Stock Block.bucket}
  {x : Block} {n r z : UInt32} {k i : Nat} {find : UInt32 → Int32 → M Statics Int32}

theorem run_oldSize_at (hpage : s.vars.pageSz = 4096) (i : Int32) :
    (oldSize release i).run s = .ok (sizeAt i, s) := by
  simp only [oldSize, release_addI32, release_shlOneU32, release_subU32, release_addU32,
    StateT.run_bind, StateT.run_get, pure_bind, pure_eq_ok, ok_bind, hpage, sizeAt]
  split <;> rfl

theorem run_oldSize_lost (hpage : s.vars.pageSz = 4096) :
    (oldSize release (-1)).run s = .ok (0, s) := run_oldSize_at hpage (-1)

theorem run_lowerSize_at (hpage : s.vars.pageSz = 4096) (i : Int32) :
    (lowerSize release i).run s = .ok (lowerAt i, s) := by
  have h4096 : (4096 : UInt32).toInt32 = 4096 := rfl
  rw [lowerSize, lowerAt]
  split
  · simp only [release_addI32, release_shlOneI32, release_subI32, StateT.run_bind,
      StateT.run_get, pure_bind, pure_eq_ok, ok_bind, hpage, h4096]
    split <;> rfl
  · rfl

/-- The header of a block in use, or of a free block that looks like one. -/
theorem run_oldBucketWith_used {p : UInt32} {j : Nat} (hmagic : s.mem p = magic)
    (hindex : (s.mem (p + 1)).toNat = j) :
    (oldBucketWith find p).run s = .ok ((true, Int32.ofNat j), s) := by
  have hword : (s.mem (p + 1)).toUInt32 = UInt32.ofNat j := by
    apply UInt32.toNat_inj.mp
    have hlt := (s.mem (p + 1)).toNat_lt
    rw [UInt8.toNat_toUInt32, hindex, UInt32.toNat_ofNat']
    omega
  simp only [oldBucketWith, StateT.run_bind, run_load8, ok_bind, hmagic, if_true, hword]
  rfl

/-- `realloc` of a free block goes on with the size that it has found. -/
theorem Owns.run_reallocWith (h : Owns s live S) (hk : (S.parked x.bucket)[k]? = some x)
    (hdeep : k < 4) (hfree : s.mem x.addr ≠ magic) (hfind : Searches find s)
    (hpage : s.vars.pageSz = 4096) (hn : n ≠ 0) :
    (reallocWith release find x.ptr n).run s
      = (moveTo release x.ptr n (foundSize k x)).run s := by
  have hhas := Stock.has_of_parked (List.mem_of_getElem? hk)
  have hptr := h.ptr_ne_null hhas
  have hb := (h.size x ((h.has x).mp hhas)).1
  have hsize : (oldSize release (if k = 0 then Int32.ofNat x.bucket else -1)).run s
      = .ok (foundSize k x, s) := by
    rw [foundSize]
    split
    · exact run_oldSize hb hpage
    · exact run_oldSize_lost hpage
  simp only [reallocWith, hptr, hn, if_false, release_subU32, StateT.run_bind, pure_bind,
    Owns.ptr_sub, h.run_oldBucketWith hk hdeep hfree hfind, ok_bind, hsize]
  rfl

/-- A link that looks like `MAGIC` is taken for the header of a block in use:
the block is kept, or freed once more. -/
theorem run_reallocWith_used (hptr : x.ptr ≠ null) (hmagic : s.mem x.addr = magic)
    (hpage : s.vars.pageSz = 4096) (hn : n ≠ 0) :
    (reallocWith release find x.ptr n).run s
      = (if Window s x n then pure x.ptr
        else kfree release x.ptr >>= fun _ =>
          moveTo release x.ptr n (sizeAt (Int32.ofNat (linkIndex s x)))).run s := by
  have hold : (oldBucketWith find x.addr).run s = .ok ((true, Int32.ofNat (linkIndex s x)), s) :=
    run_oldBucketWith_used hmagic rfl
  simp only [reallocWith, hptr, hn, if_false, release_subU32, StateT.run_bind, pure_bind,
    Owns.ptr_sub, hold, ok_bind, run_oldSize_at hpage, if_true,
    run_lowerSize_at hpage]
  rfl

/-- `kmalloc` returns null exactly when `sbrk` refuses the class. -/
theorem Repr.kmalloc_null_iff {b : Fin nbuckets} (h : Repr ⟨s, live⟩ S)
    (hpage : s.vars.pageSz = 4096) (hready : s.vars.pageBucket = 9)
    (hclass : sizeClass n.toNat = some b.val)
    (hmalloc : (Port.kmalloc release n).run s = .ok (r, u)) (hfresh : Fresh u.log) :
    r = null ↔ Refused s b := by
  obtain ⟨S', hrepr, hobtains⟩ := h.kmalloc hmalloc hfresh
  rw [started_eq hpage] at hobtains
  exact hobtains.null_iff hrepr.owns hready hclass

/-! ## The bytes of the result -/

/-- The first bytes of `x`, as many as fit in a block of `n`, are at `r`. -/
def Preserved (s t : Machine Statics) (x : Block) (n r : UInt32) : Prop :=
  ∀ i < min n.toNat x.usable, t.mem (r + UInt32.ofNat i) = s.mem (x.ptr + UInt32.ofNat i)

/-- The request is refused, or the block that serves it already has, from the
byte `lo` on, the bytes of `x` that it should get. -/
def Coincides (s : Machine Statics) (x : Block) (n : UInt32) (lo : Nat) : Prop :=
  ∀ b : Fin nbuckets, sizeClass n.toNat = some b.val → Refused s b ∨
    ∀ i < min n.toNat x.usable, lo ≤ i → nextByte s b i = s.mem (x.ptr + UInt32.ofNat i)

/-- A byte of the result: copied, or what the block had. -/
theorem moved_byte (hold : u.mem (x.ptr + UInt32.ofNat i) = s.mem (x.ptr + UInt32.ofNat i))
    (ht : t = if r = null ∨ x.ptr = r then u else copied u r x.ptr n z) (hr : r ≠ null)
    (hi : i < n.toNat) : t.mem (r + UInt32.ofNat i)
      = if x.ptr = r ∨ i < z.toNat then s.mem (x.ptr + UInt32.ofNat i)
        else u.mem (r + UInt32.ofNat i) := by
  by_cases hsame : x.ptr = r
  · rw [ht, if_pos (.inr hsame), if_pos (.inl hsame), ← hsame, hold]
  · have hlen := toNat_copied n z
    have hword := n.toNat_lt
    rw [ht, if_neg (not_or.mpr ⟨hr, hsame⟩), copied]
    by_cases hz : i < z.toNat
    · rw [if_pos (show x.ptr = r ∨ i < z.toNat from .inr hz), ← hold]
      exact Mem.copy_inside (by omega)
    · rw [if_neg (show ¬ (x.ptr = r ∨ i < z.toNat) from not_or.mpr ⟨hsame, hz⟩)]
      exact Mem.copy_beyond (by omega) (by omega)

/-- `kmalloc` leaves the payload of the block as it was. -/
theorem Repr.kmalloc_payload (h : Repr ⟨s, live⟩ S) (hx : S.Has x)
    (hmalloc : (Port.kmalloc release n).run s = .ok (r, v)) (hfresh : Fresh v.log)
    (hi : i < x.usable) : v.mem (x.ptr + UInt32.ofNat i) = s.mem (x.ptr + UInt32.ofNat i) := by
  have hin := h.owns.inside hx
  have hsize := h.owns.size_ge hx
  apply (h.kmalloc_frame hmalloc hfresh hx).1.byte rfl hi
  rw [h.owns.ptr_toNat hx, Block.usable]
  omega

/-- At the head of its list a block keeps its size, and the bytes are copied. -/
theorem Repr.preserved_head (h : Repr ⟨s, live⟩ S) (hx : S.Has x) (hbelow : x.bucket.val < 28)
    (hmalloc : (Port.kmalloc release n).run s = .ok (r, u)) (hfresh : Fresh u.log)
    (ht : t = if r = null ∨ x.ptr = r then u else copied u r x.ptr n (foundSize 0 x))
    (hr : r ≠ null) : Preserved s t x n r := by
  intro i hi
  have husable := usable_eq h.owns hx hbelow
  have hsize : (foundSize 0 x).toNat = x.usable := by
    rw [foundSize, if_pos rfl, toNat_cap hbelow, husable]
  rw [moved_byte (h.kmalloc_payload hx hmalloc hfresh (by omega)) ht hr (by omega)]
  exact if_pos (.inr (by omega))

/-- A byte of the block that was obtained, when the memory differs in the header
of `x` only. -/
theorem Repr.obtained_byte {b : Fin nbuckets} (h : Repr ⟨s, live⟩ S) (hx : S.Has x)
    (hpage : s.vars.pageSz = 4096) (hready : s.vars.pageBucket = 9)
    (hclass : sizeClass n.toNat = some b.val) (hb : b.val < 28)
    (hmalloc : (Port.kmalloc release n).run s = .ok (r, v)) (hfresh : Fresh v.log)
    (hsame : Mem.SameOutside v.mem u.mem x.addr.toNat 4) (hr : r ≠ null) (hi : i < n.toNat) :
    u.mem (r + UInt32.ofNat i) = nextByte s b i := by
  have hfit := (sizeClass_eq_some.mp hclass).1
  have hmax : n.toNat ≤ maxReq := by
    rw [← cap_top]
    exact Nat.le_trans hfit (cap_mono (by omega))
  rw [← h.kmalloc_byte hpage hready hclass hb hmalloc hfresh hr (by omega)]
  obtain ⟨S', hrepr, hobtains⟩ := h.kmalloc hmalloc hfresh
  rw [started_eq hpage] at hobtains
  obtain ⟨y, hy, rfl, hroom, _⟩ := hobtains.fits hready (.inl hmax) hrepr.owns hr
  have hin := hrepr.owns.inside (.inl hy)
  have hptr := hrepr.owns.ptr_toNat (.inl hy)
  have haddr : (y.ptr + UInt32.ofNat i).toNat = y.ptr.toNat + i :=
    Mem.toNat_add_ofNat (by omega)
  -- the header of `x` is none of its bytes, also when the block is `x`
  refine hsame _ ?_
  by_cases hxy : x = y
  · subst hxy
    omega
  · have hapart := hrepr.owns.apart (hobtains.move.1.has_mono hx) (.inl hy) hxy
    have hsize := h.owns.size_ge hx
    rw [Block.Apart] at hapart
    omega

/-- **Where the bytes survive** a `moveTo` that copies `z` bytes, when the
memory after its `kmalloc` is, but for the header of the block, the one that
`kmalloc` leaves in a heap that is in order. -/
theorem Repr.preserved_iff {b : Fin nbuckets} (h : Repr ⟨s, live⟩ S) (hx : S.Has x)
    (hpage : s.vars.pageSz = 4096) (hready : s.vars.pageBucket = 9)
    (hclass : sizeClass n.toNat = some b.val) (hb : b.val < 28)
    (hmalloc : (Port.kmalloc release n).run s = .ok (r, v)) (hfresh : Fresh v.log)
    (hsame : Mem.SameOutside v.mem u.mem x.addr.toNat 4)
    (ht : t = if r = null ∨ x.ptr = r then u else copied u r x.ptr n z) :
    (r ≠ null → Preserved s t x n r) ↔ Coincides s x n z.toNat := by
  have hnull := h.kmalloc_null_iff hpage hready hclass hmalloc hfresh
  by_cases hr : r = null
  · -- the request is refused
    refine iff_of_true (fun hne => absurd hr hne) fun c hc => .inl ?_
    rw [hclass] at hc
    rw [← Fin.ext (Option.some.inj hc)]
    exact hnull.mp hr
  · have hin := h.owns.inside hx
    have hptr := h.owns.ptr_toNat hx
    have hold (i : Nat) (hi : i < x.usable) :
        u.mem (x.ptr + UInt32.ofNat i) = s.mem (x.ptr + UInt32.ofNat i) := by
      rw [← h.kmalloc_payload hx hmalloc hfresh hi]
      rw [Block.usable] at hi
      have haddr : (x.ptr + UInt32.ofNat i).toNat = x.ptr.toNat + i :=
        Mem.toNat_add_ofNat (by omega)
      exact hsame _ (by omega)
    have hnew (i : Nat) (hi : i < n.toNat) : u.mem (r + UInt32.ofNat i) = nextByte s b i :=
      h.obtained_byte hx hpage hready hclass hb hmalloc hfresh hsame hr hi
    constructor
    · intro hpreserved c hc
      rw [hclass] at hc
      rw [← Fin.ext (Option.some.inj hc)]
      refine .inr fun i hi hlo => ?_
      have hbyte := hpreserved hr i hi
      rw [moved_byte (hold i (by omega)) ht hr (by omega)] at hbyte
      by_cases hback : x.ptr = r
      · rw [← hnew i (by omega), ← hback, hold i (by omega)]
      · rw [if_neg (not_or.mpr ⟨hback, by omega⟩), hnew i (by omega)] at hbyte
        exact hbyte
    · intro hluck _ i hi
      have hcoincides := (hluck b hclass).resolve_left (fun hrefused => hr (hnull.mpr hrefused)) i hi
      rw [moved_byte (hold i (by omega)) ht hr (by omega)]
      split
      · rfl
      · rename_i hbeyond
        rw [hnew i (by omega)]
        exact hcoincides (Nat.not_lt.mp (not_or.mp hbeyond).2)

end Calls

/-! ## The theorem -/

/-- The link looks like `MAGIC`, and `kfree` reads an index from it that is none. -/
def Faults (s : Machine Statics) (x : Block) (n : UInt32) : Prop :=
  s.mem x.addr = magic ∧ ¬ Window s x n ∧ nbuckets ≤ linkIndex s x

/-- Where the bytes of a free block survive, the block being in place `k` of its list. A
block whose link looks like `MAGIC` is taken to be in use: it is kept, or comes
back from the list it is put on, or what is copied, together with what is there
already, is enough. -/
def Survives (s : Machine Statics) (x : Block) (k : Nat) (n : UInt32) : Prop :=
  if s.mem x.addr = magic then
    Window s x n ∨ sizeClass n.toNat = some (linkIndex s x) ∨
      Coincides s x n (sizeAt (Int32.ofNat (linkIndex s x))).toNat
  else k = 0 ∨ Coincides s x n 0

section Compaction

variable {s : Machine Statics} {live : List Handle} {S : Stock Block.bucket} {x : Block}
  {n : UInt32} {k : Nat} {b : Fin nbuckets} {find : UInt32 → Int32 → M Statics Int32}

/-- A free block that is found on its list. -/
theorem Repr.compaction_free (h : Repr ⟨s, live⟩ S)
    (hk : (S.parked x.bucket)[k]? = some x) (hdeep : k < 4) (hbelow : x.bucket.val < 28)
    (hpage : s.vars.pageSz = 4096) (hready : s.vars.pageBucket = 9)
    (hfree : s.mem x.addr ≠ magic) (hfind : Searches find s) (hn : n ≠ 0)
    (hclass : sizeClass n.toNat = some b.val) (hb : b.val < 28) :
    ∃ r t, (reallocWith release find x.ptr n).run s = .ok (r, t) ∧
      (Fresh t.log → ((r ≠ null → Preserved s t x n r) ↔ k = 0 ∨ Coincides s x n 0)) := by
  have hhas := Stock.has_of_parked (List.mem_of_getElem? hk)
  have hmalloc := run_kmalloc_class hpage hready hclass
  refine ⟨_, _, (h.owns.run_reallocWith hk hdeep hfree hfind hpage hn).trans
    (run_moveTo hmalloc), fun hfresh => ?_⟩
  have hfresh' : Fresh (taken s b).2.log := by
    split at hfresh <;> exact hfresh
  rw [h.preserved_iff hhas hpage hready hclass hb hmalloc hfresh' (.refl _ _ _) rfl, foundSize]
  split
  · -- at the head of the list all bytes are copied
    rename_i hzero
    have husable := usable_eq h.owns hhas hbelow
    refine iff_of_true (fun c _ => .inr fun i hi hlo => ?_) (.inl hzero)
    rw [toNat_cap hbelow] at hlo
    omega
  · rename_i hpos
    rw [or_iff_right hpos]
    rfl

/-- The block that was put on a list is the first to be taken from it, with its
bytes. -/
theorem Repr.taken_pushed {r : UInt32} {u : Machine Statics} (h : Repr ⟨s, live⟩ S)
    (hx : S.Has x) (htaken : taken (pushed s b x.addr) b = (r, u)) :
    r = x.ptr ∧ Preserved s u x n r := by
  have hin := h.owns.inside hx
  have hsize := h.owns.size_ge hx
  have hhead : (pushed s b x.addr).vars.nextf b = x.addr := by
    simp [pushed]
  have hne : (pushed s b x.addr).vars.nextf b ≠ null := by
    rw [hhead]
    intro hnull
    rw [hnull] at hin
    exact absurd hin.1 (by decide)
  rw [taken_of_ne (if_neg hne) hne, hhead] at htaken
  obtain ⟨rfl, rfl⟩ := Prod.ext_iff.mp htaken
  refine ⟨rfl, fun i hi => ?_⟩
  have hptr := h.owns.ptr_toNat hx
  rw [Block.usable] at hi
  have haddr : (x.ptr + UInt32.ofNat i).toNat = x.ptr.toNat + i :=
    Mem.toNat_add_ofNat (by omega)
  have hout : x.addr.toNat + 4 ≤ (x.ptr + UInt32.ofNat i).toNat := by omega
  have hword := Mem.store32_same s.mem (a := x.addr) (s.vars.nextf b) (by omega)
  exact (unlinked_same hhead (by omega) _ (.inr hout)).trans (hword _ (.inr hout))

/-- A free block that is taken to be in use. -/
theorem Repr.compaction_used (h : Repr ⟨s, live⟩ S) (hx : S.Has x)
    (hpage : s.vars.pageSz = 4096) (hready : s.vars.pageBucket = 9)
    (hmagic : s.mem x.addr = magic) (hn : n ≠ 0)
    (hclass : sizeClass n.toNat = some b.val) (hb : b.val < 28)
    (hindex : Window s x n ∨ linkIndex s x < nbuckets) :
    ∃ r t, (reallocWith release find x.ptr n).run s = .ok (r, t) ∧
      (Fresh t.log → ((r ≠ null → Preserved s t x n r) ↔
        Window s x n ∨ sizeClass n.toNat = some (linkIndex s x) ∨
          Coincides s x n (sizeAt (Int32.ofNat (linkIndex s x))).toNat)) := by
  have hptr := h.owns.ptr_ne_null hx
  have hin := h.owns.inside hx
  have hsize := h.owns.size_ge hx
  have hrun : (reallocWith release find x.ptr n).run s = _ :=
    run_reallocWith_used hptr hmagic hpage hn
  by_cases hwindow : Window s x n
  · rw [if_pos hwindow] at hrun
    exact ⟨_, _, hrun, fun _ => iff_of_true (fun _ _ _ => rfl) (.inl hwindow)⟩
  · obtain ⟨j, hj⟩ : ∃ j : Fin nbuckets, linkIndex s x = j :=
      ⟨⟨_, hindex.resolve_left hwindow⟩, rfl⟩
    have hfree : (Port.kfree release x.ptr).run s = .ok ((), pushed s j x.addr) := by
      rw [run_kfree hptr (b := j) (by rw [Owns.ptr_sub]; exact hj), Owns.ptr_sub]
    obtain ⟨r, u, htaken⟩ : ∃ r u, taken (pushed s j x.addr) b = (r, u) := ⟨_, _, rfl⟩
    have hmalloc : (Port.kmalloc release n).run (pushed s j x.addr) = .ok (r, u) :=
      htaken ▸ run_kmalloc_class (s := pushed s j x.addr) hpage hready hclass
    rw [if_neg hwindow, StateT.run_bind, hfree, ok_bind, run_moveTo hmalloc] at hrun
    refine ⟨_, _, hrun, fun hfresh => ?_⟩
    have hfresh' : Fresh u.log := by
      split at hfresh <;> exact hfresh
    rw [or_iff_right hwindow, hclass, hj, Option.some_inj]
    by_cases hbj : b.val = j
    · -- the block is the first of the list that serves the request
      obtain rfl := Fin.ext hbj
      obtain ⟨rfl, hpreserved⟩ := h.taken_pushed hx htaken
      rw [if_pos (.inr rfl)]
      exact iff_of_true (fun _ => hpreserved) (.inl rfl)
    · have hword := Mem.store32_same s.mem (a := x.addr) (s.vars.nextf j) (by omega)
      have hhead : (pushed s j x.addr).vars.nextf b = s.vars.nextf b := by
        simp [pushed, Function.update_of_ne (fun heq => hbj (congrArg Fin.val heq))]
      obtain ⟨hret, hlog, hmem⟩ := taken_congr hhead rfl rfl
      rw [htaken] at hret hlog hmem
      have hmalloc' : (Port.kmalloc release n).run s = .ok (r, (taken s b).2) :=
        (run_kmalloc_class hpage hready hclass).trans (by rw [show r = (taken s b).1 from hret])
      rw [or_iff_right hbj]
      exact h.preserved_iff hx hpage hready hclass hb hmalloc'
        (hlog ▸ hfresh') (fun a ha => hmem a (hword a ha)) rfl

end Compaction

/-- **Storage compaction** after every run of a disciplined client: with a
search that is right, `realloc` of a block among the first four of its free
list returns, unless its link looks like `MAGIC` and has no index; and the bytes
survive exactly when the block is the first one, when there is no memory, or
when the new block happened to hold them. -/
theorem compaction {fuel : Nat} {mem : Mem} {os : Nat → UInt32}
    {tr : List ((Call × UInt32) × Sys Statics)} {a : Sys Statics} {x : Block} {k : Nat}
    {n : UInt32} {find : UInt32 → Int32 → M Statics Int32}
    (hrun : Run ((Port.allocator fuel).Step Disciplined SbrkOk)
      (Sys.start Statics.initial mem os) tr a)
    (hfind : Searches find a.machine) (hx : x ∈ carved a.machine.log)
    (hfree : FreeAt a x.bucket k x.addr) (hk : k < 4) (hn : n ≠ 0) (hmax : n.toNat ≤ maxReq) :
    (Faults a.machine x n →
      (reallocWith release find x.ptr n).run a.machine = .error .indexOutOfBounds) ∧
    (¬ Faults a.machine x n →
      ∃ r t, (reallocWith release find x.ptr n).run a.machine = .ok (r, t) ∧
        (Fresh t.log →
          ((r ≠ null → Preserved a.machine t x n r) ↔ Survives a.machine x k n))) := by
  obtain ⟨S, hrepr, hfit, hinit⟩ := careful_run (run_careful hrun)
  have hhas := (hrepr.owns.has x).mpr hx
  have hat := (hrepr.freeAt hhas).mp hfree
  have hpage := hrepr.page hhas
  have hready := hrepr.mode.bucket hpage hinit
  have hptr := hrepr.owns.ptr_ne_null hhas
  obtain ⟨c, hc, hle⟩ := (sizeClass_le_iff (n := n.toNat) (b := 27) (by decide)).mpr
    (by rwa [cap_top])
  obtain ⟨b, rfl⟩ : ∃ b : Fin nbuckets, c = b.val := ⟨⟨c, lt_nbuckets (by omega)⟩, rfl⟩
  constructor
  · intro hfaults
    obtain ⟨hmagic, hwindow, hindex⟩ := hfaults
    rw [run_reallocWith_used hptr hmagic hpage hn, if_neg hwindow, StateT.run_bind,
      run_kfree_outside hptr (by rw [Owns.ptr_sub]; exact hindex)]
    rfl
  · intro hfaults
    rw [Survives]
    split
    · rename_i hmagic
      have hindex : Window a.machine x n ∨ linkIndex a.machine x < nbuckets := by
        by_contra hnone
        obtain ⟨hwindow, hlt⟩ := not_or.mp hnone
        exact hfaults ⟨hmagic, hwindow, Nat.not_lt.mp hlt⟩
      exact hrepr.compaction_used hhas hpage hready hmagic hn hc (by omega) hindex
    · rename_i hmagic
      exact hrepr.compaction_free hat hk (hfit.below x hhas) hpage hready hmagic hfind hn hc
        (by omega)

/-- The places of a free list, found by walking it. -/
theorem Repr.freeAt_walk {a : Sys Statics} {S : Stock Block.bucket} (h : Repr a S)
    {b : Fin nbuckets} {k : Nat} {p : UInt32}
    (hwalk : (walk a.machine.mem.load32 null (2 ^ 32) (a.machine.vars.nextf b))[k]? = some p) :
    FreeAt a b k p := by
  have hlist := h.freeList b
  rw [hlist.walk_eq (hlist.length_lt (fun _ _ => UInt32.toNat_inj.mp) UInt32.toNat_lt)] at hwalk
  exact ⟨_, hlist, hwalk⟩

/-- Two blocks of 32 bytes are freed; the one freed last keeps its byte. -/
theorem compaction_head : ∃ (a : Sys Statics) (t : Machine Statics),
    (reallocWith release search 4128 100).run a.machine = .ok (8192, t) ∧
    a.machine.mem 4130 = 7 ∧ Preserved a.machine t ⟨4124, 2, 32⟩ 100 8192 := by
  obtain ⟨tr, a, hrun, _, hobs⟩ := exists_run_of_observe
    (show (Port.allocator 0).observe Disciplined SbrkOk
      [.kmalloc 16, .kmalloc 16, .write 4128 2 7, .kfree 4096, .kfree 4128] (boot twoRegions)
      (fun a => (decide (⟨4124, 2, 32⟩ ∈ carved a.machine.log ∧ a.machine.mem 4130 = 7 ∧
          a.machine.mem 4124 ≠ magic),
        (walk a.machine.mem.load32 null (2 ^ 32) (a.machine.vars.nextf 2))[0]?,
        ((reallocWith release search 4128 100).run a.machine).toOption.map
          fun p => decide (p.1 = 8192 ∧ SbrkOk p.2.log)))
        = some ([4096, 4128, 0, 0, 0], true, some 4124, some true) by decide +kernel)
  simp only [Prod.mk.injEq, decide_eq_true_eq] at hobs
  obtain ⟨⟨hx, hbyte, hlink⟩, hwalk, hresult⟩ := hobs
  obtain ⟨S, hsound⟩ := careful_run (run_careful hrun)
  obtain ⟨r, t, hrealloc, hiff⟩ := (compaction (x := ⟨4124, 2, 32⟩) hrun
    (search_searches a.machine) hx (hsound.1.freeAt_walk hwalk) (by decide)
    (show (100 : UInt32) ≠ 0 by decide) (by decide)).2 fun hfaults => hlink hfaults.1
  have hptr : Block.ptr ⟨4124, 2, 32⟩ = 4128 := by decide
  rw [hptr] at hrealloc
  rw [hrealloc] at hresult
  obtain ⟨rfl, hfresh⟩ := of_decide_eq_true (Option.some.inj hresult)
  refine ⟨a, t, hrealloc, hbyte, (hiff hfresh.1).mpr ?_ (by decide)⟩
  rw [Survives, if_neg hlink]
  exact .inl rfl

/-- The other one is moved without its bytes. -/
theorem compaction_lost : ∃ (tr : List ((Call × UInt32) × Sys Statics)) (a : Sys Statics)
    (t : Machine Statics),
    Run ((Port.allocator 0).Step Disciplined (BreakOk 4092)) (boot twoRegions) tr a ∧
    labels tr = [(.kmalloc 16, 4096), (.kmalloc 16, 4128), (.write 4096 2 7, 0),
      (.kfree 4096, 0), (.kfree 4128, 0)] ∧
    ⟨4092, 2, 32⟩ ∈ carved a.machine.log ∧ FreeAt a 2 1 4092 ∧
    (reallocWith release search 4096 100).run a.machine = .ok (8192, t) ∧
    BreakOk 4092 t.log ∧ ¬ Preserved a.machine t ⟨4092, 2, 32⟩ 100 8192 := by
  obtain ⟨tr, a, hrun, hlabels, hobs⟩ := exists_run_of_observe
    (show (Port.allocator 0).observe Disciplined (BreakOk 4092)
      [.kmalloc 16, .kmalloc 16, .write 4096 2 7, .kfree 4096, .kfree 4128] (boot twoRegions)
      (fun a => (decide (⟨4092, 2, 32⟩ ∈ carved a.machine.log ∧ a.machine.mem 4098 = 7),
        (walk a.machine.mem.load32 null (2 ^ 32) (a.machine.vars.nextf 2))[1]?,
        ((reallocWith release search 4096 100).run a.machine).toOption.map
          fun p => decide (p.1 = 8192 ∧ p.2.mem 8194 = 0 ∧ BreakOk 4092 p.2.log)))
        = some ([4096, 4128, 0, 0, 0], true, some 4092, some true) by decide +kernel)
  simp only [Prod.mk.injEq, decide_eq_true_eq] at hobs
  obtain ⟨⟨hx, hbyte⟩, hwalk, hrealloc⟩ := hobs
  obtain ⟨_, S, hsound, _⟩ := disciplined_run hrun
  cases hresult : (reallocWith release search 4096 100).run a.machine with
  | error e =>
      rw [hresult] at hrealloc
      cases hrealloc
  | ok p =>
      obtain ⟨r, t⟩ := p
      rw [hresult] at hrealloc
      obtain ⟨rfl, hzero, hbreak⟩ := of_decide_eq_true (Option.some.inj hrealloc)
      refine ⟨tr, a, t, hrun, hlabels, hx, hsound.1.freeAt_walk hwalk, hresult, hbreak,
        fun hpreserved => ?_⟩
      have hlost : t.mem 8194 = a.machine.mem 4098 := hpreserved 2 (by decide)
      rw [hbyte] at hlost
      exact absurd (hzero.symm.trans hlost) (by decide)

end Challenges.Kmalloc

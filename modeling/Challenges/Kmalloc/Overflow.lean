import Challenges.Kmalloc.Checked

/-!
# Overflow — where a client can make the allocator overflow

Runs of the build with overflow checks, of a client that also hands freed
blocks to `realloc`. The heap stays well formed, so a call overflows in two
ways only: `morecore` is granted a region whose links straddle 2^31, or
`realloc` is given a free block that is not among the first four of its list.
Blocks whose first link looks like `MAGIC` are the third way; a region has to
start at an odd address for it.
-/

namespace Challenges.Kmalloc

open Challenges.Lib Challenges.Kmalloc.Port

/-- `kmalloc.rs` over a search of the free lists. -/
def Port.allocatorWith (bld : Build) (find : UInt32 → Int32 → M Statics Int32) :
    Allocator Statics :=
  ⟨Port.kmalloc bld, Port.kfree bld, reallocWith bld find⟩

/-- What `realloc` copies fits in the block that the request gets. -/
def CopyFits (sys : Sys Statics) (x : Block) (n : UInt32) : Prop :=
  Clear sys.machine n ∨ cap x.bucket ≤ 4092 ∨
    (¬ Held sys.live x.ptr ∧ sys.machine.vars.nextf x.bucket ≠ x.addr)

/-- A client that hands back only what it holds, but may hand a freed block to
`realloc`. -/
def Compacting (sys : Sys Statics) : Call → Prop
  | .kmalloc _ => True
  | .kfree cp => cp = null ∨ Held sys.live cp
  | .realloc cp n => cp = null ∨ ∃ x ∈ carved sys.machine.log, x.ptr = cp ∧
      (Held sys.live cp ∨ n ≠ 0 ∧ sys.machine.mem x.addr ≠ magic) ∧ CopyFits sys x n
  | .write cp off _ => ∃ x ∈ carved sys.machine.log,
      x.ptr = cp ∧ Held sys.live cp ∧ off.toNat + 4 < x.size

instance (sys : Sys Statics) (x : Block) (n : UInt32) : Decidable (CopyFits sys x n) :=
  inferInstanceAs (Decidable (_ ∨ _))

instance (sys : Sys Statics) (c : Call) : Decidable (Compacting sys c) :=
  match c with
  | .kmalloc _ => .isTrue trivial
  | .kfree cp => inferInstanceAs (Decidable (cp = null ∨ Held sys.live cp))
  | .realloc cp n => inferInstanceAs (Decidable (cp = null ∨
      ∃ x ∈ carved sys.machine.log, x.ptr = cp ∧
        (Held sys.live cp ∨ n ≠ 0 ∧ sys.machine.mem x.addr ≠ magic) ∧ CopyFits sys x n))
  | .write cp off _ => inferInstanceAs (Decidable (∃ x ∈ carved sys.machine.log,
      x.ptr = cp ∧ Held sys.live cp ∧ off.toNat + 4 < x.size))

/-- Null, or a block, live or freed. -/
def OfBlock (sys : Sys Statics) (cp : UInt32) : Prop :=
  cp = null ∨ ∃ x ∈ carved sys.machine.log, x.ptr = cp

/-- The free block is not among the first four of a list. -/
def Deep (sys : Sys Statics) (p : UInt32) : Prop := ∀ b k, FreeAt sys b k p → 4 ≤ k

/-- A header that reads as one of a block in use: its index is no bucket of a
block, or the move to another block overruns. -/
def UsedOverflows (s : Machine Statics) (p n : UInt32) : Prop :=
  29 ≤ (s.mem (p + 1)).toNat ∨ ∃ b : Fin nbuckets, b.val = (s.mem (p + 1)).toNat ∧
    sizeClass n.toNat ≠ some (s.mem (p + 1)).toNat ∧ Overruns (pushed s b p) n

/-- The calls that overflow. -/
def Overflows (sys : Sys Statics) : Call → Prop
  | .kmalloc n => Overruns (started sys.machine) n
  | .kfree _ => False
  | .realloc cp n =>
      if cp = null then Overruns (started sys.machine) n
      else if n = 0 then False
      else if sys.machine.mem (cp - overheadSize) = magic then
        UsedOverflows sys.machine (cp - overheadSize) n
      else Deep sys (cp - overheadSize) ∨ Overruns sys.machine n
  | .write .. => False

/-! ## What a block in a well-formed heap gives -/

section Heap

variable {s t : Machine Statics} {live : List Handle} {S : Stock Block.bucket} {x : Block}
  {n r : UInt32} {k : Nat} {find : UInt32 → Int32 → M Statics Int32}

theorem Owns.headsFit (h : Owns s live S) : HeadsFit s := by
  intro b
  cases hp : S.parked b with
  | nil =>
      rw [h.nextf_null.mpr hp]
      decide
  | cons x rest =>
      have hx : S.Has x := Stock.has_of_parked (hp ▸ List.mem_cons_self)
      have hin := h.inside hx
      have hsize := h.size_ge hx
      rw [h.nextf_eq hp]
      omega

/-- Beyond the first four a block is found by neither search. -/
theorem Owns.run_oldBucketWith_deep (h : Owns s live S)
    (hk : (S.parked x.bucket)[k]? = some x) (hdeep : 4 ≤ k) (hfree : s.mem x.addr ≠ magic)
    (hfind : Searches find s) :
    (oldBucketWith find x.addr).run s = .ok ((false, 30), s) := by
  have hlists : ∀ b, Chain s.mem.load32 null (s.vars.nextf b) ((S.parked b).map Block.addr) :=
    h.chain
  have hone : (find x.addr 1).run s = .ok (-1, s) := by
    have hclamp : Int32.toNatClampNeg 1 = 1 := rfl
    rw [hfind _ hlists x.addr 1 (by decide), h.bucketOf_free hk (by decide), hclamp,
      if_neg (by omega)]
  have hfour : (find x.addr reallocSrchlen).run s = .ok (-1, s) := by
    have hclamp : reallocSrchlen.toNatClampNeg = 4 := rfl
    rw [hfind _ hlists x.addr reallocSrchlen (by decide), h.bucketOf_free hk (by decide),
      hclamp, if_neg (by omega)]
  simp only [oldBucketWith, StateT.run_bind, run_load8, ok_bind, hfree, if_false, hone, hfour]
  rfl

/-- What is copied into the block that a request gets. -/
theorem Obtains.copy_fits {s₀ : Machine Statics} {S' : Stock Block.bucket} {onb : UInt32}
    (h : Obtains s₀ S n r S') (hready : s₀.vars.pageBucket = 9) (howns : Owns t live S')
    (hfits : Clear s₀ n ∨ onb.toNat ≤ 4092) (hr : r ≠ null) :
    ∃ y ∈ S'.held, r = y.ptr ∧ (if n < onb then n else onb).toNat + 4 ≤ y.size := by
  rcases hfits with hclear | hsmall
  · obtain ⟨y, hy, hptr, hfit, _⟩ := h.fits hready hclear howns hr
    refine ⟨y, hy, hptr, ?_⟩
    split
    · exact hfit
    · rename_i hge
      rw [UInt32.lt_iff_toNat_lt] at hge
      omega
  · obtain ⟨y, hy, hptr, hclass, _⟩ := h.block hr
    obtain ⟨hb, hsize⟩ := howns.size y ((howns.has y).mp (.inl hy))
    have hfit := (sizeClass_eq_some.mp (hclass hready)).1
    refine ⟨y, hy, hptr, ?_⟩
    by_cases hlast : y.bucket.val < 28
    · rw [hsize, room_eq hlast]
      split
      · omega
      · rename_i hge
        rw [UInt32.lt_iff_toNat_lt] at hge
        omega
    · -- the top class, whose blocks are one page
      have h28 : y.bucket.val = 28 := by omega
      have hroom : room 28 = 4096 := by decide
      rw [hsize, h28, hroom]
      split
      · rename_i hlt
        rw [UInt32.lt_iff_toNat_lt] at hlt
        omega
      · omega

/-- A new block, and the copy into it. -/
theorem Repr.moved {cp onb : UInt32} {u : Machine Statics} (h : Repr ⟨s, live⟩ S)
    (hpage : s.vars.pageSz = 4096) (hready : s.vars.pageBucket = 9)
    (hfits : Clear s n ∨ onb.toNat ≤ 4092)
    (hmalloc : (Port.kmalloc release n).run s = .ok (r, u)) (hfresh : Fresh u.log) :
    ∃ S', Repr ⟨if r = null ∨ cp = r then u else copied u r cp n onb, handOut r n live⟩ S' := by
  obtain ⟨S', hrepr, hobtains⟩ := h.kmalloc hmalloc hfresh
  rw [started_eq hpage] at hobtains
  refine ⟨S', ?_⟩
  split
  · exact hrepr
  · rename_i hcopy
    obtain ⟨hr, _⟩ := not_or.mp hcopy
    obtain ⟨y, hy, rfl, hlen⟩ := hobtains.copy_fits hready hrepr.owns hfits hr
    exact hrepr.copy_inside hy hlen

theorem toNat_capWord_le (b : Nat) : (UInt32.ofNat (cap b)).toNat ≤ cap b := by
  rw [UInt32.toNat_ofNat']
  exact Nat.mod_le _ _

/-- A block that is not in use is on the free list of its bucket. -/
theorem Owns.exists_place (h : Owns s live S) (hx : S.Has x) (hheader : s.mem x.addr ≠ magic) :
    ∃ k : Nat, (S.parked x.bucket)[k]? = some x := by
  rcases hx with hheld | hparked
  · exact absurd (h.header x hheld).1 hheader
  · exact List.getElem?_of_mem hparked

theorem Repr.deep_iff (h : Repr ⟨s, live⟩ S) (hk : (S.parked x.bucket)[k]? = some x) :
    Deep ⟨s, live⟩ x.addr ↔ 4 ≤ k := by
  have hx := Stock.has_of_parked (List.mem_of_getElem? hk)
  constructor
  · exact fun hdeep => hdeep _ k ((h.freeAt hx).mpr hk)
  · intro hle b j hj
    rw [h.freeAt hx] at hj
    have hb := S.parked_cls b x (List.mem_of_getElem? hj)
    subst hb
    have hlt := (List.getElem?_eq_some_iff.mp hk).1
    rwa [← (List.getElem?_inj hlt (S.parked_nodup _)).mp (hk.trans hj.symm)]

end Heap

/-! ## The calls in the two builds -/

section Calls

variable {s t : Machine Statics} {live : List Handle} {S : Stock Block.bucket} {x : Block}
  {n r : UInt32} {k : Nat} {find : UInt32 → Int32 → M Statics Int32}

theorem Repr.traps_kmalloc (h : Repr ⟨s, live⟩ S) (hok : InitOk s.log) :
    Traps .overflow (Overruns (started s) n) (Port.kmalloc checked n) (Port.kmalloc release n) s :=
  kmalloc_traps h.mode (fun hpage => h.mode.bucket hpage hok) h.owns.headsFit

theorem Repr.four_le_ptr (h : Repr ⟨s, live⟩ S) (hx : S.Has x) : 4 ≤ x.ptr.toNat := by
  rw [h.owns.ptr_toNat hx]
  omega

theorem Repr.run_kfree_checked (h : Repr ⟨s, live⟩ S) (hx : x ∈ S.held) :
    (Port.kfree checked x.ptr).run s = .ok ((), pushed s x.bucket x.addr) :=
  (kfree_checked (.inr (h.four_le_ptr (.inl hx)))).trans (h.owns.run_kfree hx)

/-- **`realloc` of a block**, live or freed. -/
theorem Repr.traps_realloc (h : Repr ⟨s, live⟩ S) (hok : InitOk s.log) (hfind : Searches find s)
    (hx : S.Has x) (hn : n ≠ 0) :
    Traps .overflow (Overflows ⟨s, live⟩ (.realloc x.ptr n)) (reallocWith checked find x.ptr n)
      (reallocWith release find x.ptr n) s := by
  have hpage := h.page hx
  have hready := h.mode.bucket hpage hok
  have hheads := h.owns.headsFit
  have hnull := h.owns.ptr_ne_null hx
  have hcp := h.four_le_ptr hx
  rw [Overflows, if_neg hnull, if_neg hn, Owns.ptr_sub]
  by_cases hmagic : s.mem x.addr = magic
  · rw [if_pos hmagic]
    have hused := @realloc_used_traps _ _ find _ _ hpage hready hheads hcp hn
      (by rwa [Owns.ptr_sub]) rfl
    rw [Owns.ptr_sub] at hused
    exact hused
  · rw [if_neg hmagic]
    obtain ⟨k, hk⟩ := h.owns.exists_place hx hmagic
    rw [h.deep_iff hk]
    have hb := (h.owns.size x ((h.owns.has x).mp hx)).1
    by_cases hdeep : 4 ≤ k
    · have hold := h.owns.run_oldBucketWith_deep hk hdeep hmagic hfind
      rw [← Owns.ptr_sub] at hold
      exact ⟨fun _ => realloc_lost_overflow hcp hn hold, fun hno => absurd (.inl hdeep) hno⟩
    · have hold := h.owns.run_oldBucketWith hk (by omega) hmagic hfind
      rw [← Owns.ptr_sub] at hold
      have hindex : (if k = 0 then Int32.ofNat x.bucket else -1) = -1 ∨
          ∃ b < 29, (if k = 0 then Int32.ofNat x.bucket else -1) = Int32.ofNat b := by
        split
        · exact .inr ⟨x.bucket, hb, rfl⟩
        · exact .inl rfl
      apply (realloc_found_traps hpage hready hheads hcp hn hold hindex).iff
      simp [hdeep]

/-- A live block: freed, kept or moved. -/
theorem Repr.compact_held {fuel : Nat} (h : Repr ⟨s, live⟩ S) (hok : InitOk s.log)
    (hx : x ∈ S.held) (hfits : CopyFits ⟨s, live⟩ x n)
    (hrun : (Port.realloc release fuel x.ptr n).run s = .ok (r, t)) (hfresh : Fresh t.log) :
    ∃ S', Repr ⟨t, handOut r n (takeBack x.ptr live)⟩ S' := by
  have hpage := h.mode.page h.owns hx
  have hready := h.mode.bucket hpage hok
  have hheld : Held live x.ptr := (h.held_iff (.inl hx)).mpr hx
  rcases h.owns.realloc_cases hx hpage hrun with
    ⟨_, rfl, rfl⟩ | ⟨_, hclass, rfl, rfl⟩ | ⟨_, hclass, u, hmalloc, rfl⟩
  · rw [handOut_null]
    exact ⟨S.give hx, h.kfree hx⟩
  · obtain ⟨S', hrepr, _⟩ := h.kept hx hclass
    exact ⟨S', hrepr⟩
  · have hfreshu : Fresh u.log := by
      split at hfresh <;> exact hfresh
    have hfits' : Clear (pushed s x.bucket x.addr) n ∨ (UInt32.ofNat (cap x.bucket)).toNat ≤ 4092 := by
      rcases hfits with hclear | hsmall | ⟨hno, _⟩
      · exact .inl (Clear.pushed hclear (.inl hclass))
      · exact .inr (Nat.le_trans (toNat_capWord_le _) hsmall)
      · exact absurd hheld hno
    exact (h.kfree hx).moved hpage hready hfits' hmalloc hfreshu

/-- A freed block among the first four of its list. -/
theorem Repr.compact_free (h : Repr ⟨s, live⟩ S) (hok : InitOk s.log) (hfind : Searches find s)
    (hk : (S.parked x.bucket)[k]? = some x) (hdeep : k < 4) (hfree : s.mem x.addr ≠ magic)
    (hn : n ≠ 0) (hfits : CopyFits ⟨s, live⟩ x n)
    (hrun : (reallocWith release find x.ptr n).run s = .ok (r, t)) (hfresh : Fresh t.log) :
    ∃ S', Repr ⟨t, handOut r n (takeBack x.ptr live)⟩ S' := by
  have hparked := List.mem_of_getElem? hk
  have hpage := h.page (Stock.has_of_parked hparked)
  have hready := h.mode.bucket hpage hok
  obtain ⟨r', u, hmalloc⟩ := kmalloc_returns h.mode hok n
  rw [h.owns.run_reallocWith hk hdeep hfree hfind hpage hn, run_moveTo hmalloc] at hrun
  cases hrun
  have hfreshu : Fresh u.log := by
    split at hfresh <;> exact hfresh
  have hfits' : Clear s n ∨ (foundSize k x).toNat ≤ 4092 := by
    rcases hfits with hclear | hsmall | ⟨_, hhead⟩
    · exact .inl hclear
    · right
      rw [foundSize]
      split
      · exact Nat.le_trans (toNat_capWord_le _) hsmall
      · decide
    · -- not the head of its list, so its size is lost
      have hk0 : k ≠ 0 := by
        rintro rfl
        cases hp : S.parked x.bucket with
        | nil => simp [hp] at hk
        | cons y rest =>
            rw [hp] at hk
            rw [← Option.some.inj hk] at hhead hp
            exact hhead (h.owns.nextf_eq hp)
      right
      rw [foundSize, if_neg hk0]
      decide
  rw [takeBack_of_not_held (h.owns.notMem_held hparked)]
  exact h.moved hpage hready hfits' hmalloc hfreshu

/-- `realloc` of a block, live or freed, that returns in the checked build. -/
theorem Repr.compact_realloc (h : Repr ⟨s, live⟩ S) (hok : InitOk s.log)
    (hfind : Searches find s) (hhas : S.Has x) (hn : n ≠ 0)
    (hblock : Held live x.ptr ∨ s.mem x.addr ≠ magic) (hfits : CopyFits ⟨s, live⟩ x n)
    (hrun : (reallocWith checked find x.ptr n).run s = .ok (r, t)) (hfresh : Fresh t.log) :
    ∃ S', Repr ⟨t, handOut r n (takeBack x.ptr live)⟩ S' := by
  have hnull := h.owns.ptr_ne_null hhas
  have htraps := h.traps_realloc hok hfind hhas hn
  have hrelease := htraps.run_eq_of_ok hrun
  by_cases hmagic : s.mem x.addr = magic
  · have hheld := hblock.resolve_right fun hfree => hfree hmagic
    have hxheld := (h.held_iff hhas).mp hheld
    rw [reallocWith_used hnull hn (by rwa [Owns.ptr_sub]) rfl] at hrelease
    exact h.compact_held hok hxheld hfits hrelease hfresh
  · obtain ⟨k, hk⟩ := h.owns.exists_place hhas hmagic
    -- a call that returns has found the block
    have hdeep : k < 4 := by
      by_contra hdeep
      have hover : Overflows ⟨s, live⟩ (.realloc x.ptr n) := by
        rw [Overflows, if_neg hnull, if_neg hn, Owns.ptr_sub, if_neg hmagic, h.deep_iff hk]
        exact .inl (Nat.le_of_not_lt hdeep)
      rw [htraps.1 hover] at hrun
      cases hrun
    exact h.compact_free hok hfind hk hdeep hmagic hn hfits hrelease hfresh

end Calls

/-! ## Runs -/

section Runs

variable {a b : Sys Statics} {S : Stock Block.bucket} {find : UInt32 → Int32 → M Statics Int32}

/-- **The step lemma**: a call that returns in the checked build keeps the
heap well formed. -/
theorem Repr.compacting_step {l : Call × UInt32} (hfind : ∀ s, Searches find s) (h : Repr a S)
    (hok : InitOk a.machine.log)
    (hs : (Port.allocatorWith checked find).Step Compacting SbrkOk a l b) :
    ∃ S', Repr b S' := by
  obtain ⟨s, live⟩ := a
  obtain ⟨call, r⟩ := l
  obtain ⟨hallowed, hperform, hfresh, _⟩ := hs
  cases call with
  | kmalloc n =>
      obtain ⟨t, hrun, rfl⟩ := perform_kmalloc.mp hperform
      obtain ⟨S', hrepr, _⟩ := h.kmalloc ((h.traps_kmalloc hok).run_eq_of_ok hrun) hfresh
      exact ⟨S', hrepr⟩
  | kfree cp =>
      obtain ⟨t, hrun, _, rfl⟩ := perform_kfree.mp hperform
      rcases hallowed with rfl | hheld
      · cases hrun
        rw [h.owns.takeBack_null]
        exact ⟨S, h⟩
      · obtain ⟨x, hx, rfl⟩ := h.owns.exists_held hheld
        cases (h.run_kfree_checked hx).symm.trans hrun
        exact ⟨S.give hx, h.kfree hx⟩
  | realloc cp n =>
      obtain ⟨t, hrun, rfl⟩ := perform_realloc.mp hperform
      rcases hallowed with rfl | ⟨x, hx, rfl, hblock, hfits⟩
      · obtain ⟨S', hrepr, _⟩ := h.kmalloc ((h.traps_kmalloc hok).run_eq_of_ok hrun) hfresh
        rw [h.owns.takeBack_null]
        exact ⟨S', hrepr⟩
      · have hhas := (h.owns.has x).mpr hx
        have hnull := h.owns.ptr_ne_null hhas
        change (reallocWith checked find x.ptr n).run s = _ at hrun
        by_cases hn : n = 0
        · -- only a block in use is freed
          subst hn
          have hheld := hblock.resolve_right fun hfree => hfree.1 rfl
          have hxheld := (h.held_iff hhas).mp hheld
          rw [run_reallocWith_zero checked hnull, h.run_kfree_checked hxheld, map_ok] at hrun
          obtain ⟨hr, ht⟩ : null = r ∧ pushed s x.bucket x.addr = t :=
            Prod.ext_iff.mp (Except.ok.inj hrun)
          show ∃ S', Repr ⟨t, handOut r 0 (takeBack x.ptr live)⟩ S'
          rw [← hr, ← ht, handOut_null]
          exact ⟨S.give hxheld, h.kfree hxheld⟩
        · have hlive := hblock.imp_right And.right
          exact h.compact_realloc hok (hfind s) hhas hn hlive hfits hrun hfresh
  | write cp off byte =>
      obtain ⟨x, hx, rfl, _, hoff⟩ := hallowed
      cases hperform
      exact ⟨S, h.write hx hoff byte⟩

/-- **The run lemma** for the checked build. -/
theorem compacting_run {mem : Mem} {os : Nat → UInt32} {tr : List ((Call × UInt32) × Sys Statics)}
    (hfind : ∀ s, Searches find s)
    (hrun : Run ((Port.allocatorWith checked find).Step Compacting SbrkOk)
      (Sys.start Statics.initial mem os) tr a) : ∃ S, Repr a S ∧ InitOk a.machine.log := by
  apply hrun.invariant (I := fun a => ∃ S, Repr a S ∧ InitOk a.machine.log)
  · exact ⟨_, .start mem os, by simp [InitOk, Sys.start]⟩
  · intro a l b h hs
    obtain ⟨S, hrepr, hok⟩ := h
    obtain ⟨S', hrepr'⟩ := hrepr.compacting_step hfind hok hs
    exact ⟨S', hrepr', hs.2.2.2⟩

end Runs

/-! ## The theorem -/

section Theorem

variable {s : Machine Statics} {live : List Handle} {S : Stock Block.bucket} {x : Block}
  {n cp : UInt32} {find : UInt32 → Int32 → M Statics Int32} {A : Allocator Statics}
  {a : Sys Statics} {e : Fault}

theorem perform_kmalloc_error :
    A.perform a (.kmalloc n) = .error e ↔ (A.kmalloc n).run a.machine = .error e := by
  simp only [Allocator.perform]
  cases (A.kmalloc n).run a.machine <;> simp

theorem perform_kfree_error :
    A.perform a (.kfree cp) = .error e ↔ (A.kfree cp).run a.machine = .error e := by
  simp only [Allocator.perform]
  cases (A.kfree cp).run a.machine <;> simp

theorem perform_realloc_error :
    A.perform a (.realloc cp n) = .error e ↔ (A.realloc cp n).run a.machine = .error e := by
  simp only [Allocator.perform]
  cases (A.realloc cp n).run a.machine <;> simp

theorem Repr.kmalloc_error_iff (h : Repr ⟨s, live⟩ S) (hok : InitOk s.log) :
    (Port.kmalloc checked n).run s = .error .overflow ↔ Overruns (started s) n := by
  apply (h.traps_kmalloc hok).error_iff
  intro _
  obtain ⟨r, t, hrun⟩ := kmalloc_returns h.mode hok n
  rw [hrun]
  simp

/-- `kfree` does not overflow, also when the block is free already. -/
theorem Repr.kfree_ne_overflow (h : Repr ⟨s, live⟩ S) (hcp : OfBlock ⟨s, live⟩ cp) :
    (Port.kfree checked cp).run s ≠ .error .overflow := by
  rcases hcp with rfl | ⟨x, hx, rfl⟩
  · rw [kfree_checked (.inl rfl), run_kfree_null]
    simp
  · have hhas := (h.owns.has x).mpr hx
    have hnull := h.owns.ptr_ne_null hhas
    rw [kfree_checked (.inr (h.four_le_ptr hhas))]
    by_cases hindex : (s.mem (x.ptr - overheadSize + 1)).toNat < nbuckets
    · rw [run_kfree (b := ⟨_, hindex⟩) hnull rfl]
      simp
    · rw [run_kfree_outside hnull (Nat.le_of_not_lt hindex)]
      simp

/-- The release build does not overflow, whatever the header says. -/
theorem Repr.realloc_ne_overflow (h : Repr ⟨s, live⟩ S) (hok : InitOk s.log)
    (hfind : Searches find s) (hx : S.Has x) (hn : n ≠ 0)
    (hno : ¬ Overflows ⟨s, live⟩ (.realloc x.ptr n)) :
    (reallocWith release find x.ptr n).run s ≠ .error .overflow := by
  have hpage := h.page hx
  have hready := h.mode.bucket hpage hok
  have hnull := h.owns.ptr_ne_null hx
  rw [Overflows, if_neg hnull, if_neg hn, Owns.ptr_sub] at hno
  by_cases hmagic : s.mem x.addr = magic
  · rw [if_pos hmagic] at hno
    have hlt : (s.mem (x.addr + 1)).toNat < 29 := by
      by_contra hge
      exact hno (.inl (Nat.le_of_not_lt hge))
    have hmagic' : s.mem (x.ptr - overheadSize) = magic := by rwa [Owns.ptr_sub]
    rw [reallocWith_used hnull hn hmagic' rfl,
      run_realloc (b := ⟨_, lt_nbuckets hlt⟩) 0 hlt hpage hnull hn hmagic' (by rw [Owns.ptr_sub])]
    split
    · simp
    · obtain ⟨r, u, hmalloc⟩ := kmalloc_returns
        (s := pushed s ⟨_, lt_nbuckets hlt⟩ (x.ptr - overheadSize)) (.ready hpage hready) hok n
      rw [run_moveTo hmalloc]
      simp
  · rw [if_neg hmagic] at hno
    obtain ⟨k, hk⟩ := h.owns.exists_place hx hmagic
    rw [h.deep_iff hk] at hno
    obtain ⟨r, u, hmalloc⟩ := kmalloc_returns h.mode hok n
    rw [h.owns.run_reallocWith hk (by omega) hmagic hfind hpage hn, run_moveTo hmalloc]
    simp

theorem Repr.realloc_error_iff (h : Repr ⟨s, live⟩ S) (hok : InitOk s.log)
    (hfind : Searches find s) (hx : S.Has x) (hn : n ≠ 0) :
    (reallocWith checked find x.ptr n).run s = .error .overflow ↔
      Overflows ⟨s, live⟩ (.realloc x.ptr n) :=
  (h.traps_realloc hok hfind hx hn).error_iff (h.realloc_ne_overflow hok hfind hx hn)

end Theorem

/-- The calls that are made on nothing but blocks. -/
def OnBlocks (sys : Sys Statics) : Call → Prop
  | .kfree cp | .realloc cp _ => OfBlock sys cp
  | .kmalloc _ | .write .. => True

/-- **Overflow** after every run of the checked build: with a search that is
right, a call on null or on a block, live or freed, overflows exactly when it
is one of those above. -/
theorem overflow_iff {mem : Mem} {os : Nat → UInt32} {tr : List ((Call × UInt32) × Sys Statics)}
    {a : Sys Statics} {find : UInt32 → Int32 → M Statics Int32} {c : Call}
    (hfind : ∀ s, Searches find s)
    (hrun : Run ((Port.allocatorWith checked find).Step Compacting SbrkOk)
      (Sys.start Statics.initial mem os) tr a)
    (hc : OnBlocks a c) :
    (Port.allocatorWith checked find).perform a c = .error .overflow ↔ Overflows a c := by
  obtain ⟨S, hrepr, hok⟩ := compacting_run hfind hrun
  cases c with
  | kmalloc n =>
      rw [perform_kmalloc_error]
      exact hrepr.kmalloc_error_iff hok
  | kfree cp =>
      rw [perform_kfree_error]
      exact iff_of_false (hrepr.kfree_ne_overflow hc) id
  | realloc cp n =>
      rw [perform_realloc_error]
      change (reallocWith checked find cp n).run a.machine = _ ↔ _
      by_cases hnull : cp = null
      · rw [reallocWith, if_pos hnull, Overflows, if_pos hnull]
        exact hrepr.kmalloc_error_iff hok
      · by_cases hn : n = 0
        · rw [Overflows, if_neg hnull, if_pos hn, hn, run_reallocWith_zero checked hnull, iff_false]
          intro hover
          apply hrepr.kfree_ne_overflow hc
          cases hfree : (Port.kfree checked cp).run a.machine with
          | ok p =>
              rw [hfree] at hover
              cases hover
          | error e =>
              rw [hfree] at hover
              cases hover
              rfl
        · obtain ⟨x, hx, rfl⟩ := hc.resolve_left hnull
          exact hrepr.realloc_error_iff hok (hfind _) ((hrepr.owns.has x).mpr hx) hn
  | write cp off byte =>
      rw [Overflows, iff_false]
      intro hover
      cases hover

/-- A page at 4092, and then a region that ends above 2^31. -/
def straddling : Nat → UInt32 := fun k => if k ≤ 1 then 4092 else 0x7ffffffc

/-- The call panics with an overflow. -/
def panics (p : Except Fault (UInt32 × Sys Statics)) : Bool :=
  match p with
  | .error .overflow => true
  | _ => false

theorem eq_of_panics {p : Except Fault (UInt32 × Sys Statics)} (h : panics p) :
    p = .error .overflow := by
  cases p with
  | ok r => cases h
  | error e => cases e <;> first | rfl | cases h

/-- `kmalloc(4)` is one of the calls that overflow there. -/
theorem overflow_iff_straddling : ∃ a : Sys Statics, a.live = [⟨4096, 16⟩] ∧
    Overflows a (.kmalloc 4) := by
  obtain ⟨tr, a, hrun, _, hobs⟩ := exists_run_of_observe
    (show (Port.allocatorWith checked search).observe Compacting SbrkOk [.kmalloc 16]
      (boot straddling) (fun a => (a.live,
        panics ((Port.allocatorWith checked search).perform a (.kmalloc 4))))
        = some ([4096], [⟨4096, 16⟩], true) by decide +kernel)
  obtain ⟨hlive, hpanics⟩ := Prod.ext_iff.mp hobs
  have hiff := overflow_iff (c := .kmalloc 4) search_searches hrun trivial
  exact ⟨a, hlive, hiff.mp (eq_of_panics hpanics)⟩

/-- The links of the blocks of 8 bytes go past `i32::MAX`. -/
theorem overflow_region : ∃ (tr : List ((Call × UInt32) × Sys Statics)) (a : Sys Statics),
    Run ((Port.allocatorWith checked search).Step Compacting SbrkOk) (boot straddling) tr a ∧
    labels tr = [(.kmalloc 16, 4096)] ∧
    (Port.allocatorWith checked search).perform a (.kmalloc 4) = .error .overflow := by
  obtain ⟨tr, a, hrun, hlabels, hobs⟩ := exists_run_of_observe
    (show (Port.allocatorWith checked search).observe Compacting SbrkOk [.kmalloc 16]
      (boot straddling) (fun a =>
        panics ((Port.allocatorWith checked search).perform a (.kmalloc 4)))
        = some ([4096], true) by decide +kernel)
  exact ⟨tr, a, hrun, hlabels, eq_of_panics hobs⟩

/-- Five blocks are freed, and the one freed first is not found. -/
theorem overflow_lost : ∃ (tr : List ((Call × UInt32) × Sys Statics)) (a : Sys Statics),
    Run ((Port.allocatorWith checked search).Step Compacting SbrkOk) (boot twoRegions) tr a ∧
    OnBlocks a (.realloc 4096 100) ∧
    (Port.allocatorWith checked search).perform a (.realloc 4096 100) = .error .overflow := by
  obtain ⟨tr, a, hrun, _, hobs⟩ := exists_run_of_observe
    (show (Port.allocatorWith checked search).observe Compacting SbrkOk
      [.kmalloc 16, .kmalloc 16, .kmalloc 16, .kmalloc 16, .kmalloc 16,
        .kfree 4096, .kfree 4128, .kfree 4160, .kfree 4192, .kfree 4224]
      (boot twoRegions) (fun a => (decide (⟨4092, 2, 32⟩ ∈ carved a.machine.log),
        panics ((Port.allocatorWith checked search).perform a (.realloc 4096 100))))
        = some ([4096, 4128, 4160, 4192, 4224, 0, 0, 0, 0, 0], true, true) by decide +kernel)
  simp only [Prod.mk.injEq, decide_eq_true_eq] at hobs
  obtain ⟨hx, hpanics⟩ := hobs
  exact ⟨tr, a, hrun, .inr ⟨_, hx, by decide⟩, eq_of_panics hpanics⟩

end Challenges.Kmalloc

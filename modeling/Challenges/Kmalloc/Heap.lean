import Challenges.Lib.Stock
import Challenges.Kmalloc.Client
import Challenges.Kmalloc.PortSpec

/-!
# Heap — the port's memory read as a stock of blocks

`Owns s live S` ties the four descriptions of the heap together: the raw
bytes and `NEXTF`, the pointers the client holds, the log of `sbrk` calls,
and the abstract stock `S`. One lemma for each thing the program does to
the heap says which move of the stock it is.
-/

namespace Challenges.Kmalloc

open Challenges.Lib Challenges.Kmalloc.Port

/-- The machine's free lists and headers, and the client's pointers, are
those of the stock `S`, whose blocks are the ones carved so far. -/
structure Owns (s : Machine Statics) (live : List Handle) (S : Stock Block.bucket) :
    Prop where
  chain : ∀ b, Chain s.mem.load32 null (s.vars.nextf b) ((S.parked b).map Block.addr)
  held : live.map Handle.ptr = S.held.map Block.ptr
  header : ∀ x ∈ S.held, s.mem x.addr = magic ∧ (s.mem (x.addr + 1)).toNat = x.bucket
  has : ∀ x, S.Has x ↔ x ∈ carved s.log
  size : ∀ x ∈ carved s.log, x.bucket.val < 29 ∧ x.size = room x.bucket
  fresh : Fresh s.log

theorem room_bounds {b : Nat} (hb : b < 29) :
    8 ≤ room b ∧ room b * nblks b = grant b ∧ grant b < 2 ^ 31 := by
  have h : ∀ b : Fin 29, 8 ≤ room b.val ∧ room b.val * nblks b.val = grant b.val ∧
      grant b.val < 2 ^ 31 := by decide
  exact h ⟨b, hb⟩

/-! ## The blocks of one `morecore` -/

/-- The blocks of one successful `morecore(b)`, answered with `ret`. -/
def newBlocks (b : Fin nbuckets) (ret : UInt32) : List Block :=
  (tiles ret (UInt32.ofNat (room b)) (nblks b)).map fun a => ⟨a, b, room b⟩

/-- The call of `sbrk` in `morecore(b)`. -/
def growCall (b : Fin nbuckets) (ret : UInt32) : SbrkCall :=
  ⟨.morecore (Int32.ofNat b), Int32.ofNat (grant b), ret⟩

theorem growCall_amt {b : Fin nbuckets} (hb : b.val < 29) (ret : UInt32) :
    (growCall b ret).amt.toNatClampNeg = grant b :=
  Int32.toNatClampNeg_ofNat_of_lt (room_bounds hb).2.2

theorem growCall_blocks {b : Fin nbuckets} (hb : b.val < 29) (ret : UInt32) :
    (growCall b ret).blocks = if ret = sbrkFailed then [] else newBlocks b ret := by
  have hindex : (Int32.ofNat b.val).toUInt32.toNat = b := by
    rw [toUInt32_bucket, toNat_bucket]
  have hroom : grant b / nblks b = room b := rfl
  have hbound : (Int32.ofNat b.val).toUInt32.toNat < nbuckets := by
    rw [hindex]
    exact b.isLt
  have hamt := growCall_amt hb ret
  simp only [growCall] at hamt
  simp only [SbrkCall.blocks, growCall, hamt, hbound, true_and, ne_eq]
  by_cases hret : ret = sbrkFailed
  · simp [hret]
  · simp only [hret, not_false_eq_true, dite_true, if_false, newBlocks]
    simp only [hindex, hroom]

theorem log_afterMorecore (s : Machine Statics) (b : Fin nbuckets) :
    (afterMorecore s b).log = s.log ++ [growCall b (s.os s.log.length)] := by
  rw [afterMorecore]
  split <;> rfl

theorem mem_newBlocks {b : Fin nbuckets} {ret : UInt32} {x : Block}
    (hx : x ∈ newBlocks b ret) : x.bucket = b ∧ x.size = room b := by
  obtain ⟨a, _, rfl⟩ := List.mem_map.mp hx
  exact ⟨rfl, rfl⟩

theorem toNat_room {b : Nat} (hb : b < 29) : (UInt32.ofNat (room b)).toNat = room b := by
  have h : ∀ b : Fin 29, (UInt32.ofNat (room b.val)).toNat = room b.val := by decide
  exact h ⟨b, hb⟩

theorem toNat_grant {b : Nat} (hb : b < 29) :
    (Int32.ofNat (grant b)).toUInt32.toNat = grant b :=
  UInt32.toNat_ofNat_of_lt' (Nat.lt_trans (room_bounds hb).2.2 (by decide))

theorem room_le_grant {b : Nat} (hb : b < 29) : room b ≤ grant b := by
  rw [← (room_bounds hb).2.1]
  exact Nat.le_mul_of_pos_right _ (nblks_pos b)

/-- A tile has room for a link. -/
theorem four_le_room {b : Nat} (hb : b < 29) : 4 ≤ (UInt32.ofNat (room b)).toNat := by
  have := (room_bounds hb).1
  rw [toNat_room hb]
  omega

theorem room_pos {b : Nat} (hb : b < 29) : 1 ≤ (UInt32.ofNat (room b)).toNat :=
  Nat.le_trans (by decide) (four_le_room hb)

/-- The tiles fill the region. -/
theorem tiles_region {b : Nat} (hb : b < 29) :
    nblks b * (UInt32.ofNat (room b)).toNat = grant b := by
  rw [toNat_room hb, Nat.mul_comm]
  exact (room_bounds hb).2.1

theorem tiles_fit {b : Nat} (hb : b < 29) {ret : UInt32}
    (hfit : ret.toNat + grant b ≤ 2 ^ 32) :
    ret.toNat + nblks b * (UInt32.ofNat (room b)).toNat ≤ 2 ^ 32 := by
  rwa [tiles_region hb]

theorem carve_fits {b : Nat} (hb : b < 29) {ret : UInt32}
    (hfit : ret.toNat + grant b ≤ 2 ^ 32) :
    ret.toNat + (nblks b - 1 + 1) * (UInt32.ofNat (room b)).toNat ≤ 2 ^ 32 := by
  rw [Nat.sub_add_cancel (nblks_pos b)]
  exact tiles_fit hb hfit

/-- The memory after `sbrk` has zeroed the region and the links are written. -/
theorem mem_afterMorecore {s : Machine Statics} {b : Fin nbuckets} (hb : b.val < 29)
    (hret : s.os s.log.length ≠ sbrkFailed) :
    (afterMorecore s b).mem = link
      (s.mem.fill (s.os s.log.length) 0 (Int32.ofNat (grant b)).toUInt32)
      (s.os s.log.length) (UInt32.ofNat (room b)) (nblks b - 1) := by
  obtain ⟨hroom, hmul, hlt⟩ := room_bounds hb
  have hpositive : (0 : Int32) < Int32.ofNat (grant b) := by
    rw [← Int32.toNatClampNeg_pos_iff, Int32.toNatClampNeg_ofNat_of_lt hlt]
    have := nblks_pos b
    have := Nat.mul_le_mul hroom this
    omega
  simp only [afterMorecore, hret, if_false, withNextf_mem, Machine.afterSbrk, ne_eq,
    not_false_eq_true, hpositive, and_self, if_true]

/-- Carving changes the region that `sbrk` answered with, and nothing else. -/
theorem afterMorecore_same {s : Machine Statics} {b : Fin nbuckets} (hb : b.val < 29)
    (hret : s.os s.log.length ≠ sbrkFailed)
    (hfit : (s.os s.log.length).toNat + grant b ≤ 2 ^ 32) :
    Mem.SameOutside s.mem (afterMorecore s b).mem (s.os s.log.length).toNat (grant b) := by
  have hlink : (nblks b - 1) * (UInt32.ofNat (room b)).toNat ≤ grant b := by
    rw [← tiles_region hb]
    exact Nat.mul_le_mul_right _ (Nat.sub_le (nblks b) 1)
  have hfill := @Mem.fill_same s.mem (s.os s.log.length) 0 (Int32.ofNat (grant b)).toUInt32
    (by rwa [toNat_grant hb])
  have hlinks := link_same (four_le_room hb) (carve_fits hb hfit)
    (m := s.mem.fill (s.os s.log.length) 0 (Int32.ofNat (grant b)).toUInt32)
  rw [toNat_grant hb] at hfill
  rw [mem_afterMorecore hb hret]
  exact hfill.trans (hlinks.widen (Nat.le_refl _) (by omega))

/-- The links that `morecore(b)` writes go through its blocks in order. None is
stored in the last block: the list ends there because `sbrk` cleared it. -/
theorem afterMorecore_threaded {s : Machine Statics} {b : Fin nbuckets} (hb : b.val < 29)
    (hret : s.os s.log.length ≠ sbrkFailed)
    (hfit : (s.os s.log.length).toNat + grant b ≤ 2 ^ 32) :
    Threaded (afterMorecore s b).mem.load32 null (s.os s.log.length)
      (tiles (s.os s.log.length) (UInt32.ofNat (room b)) (nblks b)) := by
  have hk : nblks b - 1 + 1 = nblks b := Nat.sub_add_cancel (nblks_pos b)
  have hlast : (nblks b - 1) * room b + room b = grant b := by
    rw [← Nat.succ_mul, Nat.succ_eq_add_one, hk, Nat.mul_comm]
    exact (room_bounds hb).2.1
  have hzero : ∀ x : UInt32, x.toNat = (s.os s.log.length).toNat +
      (nblks b - 1) * (UInt32.ofNat (room b)).toNat →
      (s.mem.fill (s.os s.log.length) 0 (Int32.ofNat (grant b)).toUInt32).load32 x = 0 := by
    intro x hx
    have := (room_bounds hb).1
    have hamt := toNat_grant hb
    rw [toNat_room hb] at hx
    exact Mem.fill_load32 _ (by omega) (by omega) (by omega)
  have hlink := link_threaded (four_le_room hb) (carve_fits hb hfit) hzero
  rw [mem_afterMorecore hb hret]
  rwa [hk] at hlink

theorem vars_afterMorecore {s : Machine Statics} {b : Fin nbuckets}
    (hret : s.os s.log.length ≠ sbrkFailed) : (afterMorecore s b).vars =
      { s.vars with nextf := Function.update s.vars.nextf b (s.os s.log.length) } := by
  rw [afterMorecore, if_neg hret]
  rfl

theorem nextf_afterMorecore {s : Machine Statics} {b : Fin nbuckets}
    (hret : s.os s.log.length ≠ sbrkFailed) :
    (afterMorecore s b).vars.nextf = Function.update s.vars.nextf b (s.os s.log.length) := by
  rw [vars_afterMorecore hret]

/-- The first of several blocks is linked to the second. -/
theorem afterMorecore_load32 {s : Machine Statics} {b : Fin nbuckets} (hb : b.val < 29)
    (hret : s.os s.log.length ≠ sbrkFailed)
    (hfit : (s.os s.log.length).toNat + grant b ≤ 2 ^ 32) (htwo : 2 ≤ nblks b) :
    (afterMorecore s b).mem.load32 (s.os s.log.length)
      = s.os s.log.length + UInt32.ofNat (room b) := by
  have hlink := afterMorecore_threaded hb hret hfit
  obtain ⟨k, hk⟩ : ∃ k, nblks b = k + 1 + 1 := ⟨nblks b - 2, by omega⟩
  rw [hk, tiles, tiles] at hlink
  exact hlink.tail.head_cons

/-- An empty bucket is served with the first block of its new region. -/
theorem taken_carved {s : Machine Statics} {b : Fin nbuckets} (hnull : s.vars.nextf b = null)
    (hret : s.os s.log.length ≠ sbrkFailed) (hbase : s.os s.log.length ≠ null) :
    taken s b = (s.os s.log.length + overheadSize, unlinked (afterMorecore s b) b) := by
  have hhead : (afterMorecore s b).vars.nextf b = s.os s.log.length := by
    rw [nextf_afterMorecore hret, Function.update_self]
  have hrefilled : refilled s b = afterMorecore s b := if_pos hnull
  rw [taken_of_ne hrefilled (by rwa [hhead]), hhead]

/-- A refused `morecore` changes nothing but the log. -/
theorem afterMorecore_refused {s : Machine Statics} {b : Fin nbuckets}
    (hret : s.os s.log.length = sbrkFailed) :
    afterMorecore s b = { s with log := s.log ++ [growCall b sbrkFailed] } := by
  rw [afterMorecore, if_pos hret, hret]
  simp [Machine.afterSbrk, growCall]

/-- `sbrk` will refuse the next `morecore(b)`, and bucket `b` is empty. -/
def Refused (s : Machine Statics) (b : Fin nbuckets) : Prop :=
  s.vars.nextf b = null ∧ s.os s.log.length = sbrkFailed

namespace Owns

variable {s : Machine Statics} {live : List Handle} {S : Stock Block.bucket}
  {x y : Block}

/-! ## Where the blocks are -/

theorem size_ge (h : Owns s live S) (hx : S.Has x) : 8 ≤ x.size := by
  obtain ⟨hb, hsize⟩ := h.size x ((h.has x).mp hx)
  rw [hsize]
  exact (room_bounds hb).1

theorem extents (h : Owns s live S) : (carved s.log).Pairwise Block.Apart ∧
    ∀ x ∈ carved s.log, 0 < x.addr.toNat ∧ x.addr.toNat + x.size ≤ 2 ^ 32 := by
  refine carved_pairwise h.fresh fun x hx => ?_
  have := h.size_ge ((h.has x).mpr hx)
  omega

theorem inside (h : Owns s live S) (hx : S.Has x) :
    0 < x.addr.toNat ∧ x.addr.toNat + x.size ≤ 2 ^ 32 :=
  h.extents.2 x ((h.has x).mp hx)

theorem apart (h : Owns s live S) (hx : S.Has x) (hy : S.Has y) (hne : x ≠ y) :
    x.Apart y :=
  h.extents.1.forall ((h.has x).mp hx) ((h.has y).mp hy) hne

theorem ptr_toNat (h : Owns s live S) (hx : S.Has x) :
    x.ptr.toNat = x.addr.toNat + 4 := by
  have := h.inside hx
  have := h.size_ge hx
  exact Mem.toNat_add_ofNat (k := 4) (by omega)

theorem ptr_ne_null (h : Owns s live S) (hx : S.Has x) : x.ptr ≠ null := by
  intro heq
  have := h.ptr_toNat hx
  rw [heq] at this
  simp at this

theorem ptr_sub (x : Block) : x.ptr - overheadSize = x.addr := UInt32.add_sub_cancel ..

theorem ptr_inj (h : Owns s live S) (hx : S.Has x) (hy : S.Has y)
    (heq : x.ptr = y.ptr) : x = y := by
  by_contra hne
  have hapart := h.apart hx hy hne
  have := h.size_ge hx
  have := h.size_ge hy
  have hadd : x.addr = y.addr := (UInt32.add_left_inj _).mp heq
  rw [Block.Apart, hadd] at hapart
  omega

theorem notMem_held (h : Owns s live S) {b : Fin nbuckets} (hx : x ∈ S.parked b) :
    ¬ Held live x.ptr := by
  rintro ⟨e, he, heq⟩
  have hmem : x.ptr ∈ S.held.map Block.ptr := by
    rw [← h.held, ← heq]
    exact List.mem_map_of_mem he
  obtain ⟨y, hy, hptr⟩ := List.mem_map.mp hmem
  cases h.ptr_inj (.inl hy) (Stock.has_of_parked hx) hptr
  exact S.apart b x hx hy

/-- A pointer the client holds belongs to a block in use. -/
theorem exists_held (h : Owns s live S) {cp : UInt32} (hcp : Held live cp) :
    ∃ x ∈ S.held, x.ptr = cp := by
  obtain ⟨e, he, rfl⟩ := hcp
  have hmem : e.ptr ∈ S.held.map Block.ptr := by
    rw [← h.held]
    exact List.mem_map_of_mem he
  exact List.mem_map.mp hmem

/-! ## Frames -/

/-- A change of memory that spares the headers changes nothing. -/
theorem frame (h : Owns s live S) {m : Mem} {lo len : Nat}
    (hm : Mem.SameOutside s.mem m lo len)
    (hout : ∀ x, S.Has x → x.addr.toNat + 4 ≤ lo ∨ lo + len ≤ x.addr.toNat) :
    Owns { s with mem := m } live S where
  chain := by
    intro b
    refine (h.chain b).congr fun a ha => ?_
    obtain ⟨x, hx, rfl⟩ := List.mem_map.mp ha
    have hhas := Stock.has_of_parked hx
    have := h.inside hhas
    have := h.size_ge hhas
    exact hm.load32 (by omega) (hout x hhas)
  held := h.held
  header := by
    intro x hx
    have := h.inside (.inl hx)
    have := h.size_ge (.inl hx)
    have := hout x (.inl hx)
    have h1 := (@Mem.toNat_bytes x.addr (by omega)).1
    simpa only [hm x.addr (by omega), hm (x.addr + 1) (by omega)] using h.header x hx
  has := h.has
  size := h.size
  fresh := h.fresh

/-- A block's payload holds no header. -/
theorem payload_frame (h : Owns s live S) (hx : S.Has x) {m : Mem} (off : Nat) {k : Nat}
    (hm : Mem.SameOutside s.mem m (x.ptr.toNat + off) k)
    (hfit : off + k + 4 ≤ x.size) : Owns { s with mem := m } live S := by
  refine h.frame hm fun y hy => ?_
  rw [h.ptr_toNat hx]
  have := h.inside hy
  by_cases hne : x = y
  · subst hne
    omega
  · have := h.size_ge hy
    rcases h.apart hx hy hne with hlt | hlt
    · exact .inr (by omega)
    · exact .inl (by omega)

/-- Blocks other than the one whose header was written keep their headers. -/
theorem other (h : Owns s live S) (hx : S.Has x) {m : Mem}
    (hm : Mem.SameOutside s.mem m x.addr.toNat 4) (hy : S.Has y) (hne : y ≠ x) :
    m.load32 y.addr = s.mem.load32 y.addr ∧ m y.addr = s.mem y.addr ∧
      m (y.addr + 1) = s.mem (y.addr + 1) := by
  have := h.inside hy
  have := h.size_ge hy
  have := h.size_ge hx
  have hapart := h.apart hy hx hne
  rw [Block.Apart] at hapart
  have h1 := (@Mem.toNat_bytes y.addr (by omega)).1
  exact ⟨hm.load32 (by omega) (by omega), hm _ (by omega), hm _ (by omega)⟩

/-! ## The moves -/

theorem takeBack_held (h : Owns s live S) (hx : x ∈ S.held) :
    (takeBack x.ptr live).map Handle.ptr = (S.give hx).held.map Block.ptr := by
  have hleft : (takeBack x.ptr live).map Handle.ptr
      = (live.map Handle.ptr).filter (· ≠ x.ptr) := by
    rw [takeBack, List.filter_map]
    rfl
  rw [hleft, h.held, List.filter_map, Stock.give_held]
  refine congrArg (List.map Block.ptr) (List.filter_congr fun y hy => ?_)
  have hiff : y.ptr = x.ptr ↔ y = x :=
    ⟨h.ptr_inj (.inl hy) (.inl hx), fun heq => heq ▸ rfl⟩
  simp [hiff]

/-- **Freeing** a block in use gives it to the stock. -/
theorem pushed (h : Owns s live S) (hx : x ∈ S.held) :
    Owns (Port.pushed s x.bucket x.addr) (takeBack x.ptr live) (S.give hx) := by
  have hin := h.inside (.inl hx)
  have hge := h.size_ge (.inl hx)
  have hm := Mem.store32_same s.mem (s.vars.nextf x.bucket) (a := x.addr) (by omega)
  have hlist (b : Fin nbuckets) :
      Chain (s.mem.store32 x.addr (s.vars.nextf x.bucket)).load32 null (s.vars.nextf b)
        ((S.parked b).map Block.addr) := by
    refine (h.chain b).congr fun a ha => ?_
    obtain ⟨y, hy, rfl⟩ := List.mem_map.mp ha
    have hne : y ≠ x := by
      rintro rfl
      exact S.apart b y hy hx
    exact (h.other (.inl hx) hm (Stock.has_of_parked hy) hne).1
  refine ⟨fun b => ?_, h.takeBack_held hx, fun y hy => ?_, fun y => ?_, h.size, h.fresh⟩
  · by_cases hb : b = x.bucket
    · subst hb
      have hne : x.addr ≠ null := by
        intro heq
        rw [heq] at hin
        simp at hin
      simp only [Port.pushed, withNextf_nextf, withNextf_mem, Function.update_self,
        Stock.give, List.map_cons]
      refine .cons hne ?_
      rw [Mem.store32_load32 _ _ (by omega)]
      exact hlist x.bucket
    · simp only [Port.pushed, withNextf_nextf, withNextf_mem, Function.update_of_ne hb,
        Stock.give]
      exact hlist b
  · rw [Stock.give_held, List.mem_filter] at hy
    have hne : y ≠ x := by simpa using hy.2
    obtain ⟨_, h0, h1⟩ := h.other (.inl hx) hm (.inl hy.1) hne
    simpa only [Port.pushed, withNextf_mem, h0, h1] using h.header y hy.1
  · rw [Stock.has_give]
    exact h.has y

theorem nextf_eq (h : Owns s live S) {b : Fin nbuckets} {rest : List Block}
    (hp : S.parked b = x :: rest) : s.vars.nextf b = x.addr := by
  have hc := h.chain b
  rw [hp] at hc
  exact hc.head_cons

theorem nextf_null (h : Owns s live S) {b : Fin nbuckets} :
    s.vars.nextf b = null ↔ S.parked b = [] := by
  rw [(h.chain b).eq_null_iff, List.map_eq_nil_iff]

/-- **Unlinking** the first block of a bucket takes it from the stock. -/
theorem unlinked (h : Owns s live S) {b : Fin nbuckets} {rest : List Block}
    (hp : S.parked b = x :: rest) (n : UInt32) :
    Owns (Port.unlinked s b) (⟨x.ptr, n⟩ :: live) (S.take hp) := by
  have hx : x ∈ S.parked b := by simp [hp]
  have hhas := Stock.has_of_parked hx
  have hin := h.inside hhas
  have hge := h.size_ge hhas
  have hcls : x.bucket = b := S.parked_cls b x hx
  have hm := unlinked_same (h.nextf_eq hp) (by omega)
  have hnd := S.parked_nodup b
  rw [hp, List.nodup_cons] at hnd
  -- only the header of `x` changes, so lists without `x` stay
  have hlist (c : Fin nbuckets) (q : UInt32) (l : List Block)
      (hc : Chain s.mem.load32 null q (l.map Block.addr)) (hl : ∀ y ∈ l, y ∈ S.parked c)
      (hxl : x ∉ l) : Chain (Port.unlinked s b).mem.load32 null q (l.map Block.addr) := by
    refine hc.congr fun a ha => ?_
    obtain ⟨y, hy, rfl⟩ := List.mem_map.mp ha
    have hne : y ≠ x := by
      rintro rfl
      exact hxl hy
    exact (h.other hhas hm (Stock.has_of_parked (hl y hy)) hne).1
  refine ⟨fun c => ?_, ?_, fun y hy => ?_, fun y => ?_, h.size, h.fresh⟩
  · by_cases hcb : c = b
    · subst hcb
      have htail := h.chain c
      rw [hp, List.map_cons] at htail
      have := hlist c _ rest htail.tail (fun y hy => by simp [hp, hy]) hnd.1
      simpa [Port.unlinked, Stock.take, h.nextf_eq hp] using this
    · have hxc : x ∉ S.parked c := by
        intro hmem
        exact hcb ((S.parked_cls c x hmem).symm.trans hcls)
      have := hlist c _ _ (h.chain c) (fun y hy => hy) hxc
      simpa [Port.unlinked, Stock.take, Function.update_of_ne hcb] using this
  · simp [h.held]
  · rw [Stock.take_held, List.mem_cons] at hy
    rcases hy with rfl | hy
    · -- the two stores are the header of a block in use
      rw [hcls]
      exact unlinked_header (h.nextf_eq hp) (by omega)
    · have hne : y ≠ x := by
        rintro rfl
        exact S.apart b y hx hy
      obtain ⟨_, h0, h1⟩ := h.other hhas hm (.inl hy) hne
      rw [h0, h1]
      exact h.header y hy
  · rw [Stock.has_take]
    exact h.has y

/-! ## `morecore` -/

section Morecore

variable {b : Fin nbuckets} {ret : UInt32}

/-- On fresh memory the carved blocks are a list in a region that no older
block touches. -/
theorem carved_region (h : Owns s live S) (hb : b.val < 29) (hret : ret ≠ sbrkFailed)
    (hfresh : Fresh (s.log ++ [growCall b ret])) :
    0 < ret.toNat ∧ ret.toNat + grant b ≤ 2 ^ 32 ∧
      (∀ x, S.Has x → x.addr.toNat + x.size ≤ ret.toNat ∨
        ret.toNat + grant b ≤ x.addr.toNat) := by
  have hgrants : (growCall b ret).Grants := ⟨⟨_, rfl⟩, hret⟩
  obtain ⟨hpos, hfit⟩ := hfresh.inside (growCall b ret) (by simp) hgrants
  rw [growCall_amt hb] at hfit
  refine ⟨hpos, hfit, fun x hx => ?_⟩
  obtain ⟨c, hc, hxc⟩ := List.mem_flatMap.mp ((h.has x).mp hx)
  have hgc := grants_of_mem hxc
  have hcfit := h.fresh.inside c hc hgc
  have hin := block_inside hxc (by have := h.size_ge hx; omega) hcfit.2
  have hapart := (List.pairwise_append.mp hfresh.apart).2.2 c hc (growCall b ret)
    (by simp) hgc hgrants
  rw [SbrkCall.Apart, growCall_amt hb] at hapart
  simp only [growCall] at hapart
  omega

theorem newBlocks_new (h : Owns s live S) (hb : b.val < 29) (hret : ret ≠ sbrkFailed)
    (hfresh : Fresh (s.log ++ [growCall b ret])) :
    (newBlocks b ret).Nodup ∧ ∀ x ∈ newBlocks b ret, ¬ S.Has x := by
  have hblocks : (growCall b ret).blocks = newBlocks b ret := by
    rw [growCall_blocks hb, if_neg hret]
  have hge : ∀ x ∈ newBlocks b ret, 8 ≤ x.size := by
    intro x hx
    rw [(mem_newBlocks hx).2]
    exact (room_bounds hb).1
  have hsize : ∀ x ∈ carved (s.log ++ [growCall b ret]), 1 ≤ x.size := by
    intro x hx
    rw [carved_snoc, hblocks, List.mem_append] at hx
    rcases hx with hx | hx
    · have := h.size_ge ((h.has x).mpr hx)
      omega
    · have := hge x hx
      omega
  have hpair := (carved_pairwise hfresh hsize).1
  rw [carved_snoc, hblocks, List.pairwise_append] at hpair
  refine ⟨hpair.2.1.imp_of_mem fun {x y} hx _ hapart => ?_, fun x hx hhas => ?_⟩
  · rintro rfl
    have := hge x hx
    rw [Block.Apart] at hapart
    omega
  · have hapart := hpair.2.2 x ((h.has x).mp hhas) x hx
    have := hge x hx
    rw [Block.Apart] at hapart
    omega

/-- **Carving** a fresh region fills the empty stack of its class. -/
theorem carve (h : Owns s live S) (hb : b.val < 29)
    (hfresh : Fresh (afterMorecore s b).log) (hret : s.os s.log.length ≠ sbrkFailed)
    (hempty : S.parked b = []) (hcls : ∀ x ∈ newBlocks b (s.os s.log.length), x.bucket = b)
    (hnd : (newBlocks b (s.os s.log.length)).Nodup)
    (hnew : ∀ x ∈ newBlocks b (s.os s.log.length), ¬ S.Has x) :
    Owns (afterMorecore s b) live (S.fill hcls hnd hnew) := by
  have hlog := log_afterMorecore s b
  rw [hlog] at hfresh
  obtain ⟨hpos, hfit, hout⟩ := h.carved_region hb hret hfresh
  -- the blocks there were lie outside the region
  have hold : Owns { s with mem := (afterMorecore s b).mem } live S := by
    refine h.frame (afterMorecore_same hb hret hfit) fun x hx => ?_
    have := hout x hx
    have := h.size_ge hx
    omega
  have hnull := zero_notMem_tiles (room_pos hb) hpos (tiles_fit hb hfit)
  have hchain := (afterMorecore_threaded hb hret hfit).chain hnull
  refine ⟨fun c => ?_, h.held, hold.header, fun x => ?_, fun x hx => ?_, hlog ▸ hfresh⟩
  · rw [nextf_afterMorecore hret]
    by_cases hcb : c = b
    · subst hcb
      simpa [newBlocks, Function.comp_def] using hchain
    · simpa [Stock.fill, Function.update_of_ne hcb] using hold.chain c
  · rw [Stock.has_fill hcls hnd hnew hempty, h.has x, hlog, carved_snoc, growCall_blocks hb,
      if_neg hret, List.mem_append]
  · rw [hlog, carved_snoc, growCall_blocks hb, if_neg hret, List.mem_append] at hx
    rcases hx with hx | hx
    · exact h.size x hx
    · obtain ⟨hbucket, hsize⟩ := mem_newBlocks hx
      rw [hbucket]
      exact ⟨hb, hsize⟩

theorem refused (h : Owns s live S) (hb : b.val < 29)
    (hfresh : Fresh (afterMorecore s b).log) (hret : s.os s.log.length = sbrkFailed) :
    Owns (afterMorecore s b) live S := by
  have hcarved : carved (afterMorecore s b).log = carved s.log := by
    rw [log_afterMorecore, hret, carved_snoc, growCall_blocks hb, if_pos rfl, List.append_nil]
  refine ⟨?_, h.held, ?_, ?_, ?_, hfresh⟩
  · rw [afterMorecore_refused hret]
    exact h.chain
  · rw [afterMorecore_refused hret]
    exact h.header
  · rw [hcarved]
    exact h.has
  · rw [hcarved]
    exact h.size

end Morecore

/-! ## Serving a request -/

/-- What a request to bucket `b` meets: a block of the bucket, a `sbrk` that
refuses, or a new region. -/
inductive Taking (s : Machine Statics) (live : List Handle) (S : Stock Block.bucket)
    (b : Fin nbuckets) : Prop
  | hit {x : Block} {rest : List Block} (hp : S.parked b = x :: rest)
      (hne : s.vars.nextf b ≠ null) (htaken : Port.taken s b = (x.ptr, Port.unlinked s b))
  | refuse (hp : S.parked b = []) (hrefused : Refused s b)
      (hmem : (afterMorecore s b).mem = s.mem) (howns : Owns (afterMorecore s b) live S)
      (htaken : Port.taken s b = (null, afterMorecore s b))
  | refill {x : Block} {rest : List Block} (hp : S.parked b = [])
      (hnull : s.vars.nextf b = null) (hret : s.os s.log.length ≠ sbrkFailed)
      (hfresh : Fresh (s.log ++ [growCall b (s.os s.log.length)]))
      (hblocks : newBlocks b (s.os s.log.length) = x :: rest)
      (hcls : ∀ y ∈ x :: rest, y.bucket = b) (hnd : (x :: rest).Nodup)
      (hnew : ∀ y ∈ x :: rest, ¬ S.Has y)
      (howns : Owns (afterMorecore s b) live (S.fill hcls hnd hnew))
      (htaken : Port.taken s b = (x.ptr, Port.unlinked (afterMorecore s b) b))

theorem taking (h : Owns s live S) {b : Fin nbuckets} (hb : b.val < 29)
    (hfresh : Fresh (Port.taken s b).2.log) : Taking s live S b := by
  rw [log_taken] at hfresh
  cases hp : S.parked b with
  | cons x rest =>
      have hne : s.vars.nextf b ≠ null := by
        rw [Ne, h.nextf_null, hp]
        simp
      apply Taking.hit hp hne
      rw [taken_of_ne (if_neg hne) hne, h.nextf_eq hp]
      rfl
  | nil =>
      have hnextf : s.vars.nextf b = null := h.nextf_null.mpr hp
      have hrefilled : refilled s b = afterMorecore s b := if_pos hnextf
      rw [hrefilled] at hfresh
      by_cases hret : s.os s.log.length = sbrkFailed
      · have howns := h.refused hb hfresh hret
        have hmem : (afterMorecore s b).mem = s.mem := by
          rw [afterMorecore_refused hret]
        apply Taking.refuse hp ⟨hnextf, hret⟩ hmem howns
        rw [Port.taken, hrefilled, if_pos (howns.nextf_null.mpr hp)]
      · have hlog := log_afterMorecore s b ▸ hfresh
        obtain ⟨hnd, hnew⟩ := h.newBlocks_new hb hret hlog
        have hcls : ∀ x ∈ newBlocks b (s.os s.log.length), x.bucket = b :=
          fun x hx => (mem_newBlocks hx).1
        have howns := h.carve hb hfresh hret hp hcls hnd hnew
        have hlen : (newBlocks b (s.os s.log.length)).length = nblks b := by
          simp [newBlocks]
        -- a region has at least one block, and the first one is served
        cases hblocks : newBlocks b (s.os s.log.length) with
        | nil =>
            have := nblks_pos b
            rw [hblocks] at hlen
            simp at hlen
            omega
        | cons x rest =>
            simp only [hblocks] at hcls hnd hnew howns
            have hparked := Stock.fill_parked hcls hnd hnew
            have hne : ¬ (afterMorecore s b).vars.nextf b = null := by
              rw [howns.nextf_null, hparked]
              simp
            apply Taking.refill hp hnextf hret hlog hblocks hcls hnd hnew howns
            rw [taken_of_ne hrefilled hne, howns.nextf_eq hparked]
            rfl

/-- **Serving** a request from bucket `b`: a block of the bucket, or null when
the bucket is empty and `sbrk` refuses. -/
theorem taken (h : Owns s live S) {b : Fin nbuckets} (hb : b.val < 29)
    (hfresh : Fresh (taken s b).2.log) (n : UInt32) :
    ∃ o S', Stock.Serve S b o S' ∧ (Port.taken s b).1 = o.elim null Block.ptr ∧
      Owns (Port.taken s b).2 (handOut (Port.taken s b).1 n live) S' ∧
      (∀ x, o = some x → x.bucket = b ∧ x ∈ S'.held ∧ x ∉ S.held) ∧
      (S.parked b = [] → (S'.parked b).length ≤ nblks b - 1) ∧
      (o = none ↔ Refused s b) := by
  cases h.taking hb hfresh with
  | @hit x rest hp hne htaken =>
      have hx : x ∈ S.parked b := hp ▸ List.mem_cons_self
      rw [htaken]
      refine ⟨some x, S.take hp, .hit hp, rfl, ?_, ?_, by simp [hp],
        iff_of_false (by simp) fun hrefused => hne hrefused.1⟩
      · rw [handOut_ne (h.ptr_ne_null (Stock.has_of_parked hx))]
        exact h.unlinked hp n
      · rintro _ ⟨⟩
        exact ⟨S.parked_cls b x hx, by simp, fun hheld => S.apart b x hx hheld⟩
  | refuse hp hrefused _ howns htaken =>
      rw [htaken, handOut_null]
      exact ⟨none, S, .refuse hp, rfl, howns, by simp, by simp [hp], iff_of_true rfl hrefused⟩
  | @refill x rest hp _ hret _ hblocks hcls hnd hnew howns htaken =>
      have hparked := Stock.fill_parked hcls hnd hnew
      have hx : x ∈ (S.fill hcls hnd hnew).parked b := by
        rw [hparked]
        exact List.mem_cons_self
      have hlen := congrArg List.length hblocks
      rw [htaken]
      refine ⟨some x, _, .refill hp hcls hnd hnew, rfl, ?_, ?_, fun _ => ?_,
        iff_of_false (by simp) fun hrefused => hret hrefused.2⟩
      · rw [handOut_ne (howns.ptr_ne_null (Stock.has_of_parked hx))]
        exact howns.unlinked hparked n
      · rintro _ ⟨⟩
        exact ⟨hcls x (by simp), by simp, fun hheld => hnew x (by simp) (.inl hheld)⟩
      · simp only [Stock.take, Function.update_self]
        simp [newBlocks] at hlen
        omega

end Owns

end Challenges.Kmalloc

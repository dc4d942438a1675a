import Challenges.Kmalloc.Simulation

/-!
# Carve — what `morecore` makes of a region

One call of `morecore(b)`, from any machine whose page size is set: `NEXTF[b]`
becomes the list of the blocks that the region at hand is cut into, and the
rest of the machine is as before. The facts about the addresses come first;
they are the tiles of the region, at the sizes of the bucket table.
-/

namespace Challenges.Kmalloc

open Challenges.Lib Challenges.Kmalloc.Port

/-! ## The blocks of a region -/

section Region

variable {base : UInt32} {b : Nat}

/-- The blocks of bucket `b` in the region at `base`: each `2^(b+3)` bytes
after the one before it. -/
def blockAddrs (base : UInt32) (b : Nat) : List UInt32 :=
  (List.range (nblks b)).map fun j => base + UInt32.ofNat (j * 2 ^ (b + 3))

/-- A block has the room of its class, and below the page size no more. -/
theorem room_numbers (hb : b < 28) : 2 ^ (b + 3) ≤ room b ∧
    (2 ^ (b + 3) < 4096 → room b = 2 ^ (b + 3)) ∧ (4096 ≤ 2 ^ (b + 3) → nblks b = 1) := by
  have h : ∀ b : Fin 28, 2 ^ (b.val + 3) ≤ room b ∧
      (2 ^ (b.val + 3) < 4096 → room b = 2 ^ (b.val + 3)) ∧
      (4096 ≤ 2 ^ (b.val + 3) → nblks b = 1) := by decide
  exact h ⟨b, hb⟩

theorem blockAddrs_eq (base : UInt32) (hb : b < 28) :
    blockAddrs base b = tiles base (UInt32.ofNat (room b)) (nblks b) := by
  obtain ⟨_, hsmall, hlarge⟩ := room_numbers hb
  rw [blockAddrs, tiles_eq_map, toNat_room (by omega)]
  rcases Nat.lt_or_ge (2 ^ (b + 3)) 4096 with h | h
  · rw [hsmall h]
  · -- the one block of a large class is at the base
    rw [hlarge h]
    simp

theorem blockAddrs_ascending (hb : b < 28) (hfit : base.toNat + grant b ≤ 2 ^ 32) :
    (blockAddrs base b).Pairwise fun x y => x.toNat + 2 ^ (b + 3) ≤ y.toNat := by
  have hb' : b < 29 := by omega
  rw [blockAddrs_eq base hb]
  apply (tiles_pairwise (room_pos hb') (tiles_fit hb' hfit)).imp
  intro x y hxy
  have := (room_numbers hb).1
  rw [toNat_room hb'] at hxy
  omega

theorem blockAddrs_inside (hb : b < 28) (hfit : base.toNat + grant b ≤ 2 ^ 32) {x : UInt32}
    (hx : x ∈ blockAddrs base b) :
    base.toNat ≤ x.toNat ∧ x.toNat + 2 ^ (b + 3) ≤ base.toNat + grant b := by
  have hb' : b < 29 := by omega
  rw [blockAddrs_eq base hb] at hx
  obtain ⟨j, hj, hx⟩ := (mem_tiles (room_pos hb') (tiles_fit hb' hfit)).mp hx
  have hlast : (j + 1) * room b ≤ nblks b * room b := Nat.mul_le_mul_right _ hj
  rw [Nat.mul_comm (nblks b), (room_bounds hb').2.1, Nat.succ_mul] at hlast
  rw [toNat_room hb'] at hx
  have := (room_numbers hb).1
  omega

/-- Below the page size no byte of the region is left over. -/
theorem blockAddrs_cover (hb : b < 28) (hfit : base.toNat + grant b ≤ 2 ^ 32)
    (hsmall : 2 ^ (b + 3) < 4096) {a : Nat} (hlo : base.toNat ≤ a)
    (hhi : a < base.toNat + grant b) :
    ∃ x ∈ blockAddrs base b, x.toNat ≤ a ∧ a < x.toNat + 2 ^ (b + 3) := by
  have hb' : b < 29 := by omega
  rw [← tiles_region hb'] at hhi
  obtain ⟨x, hx, hbelow, habove⟩ := tiles_cover (room_pos hb') (tiles_fit hb' hfit) hlo hhi
  rw [toNat_room hb', (room_numbers hb).2.1 hsmall] at habove
  rw [blockAddrs_eq base hb]
  exact ⟨x, hx, hbelow, habove⟩

theorem null_notMem_blockAddrs (hb : b < 28) (hfit : base.toNat + grant b ≤ 2 ^ 32)
    (hbase : base ≠ null) : null ∉ blockAddrs base b := by
  have hb' : b < 29 := by omega
  have hpos : 0 < base.toNat := by
    rw [Nat.pos_iff_ne_zero]
    exact fun hzero => hbase (UInt32.toNat_inj.mp hzero)
  rw [blockAddrs_eq base hb]
  exact zero_notMem_tiles (room_pos hb') hpos (tiles_fit hb' hfit)

/-- A region that ends inside the address space is not the failure of `sbrk`. -/
theorem ne_sbrkFailed (hb : b < 28) (hfit : base.toNat + grant b ≤ 2 ^ 32) :
    base ≠ sbrkFailed := by
  rintro rfl
  have hb' : b < 29 := by omega
  have hle := room_le_grant hb'
  have hroom := (room_bounds hb').1
  have hmax : sbrkFailed.toNat = 2 ^ 32 - 1 := rfl
  omega

end Region

/-! ## The list -/

/-- What `morecore(b)` leaves behind when `sbrk` has handed it the region at
`base`: the memory and the list heads, before and after. A region at address
0 is cut like any other, but its first block reads as null, so only the links
are then a list. -/
structure Carved (mem mem' : Mem) (heads heads' : Fin nbuckets → UInt32) (b : Fin nbuckets)
    (base : UInt32) : Prop where
  threaded : Threaded mem'.load32 null (heads' b) (blockAddrs base b)
  chain : base ≠ null → Chain mem'.load32 null (heads' b) (blockAddrs base b)
  count : (blockAddrs base b).length = max 1 (4096 / 2 ^ (b.val + 3))
  ascending : (blockAddrs base b).Pairwise fun x y => x.toNat + 2 ^ (b.val + 3) ≤ y.toNat
  inside : ∀ x ∈ blockAddrs base b,
    base.toNat ≤ x.toNat ∧ x.toNat + 2 ^ (b.val + 3) ≤ base.toNat + grant b
  cover : 2 ^ (b.val + 3) < 4096 → ∀ a, base.toNat ≤ a → a < base.toNat + grant b →
    ∃ x ∈ blockAddrs base b, x.toNat ≤ a ∧ a < x.toNat + 2 ^ (b.val + 3)
  outside : Mem.SameOutside mem mem' base.toNat (grant b)
  heads_ne : ∀ c ≠ b, heads' c = heads c
  others : ∀ c ≠ b, ∀ l : List UInt32, (∀ x ∈ l, x.toNat + 4 ≤ 2 ^ 32 ∧
      (x.toNat + 4 ≤ base.toNat ∨ base.toNat + grant b ≤ x.toNat)) →
    (Chain mem'.load32 null (heads' c) l ↔ Chain mem.load32 null (heads c) l)

variable {s : Machine Statics} {b : Fin nbuckets}

theorem afterMorecore_linked (hb : b.val < 28)
    (hfit : (s.os s.log.length).toNat + grant b ≤ 2 ^ 32) :
    Threaded (afterMorecore s b).mem.load32 null ((afterMorecore s b).vars.nextf b)
      (blockAddrs (s.os s.log.length) b) := by
  have hret := ne_sbrkFailed hb hfit
  rw [nextf_afterMorecore hret, Function.update_self, blockAddrs_eq _ hb]
  exact afterMorecore_threaded (by omega) hret hfit

/-- A list whose nodes lie outside the region is the list it was. -/
theorem afterMorecore_others (hb : b.val < 28)
    (hfit : (s.os s.log.length).toNat + grant b ≤ 2 ^ 32) {h : UInt32} {l : List UInt32}
    (hl : ∀ x ∈ l, x.toNat + 4 ≤ 2 ^ 32 ∧ (x.toNat + 4 ≤ (s.os s.log.length).toNat ∨
      (s.os s.log.length).toNat + grant b ≤ x.toNat)) :
    Chain (afterMorecore s b).mem.load32 null h l ↔ Chain s.mem.load32 null h l := by
  have hsame := afterMorecore_same (show b.val < 29 by omega) (ne_sbrkFailed hb hfit) hfit
  have hload : ∀ x ∈ l, (afterMorecore s b).mem.load32 x = s.mem.load32 x :=
    fun x hx => hsame.load32 (hl x hx).1 (hl x hx).2
  constructor
  · exact fun hc => hc.congr fun x hx => (hload x hx).symm
  · exact fun hc => hc.congr hload

/-- **Carving**: the region becomes the list of bucket `b`. -/
theorem afterMorecore_carved (hb : b.val < 28)
    (hfit : (s.os s.log.length).toNat + grant b ≤ 2 ^ 32) :
    Carved s.mem (afterMorecore s b).mem s.vars.nextf (afterMorecore s b).vars.nextf b
      (s.os s.log.length) where
  threaded := afterMorecore_linked hb hfit
  chain := fun hbase =>
    (afterMorecore_linked hb hfit).chain (null_notMem_blockAddrs hb hfit hbase)
  count := by simp [blockAddrs, nblks]
  ascending := blockAddrs_ascending hb hfit
  inside := fun _ hx => blockAddrs_inside hb hfit hx
  cover := fun hsmall _ hlo hhi => blockAddrs_cover hb hfit hsmall hlo hhi
  outside := afterMorecore_same (by omega) (ne_sbrkFailed hb hfit) hfit
  heads_ne := by
    intro c hc
    rw [nextf_afterMorecore (ne_sbrkFailed hb hfit), Function.update_of_ne hc]
  others := by
    intro c hc l hl
    rw [nextf_afterMorecore (ne_sbrkFailed hb hfit), Function.update_of_ne hc]
    exact afterMorecore_others hb hfit hl

/-! ## The theorem -/

/-- In a build that wraps, the `debug` feature adds an assertion that holds. -/
theorem morecore_wrapping {debug : Bool} {b : Nat} (hb : b < 28) :
    morecore ⟨debug, false⟩ (Int32.ofNat b) = morecore release (Int32.ofNat b) := by
  have hadd : (Build.addI32 ⟨debug, false⟩ (Int32.ofNat b) 3 : M Statics Int32)
      = pure (Int32.ofNat b + 3) := rfl
  have hshl : (Build.shlOneI32 ⟨debug, false⟩ (Int32.ofNat b + 3) : M Statics Int32)
      = pure ((1 : UInt32) <<< (Int32.ofNat b + 3).toUInt32).toInt32 := rfl
  have hassert : (Build.kassert ⟨debug, false⟩ (decide
      (((1 : UInt32) <<< (Int32.ofNat b + 3).toUInt32).toInt32 > 0)) : M Statics Unit)
        = pure () := by
    rw [decide_eq_true (blockSize_pos hb)]
    cases debug <;> rfl
  simp only [morecore, hadd, hshl, hassert, release_addI32, release_shlOneI32, release_kassert,
    pure_bind]
  rfl

/-- **`morecore` carves a region exactly.** One call asks `sbrk` for one region.
When it is refused, the machine is as before. When the region fits in the
address space, `NEXTF[b]` is the list of its blocks, and every other list and
every byte outside the region is as before. -/
theorem morecore_carves {debug : Bool} (hb : b.val ≤ 27) (hpage : s.vars.pageSz = 4096) :
    ∃ t, (morecore ⟨debug, false⟩ (Int32.ofNat b)).run s = .ok ((), t) ∧
      (s.os s.log.length = sbrkFailed →
        t = { s with log := s.log ++ [growCall b sbrkFailed] }) ∧
      ((s.os s.log.length).toNat + grant b ≤ 2 ^ 32 →
        t.log = s.log ++ [growCall b (s.os s.log.length)] ∧
        t.vars = { s.vars with
          nextf := Function.update s.vars.nextf b (s.os s.log.length) } ∧
        Carved s.mem t.mem s.vars.nextf t.vars.nextf b (s.os s.log.length)) := by
  have hrun := run_morecore (s := s) (b := b) (by omega) hpage
  rw [← @morecore_wrapping debug b (by omega)] at hrun
  refine ⟨afterMorecore s b, hrun, afterMorecore_refused, fun hfit => ?_⟩
  have hret := ne_sbrkFailed (by omega) hfit
  exact ⟨log_afterMorecore s b, vars_afterMorecore hret,
    afterMorecore_carved (by omega) hfit⟩

/-- A page of memory that was not zero, in blocks of 1024 bytes. -/
theorem morecore_carves_page : ∃ t,
    (morecore release 7).run ⟨fun _ => 0xff, fun _ => 0x10000, [], ⟨fun _ => null, 4096, 9⟩⟩
      = .ok ((), t) ∧
    Chain t.mem.load32 null (t.vars.nextf 7) [0x10000, 0x10400, 0x10800, 0x10c00] ∧
    t.vars.nextf 8 = null ∧ t.mem 0xffff = 0xff ∧ t.mem 0x11000 = 0xff := by
  obtain ⟨t, hrun, _, hgot⟩ := @morecore_carves
    ⟨fun _ => 0xff, fun _ => 0x10000, [], ⟨fun _ => null, 4096, 9⟩⟩ 7 false (by decide) rfl
  obtain ⟨_, _, h⟩ := hgot (by decide)
  have hblocks : blockAddrs 0x10000 7 = [0x10000, 0x10400, 0x10800, 0x10c00] := by decide
  have hchain := h.chain (by decide)
  rw [← hblocks]
  exact ⟨t, hrun, hchain, h.heads_ne 8 (by decide), h.outside _ (by decide),
    h.outside _ (by decide)⟩

/-! ## The original -/

/-- The port's machine on the memory, the system and the lists of the original. -/
def asPort (s : Machine Original.Statics) : Machine Statics :=
  { s with vars := ⟨s.vars.nextf, s.vars.pagesz.toUInt32, s.vars.pagebucket⟩ }

/-- The original's machine with what the port's machine holds. -/
def asOriginal (s : Machine Statics) : Machine Original.Statics :=
  { s with vars := ⟨s.vars.nextf, s.vars.pageSz.toInt32, s.vars.pageBucket⟩ }

theorem asPort_alike (s : Machine Original.Statics) : Alike True (asPort s) s :=
  ⟨rfl, rfl, rfl, rfl, rfl, fun _ => rfl⟩

theorem Alike.eq_asOriginal {s : Machine Statics} {t : Machine Original.Statics}
    (h : Alike True s t) : t = asOriginal s := by
  obtain ⟨mem, os, log, nextf, pagesz, pagebucket⟩ := t
  obtain ⟨rfl, rfl, rfl, rfl, rfl, hbucket⟩ := h
  cases hbucket trivial
  rfl

/-- **The original carves its region the same way**; for these buckets its
guard on the size of a block lets it through. -/
theorem original_carves {s : Machine Original.Statics} (hb : b.val ≤ 27)
    (hpage : s.vars.pagesz = 4096) :
    ∃ t, (Original.morecore (Int32.ofNat b)).run s = .ok ((), t) ∧
      (s.os s.log.length = sbrkFailed →
        t = { s with log := s.log ++ [growCall b sbrkFailed] }) ∧
      ((s.os s.log.length).toNat + grant b ≤ 2 ^ 32 →
        t.log = s.log ++ [growCall b (s.os s.log.length)] ∧
        t.vars = { s.vars with
          nextf := Function.update s.vars.nextf b (s.os s.log.length) } ∧
        Carved s.mem t.mem s.vars.nextf t.vars.nextf b (s.os s.log.length)) := by
  have hpage' : (asPort s).vars.pageSz = 4096 := congrArg Int32.toUInt32 hpage
  have hrun := run_morecore (b := b) (by omega) hpage'
  obtain ⟨_, t, hrun', _, h⟩ := (asPort_alike s).morecore (by omega) () _ hrun
  cases h.eq_asOriginal
  refine ⟨_, hrun', fun hret => ?_, fun hfit => ⟨log_afterMorecore (asPort s) b, ?_, ?_⟩⟩
  · rw [afterMorecore_refused hret]
    rfl
  · have hret : s.os s.log.length ≠ sbrkFailed := ne_sbrkFailed (show b.val < 28 by omega) hfit
    rw [asOriginal, vars_afterMorecore hret]
    rfl
  · exact @afterMorecore_carved (asPort s) b (by omega) hfit

end Challenges.Kmalloc

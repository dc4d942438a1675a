import Challenges.Kmalloc.Carve
import Challenges.Kmalloc.Compaction

/-!
# Stale — freed pointers, in the original

The original looks at the header before it frees a block or moves one, and
the header of a free block is a next pointer, which never looks like `MAGIC`.
So its client may hand it pointers that it has freed already: `kfree` does
nothing with them, and `krealloc` finds the block if it is one of the first
four of its list, and saves its bytes. The invariants of the heap hold in
all these runs.
-/

namespace Challenges.Kmalloc

open Challenges.Lib

/-! ## The client -/

/-- A system of the original, read as one of the port. -/
def portView (u : Sys Original.Statics) : Sys Port.Statics := ⟨asPort u.machine, u.live⟩

/-- `cp` points to a block, in use or not. -/
def Minted (log : List SbrkCall) (cp : UInt32) : Prop := ∃ x ∈ carved log, x.ptr = cp

/-- The block of `cp` is one of the first four of a free list. -/
def Recent (t : Machine Original.Statics) (cp : UInt32) : Prop :=
  ∃ b, cp - overheadSize ∈ walk t.mem.load32 null 4 (t.vars.nextf b)

/-- A client that does not know which of its pointers it has freed: it may free
any of them, and may move those that it has freed not long ago. -/
def Forgetful (u : Sys Original.Statics) : Call → Prop
  | .kmalloc n => n.toNat ≤ maxReq
  | .kfree cp => cp = null ∨ Minted u.machine.log cp
  | .realloc cp n => n.toNat ≤ maxReq ∧ (cp = null ∨ Held u.live cp ∨
      (Minted u.machine.log cp ∧ (n = 0 ∨ Recent u.machine cp)))
  | .write cp off _ => ∃ h ∈ u.live, h.ptr = cp ∧ off < h.req

instance (log : List SbrkCall) (cp : UInt32) : Decidable (Minted log cp) :=
  inferInstanceAs (Decidable (∃ x ∈ carved log, x.ptr = cp))

instance (t : Machine Original.Statics) (cp : UInt32) : Decidable (Recent t cp) :=
  inferInstanceAs (Decidable (∃ b, cp - overheadSize ∈ walk t.mem.load32 null 4 (t.vars.nextf b)))

instance (u : Sys Original.Statics) (c : Call) : Decidable (Forgetful u c) :=
  match c with
  | .kmalloc n => inferInstanceAs (Decidable (n.toNat ≤ maxReq))
  | .kfree cp => inferInstanceAs (Decidable (cp = null ∨ Minted u.machine.log cp))
  | .realloc cp n => inferInstanceAs (Decidable (n.toNat ≤ maxReq ∧ (cp = null ∨ Held u.live cp ∨
      (Minted u.machine.log cp ∧ (n = 0 ∨ Recent u.machine cp)))))
  | .write cp off _ => inferInstanceAs (Decidable (∃ h ∈ u.live, h.ptr = cp ∧ off < h.req))

/-! ## The invariant -/

/-- The system has a heap of the port with the same contents, which is well
formed. -/
structure Backed (brk₀ : Nat) (u : Sys Original.Statics) (a : Sys Port.Statics)
    (S : Stock Block.bucket) : Prop where
  linked : Linked a u
  sound : Sound a S
  shaped : Shaped a
  brk : BreakOk brk₀ a.machine.log

section Facts

variable {brk₀ fuel : Nat} {u v : Sys Original.Statics} {a : Sys Port.Statics}
  {S : Stock Block.bucket} {x : Block} {n r : UInt32}

theorem Backed.start (mem : Mem) (os : Nat → UInt32) :
    Backed brk₀ (Sys.start Original.Statics.initial mem os)
      (Sys.start Port.Statics.initial mem os) Stock.empty where
  linked := (Joint.start mem os).1
  sound := .start mem os
  shaped := fun hpage => absurd rfl hpage
  brk := ⟨rfl, by simp [InitOk, Sys.start]⟩

theorem Backed.log (h : Backed brk₀ u a S) : u.machine.log = a.machine.log := h.linked.alike.log

theorem Backed.mem (h : Backed brk₀ u a S) : u.machine.mem = a.machine.mem := h.linked.alike.mem

theorem Backed.has_iff (h : Backed brk₀ u a S) : S.Has x ↔ x ∈ carved u.machine.log := by
  rw [h.log]
  exact h.sound.1.owns.has x

theorem Backed.live (h : Backed brk₀ u a S) : u.live = a.live := h.linked.live

theorem Backed.held_iff (h : Backed brk₀ u a S) (hx : S.Has x) :
    Held u.live x.ptr ↔ x ∈ S.held := by
  rw [h.live]
  exact h.sound.1.held_iff hx

theorem Backed.header_iff (h : Backed brk₀ u a S) (hx : x ∈ carved u.machine.log) :
    u.machine.mem x.addr = magic ↔ Held u.live x.ptr := by
  rw [h.log] at hx
  rw [h.mem, h.live]
  exact h.sound.1.header_iff h.shaped h.brk hx

/-- What is owned in the one is owned in the other. -/
theorem Backed.owned (h : Backed brk₀ u a S) : Owned (portView u) := by
  have howned := h.sound.1.owned h.sound.2.1
  have hmem := h.mem
  have hlog := h.log
  have hlive := h.live
  have hnextf := h.linked.alike.nextf
  obtain ⟨⟨mem, os, log, nextf, pagesz, pagebucket⟩, live⟩ := u
  dsimp only at hmem hlog hlive hnextf
  subst hmem hlog hlive hnextf
  exact ⟨howned.finite, howned.acyclic, howned.sorted, howned.place, howned.header, howned.apart,
    howned.distinct, howned.disjoint⟩

/-- A pointer that is held is that of a block. -/
theorem Backed.carved_of_held (h : Backed brk₀ u a S) {cp : UInt32} (hcp : Held u.live cp) :
    Minted u.machine.log cp := by
  rw [h.live] at hcp
  obtain ⟨x, hx, hptr⟩ := h.sound.1.owns.exists_held hcp
  exact ⟨x, h.has_iff.mp (.inl hx), hptr⟩

/-- A block that is not in use is on the list of its bucket. -/
theorem Backed.parked (h : Backed brk₀ u a S) (hx : x ∈ carved u.machine.log)
    (hfree : ¬ Held u.live x.ptr) : x ∈ S.parked x.bucket := by
  have hhas := h.has_iff.mpr hx
  exact hhas.resolve_left fun hheld => hfree ((h.held_iff hhas).mpr hheld)

theorem Backed.pagesz (h : Backed brk₀ u a S) (hx : S.Has x) : u.machine.vars.pagesz = 4096 := by
  rw [h.linked.alike.page, h.sound.1.page hx]
  rfl

/-! ## A second `kfree` -/

/-- The header gives the block away. -/
theorem run_kfree_stale {t : Machine Original.Statics} {cp : UInt32} (hcp : cp ≠ null)
    (hmagic : t.mem (cp - overheadSize) ≠ magic) : (Original.kfree cp).run t = .ok ((), t) := by
  simp only [Original.kfree, hcp, if_false, StateT.run_bind, run_load8, ok_bind, ne_eq, hmagic,
    not_false_eq_true, if_true, StateT.run_pure, pure_eq_ok]

theorem Backed.ptr_ne_null (h : Backed brk₀ u a S) (hx : x ∈ carved u.machine.log) :
    x.ptr ≠ null := h.sound.1.owns.ptr_ne_null (h.has_iff.mpr hx)

theorem Backed.not_magic (h : Backed brk₀ u a S) (hx : x ∈ carved u.machine.log)
    (hfree : ¬ Held u.live x.ptr) : u.machine.mem (x.ptr - overheadSize) ≠ magic := by
  rw [Owns.ptr_sub]
  exact fun hmagic => hfree ((h.header_iff hx).mp hmagic)

/-- **Nothing happens.** -/
theorem Backed.kfree_stale (h : Backed brk₀ u a S) (hx : x ∈ carved u.machine.log)
    (hfree : ¬ Held u.live x.ptr) :
    (Original.allocator 4096 fuel).perform u (.kfree x.ptr) = .ok (null, u) := by
  refine perform_kfree.mpr ⟨u.machine, run_kfree_stale (h.ptr_ne_null hx) (h.not_magic hx hfree),
    rfl, ?_⟩
  rw [takeBack_of_not_held hfree]

/-- `krealloc` to nothing frees. -/
theorem Backed.realloc_stale_zero (h : Backed brk₀ u a S) (hx : x ∈ carved u.machine.log)
    (hfree : ¬ Held u.live x.ptr) :
    (Original.allocator 4096 fuel).perform u (.realloc x.ptr 0) = .ok (null, u) := by
  have hkfree := run_kfree_stale (h.ptr_ne_null hx) (h.not_magic hx hfree)
  have hrun : (Original.krealloc 4096 fuel x.ptr 0).run u.machine = .ok (null, u.machine) := by
    simp only [Original.krealloc, h.ptr_ne_null hx, if_false, if_true, StateT.run_bind, hkfree,
      ok_bind]
    rfl
  refine perform_realloc.mpr ⟨u.machine, hrun, ?_⟩
  rw [takeBack_of_not_held hfree, handOut_null]

/-! ## Moving a free block -/

/-- A block among the first four of a list is found, at its bucket. -/
theorem Backed.run_oldBucket (h : Backed brk₀ u a S) (hfuel : 2 ^ 32 ≤ fuel)
    (hx : x ∈ carved u.machine.log) (hfree : ¬ Held u.live x.ptr) (hrecent : Recent u.machine x.ptr) :
    (Original.oldBucket fuel x.addr).run u.machine
      = .ok ((false, Int32.ofNat x.bucket), u.machine) := by
  have howns := h.sound.1.owns
  have hlists : ∀ b, Chain u.machine.mem.load32 null (u.machine.vars.nextf b)
      ((S.parked b).map Block.addr) := by
    intro b
    rw [h.mem, h.linked.alike.nextf]
    exact howns.chain b
  obtain ⟨k, hk⟩ := List.mem_iff_getElem?.mp (h.parked hx hfree)
  have hdeep : k < 4 := by
    obtain ⟨b, hb⟩ := hrecent
    rw [(hlists b).walk_take, Owns.ptr_sub, howns.mem_take hk] at hb
    exact hb.2
  have hmagic := h.not_magic hx hfree
  rw [Owns.ptr_sub] at hmagic
  have hone : (Original.findbucket fuel x.addr 1).run u.machine
      = .ok (if k < 1 then Int32.ofNat x.bucket else -1, u.machine) := by
    rw [run_findbucket hfuel hlists (by decide), howns.bucketOf_free hk (by decide)]
    rfl
  have hfour : (Original.findbucket fuel x.addr reallocSrchlen).run u.machine
      = .ok (Int32.ofNat x.bucket, u.machine) := by
    have hclamp : reallocSrchlen.toNatClampNeg = 4 := rfl
    rw [run_findbucket hfuel hlists (by decide), howns.bucketOf_free hk (by decide), hclamp,
      if_pos hdeep]
  have hpos : ¬ Int32.ofNat x.bucket < 0 := by
    have hall : ∀ b : Fin nbuckets, ¬ Int32.ofNat b.val < 0 := by decide
    exact hall x.bucket
  simp only [Original.oldBucket, StateT.run_bind, run_load8, ok_bind, hmagic, if_false, hone]
  by_cases hhead : k < 1
  · simp only [hhead, if_true, hpos, if_false]
    rfl
  · have hneg : (-1 : Int32) < 0 := by decide
    simp only [hhead, hneg, if_false, if_true, StateT.run_bind, hfour, ok_bind, hpos]
    rfl

theorem Backed.run_krealloc_stale (h : Backed brk₀ u a S) (hfuel : 2 ^ 32 ≤ fuel)
    (hx : x ∈ carved u.machine.log) (hfree : ¬ Held u.live x.ptr)
    (hrecent : Recent u.machine x.ptr) (hn : n ≠ 0) :
    (Original.krealloc 4096 fuel x.ptr n).run u.machine
      = (Original.moveTo 4096 x.ptr n (UInt32.ofNat (cap x.bucket))).run u.machine := by
  have hhas := h.has_iff.mpr hx
  have hb := (h.sound.1.owns.size x ((h.sound.1.owns.has x).mp hhas)).1
  simp only [Original.krealloc, h.ptr_ne_null hx, hn, if_false, StateT.run_bind, Owns.ptr_sub,
    h.run_oldBucket hfuel hx hfree hrecent, ok_bind, StateT.run_get, pure_eq_ok, h.pagesz hhas,
    (Original.window hb).1]
  rfl

/-- The machine of the port after a block was obtained for `n` bytes, and the
bytes of `x` were copied to it. -/
def movedTo (t : Machine Port.Statics) (r n : UInt32) (x : Block) : Machine Port.Statics :=
  if r = null ∨ x.ptr = r then t else Port.copied t r x.ptr n (UInt32.ofNat (cap x.bucket))

theorem movedTo_log (t : Machine Port.Statics) (r n : UInt32) (x : Block) :
    (movedTo t r n x).log = t.log := by
  rw [movedTo]
  split <;> rfl

theorem movedTo_vars (t : Machine Port.Statics) (r n : UInt32) (x : Block) :
    (movedTo t r n x).vars = t.vars := by
  rw [movedTo]
  split <;> rfl

/-- What a `krealloc` of a free block did: a block was obtained from the heap
that `a` describes, and the bytes were copied. -/
structure Moved (brk₀ : Nat) (u v : Sys Original.Statics) (a : Sys Port.Statics)
    (S S' : Stock Block.bucket) (x : Block) (n r : UInt32) (t : Machine Port.Statics) : Prop where
  obtained : (Port.kmalloc release n).run a.machine = .ok (r, t)
  fresh : Fresh t.log
  moves : Obtains a.machine S n r S'
  live : v.live = handOut r n u.live
  backed : Backed brk₀ v ⟨movedTo t r n x, handOut r n a.live⟩ S'

theorem Backed.moved (h : Backed brk₀ u a S) (hfuel : 2 ^ 32 ≤ fuel)
    (hx : x ∈ carved u.machine.log) (hfree : ¬ Held u.live x.ptr)
    (hrecent : Recent u.machine x.ptr) (hn : n ≠ 0) (hmax : n.toNat ≤ maxReq)
    (hperform : (Original.allocator 4096 fuel).perform u (.realloc x.ptr n) = .ok (r, v))
    (hok : BreakOk brk₀ v.machine.log) : ∃ S' t, Moved brk₀ u v a S S' x n r t := by
  obtain ⟨hrepr, hfit, hinit⟩ := h.sound
  have hhas := h.has_iff.mpr hx
  have hpage := hrepr.page hhas
  have hready := hrepr.mode.bucket hpage hinit
  obtain ⟨w, hrun, rfl⟩ := perform_realloc.mp hperform
  -- the two programs obtain the same block, and copy the same bytes
  obtain ⟨r', t, hmalloc⟩ := kmalloc_returns hrepr.mode hinit n
  obtain ⟨_, w', hmove, rfl, halike⟩ := h.linked.alike.moveTo hrepr.mode hinit hmax x.ptr
    (UInt32.ofNat (cap x.bucket)) r' _ (Port.run_moveTo hmalloc)
  change Alike (InitOk (movedTo t r' n x).log) (movedTo t r' n x) w' at halike
  have hsame := (h.run_krealloc_stale hfuel hx hfree hrecent hn).symm.trans hrun
  obtain ⟨rfl, rfl⟩ := Prod.ext_iff.mp (Except.ok.inj (hmove.symm.trans hsame))
  have hlog : w'.log = t.log := halike.log.trans (movedTo_log ..)
  dsimp only at hok
  rw [hlog] at hok
  -- what `kmalloc` did to the heap
  have htame : Tame a (.kmalloc n) := trivial
  have hport : (Port.allocator fuel).perform a (.kmalloc n)
      = .ok (r', ⟨t, handOut r' n a.live⟩) := perform_kmalloc.mpr ⟨t, hmalloc, rfl⟩
  obtain ⟨hshaped, hfresh⟩ := hrepr.shaped h.shaped htame hport hok
  obtain ⟨S', hrepr', hobtains⟩ := hrepr.kmalloc hmalloc hfresh
  rw [started_eq hpage] at hobtains
  have hfit' := hfit.obtains hrepr.owns hobtains hready (.inl hmax) hrepr'.owns
  have hrepr'' : Repr ⟨movedTo t r' n x, handOut r' n a.live⟩ S' :=
    hrepr'.copy_obtained hobtains hready (.inl hmax) (hfit.below x hhas) x.ptr
  refine ⟨S', t, hmalloc, hfresh, hobtains, ?_, ⟨⟨?_, ?_⟩, ⟨hrepr'', hfit', ?_⟩, ?_, ?_⟩⟩
  · rw [takeBack_of_not_held hfree]
  · exact halike.imp fun _ => by rw [movedTo_log]; exact hok.2
  · rw [takeBack_of_not_held hfree, h.live]
  · rw [movedTo_log]
    exact hok.2
  · rw [Shaped, movedTo_log, movedTo_vars]
    exact hshaped
  · rw [movedTo_log]
    exact hok

/-- The block that it returns has room for the request. -/
theorem Moved.block (h : Moved brk₀ u v a S S' x n r t) (hbacked : Backed brk₀ u a S)
    (hhas : S.Has x) (hmax : n.toNat ≤ maxReq) (hr : r ≠ null) :
    ∃ y ∈ S'.held, r = y.ptr ∧ n.toNat + 4 ≤ y.size ∧ y.bucket.val < 28 := by
  obtain ⟨hrepr, _, hinit⟩ := hbacked.sound
  have hready := hrepr.mode.bucket (hrepr.page hhas) hinit
  exact h.moves.fits hready (.inl hmax) h.backed.sound.1.owns hr

/-- A block in use keeps its bytes. -/
theorem Moved.kept (h : Moved brk₀ u v a S S' x n r t) (hbacked : Backed brk₀ u a S)
    (hhas : S.Has x) (hmax : n.toNat ≤ maxReq) {z : Block} (hz : z ∈ S.held) :
    Mem.SameInside u.machine.mem v.machine.mem z.addr.toNat z.size := by
  have howns' := h.backed.sound.1.owns
  have hmem : v.machine.mem = (movedTo t r n x).mem := h.backed.mem
  have hzr : z.ptr ≠ r := h.moves.ptr_ne howns' hz
  have hbefore := (hbacked.sound.1.kmalloc_frame h.obtained h.fresh (.inl hz)).2 hzr
  rw [hmem, hbacked.mem, movedTo]
  split
  · exact hbefore
  · -- the copy stays in the payload of the block that was handed out
    rename_i hcopy
    obtain ⟨y, hy, rfl, hroom, _⟩ := h.block hbacked hhas hmax (not_or.mp hcopy).1
    have hin := howns'.inside (.inl hy)
    have hyptr := howns'.ptr_toNat (.inl hy)
    have hapart := howns'.apart (h.moves.move.1.has_mono (.inl hz)) (.inl hy)
      fun heq => hzr (congrArg Block.ptr heq)
    rw [Block.Apart] at hapart
    have hlen := toNat_copyLen (n := n) (hbacked.sound.2.1.below x hhas)
    have hcopied : Mem.SameOutside t.mem (Port.copied t y.ptr x.ptr n
        (UInt32.ofNat (cap x.bucket))).mem y.ptr.toNat (min n.toNat (cap x.bucket)) := by
      rw [← hlen]
      apply Mem.copy_same
      omega
    exact hbefore.trans (hcopied.apart (by omega))

/-! ## Runs -/

/-- A call of a disciplined client is one of the port. -/
theorem Backed.step_disciplined {l : Call × UInt32} (h : Backed brk₀ u a S)
    (hc : Disciplined u l.1)
    (hperform : (Original.allocator 4096 fuel).perform u l.1 = .ok (l.2, v))
    (hok : BreakOk brk₀ v.machine.log) :
    ∃ b S', Backed brk₀ v b S' ∧ ∀ x, S.Has x → S'.Has x := by
  obtain ⟨c, r⟩ := l
  have hc' := h.linked.disciplined.mp hc
  have hreturns : ∃ r b, (Port.allocator fuel).perform a c = .ok (r, b) :=
    h.sound.returns (.of_disciplined hc')
  obtain ⟨r', b, hport⟩ := hreturns
  obtain ⟨v', hsame, hlog, hlinked⟩ := h.linked.perform fuel h.sound hc' hport
  obtain ⟨rfl, rfl⟩ := Prod.ext_iff.mp (Except.ok.inj (hsame.symm.trans hperform))
  rw [hlog] at hok
  obtain ⟨hrepr, hfit, hinit⟩ := h.sound
  have htame := hrepr.tame hfit hinit (.of_disciplined hc')
  obtain ⟨hshaped, hfresh⟩ := hrepr.shaped h.shaped htame hport hok
  obtain ⟨S', hsound, hmove⟩ := h.sound.step (l := (c, r'))
    ⟨.of_disciplined hc', hport, hfresh, hok.2⟩
  exact ⟨b, S', ⟨hlinked hok.2, hsound, hshaped, hok⟩, fun x hx => hmove.1.has_mono hx⟩

/-- **The step lemma** for a forgetful client. -/
theorem Backed.step {l : Call × UInt32} (h : Backed brk₀ u a S) (hfuel : 2 ^ 32 ≤ fuel)
    (hs : (Original.allocator 4096 fuel).Step Forgetful (BreakOk brk₀) u l v) :
    ∃ b S', Backed brk₀ v b S' ∧ ∀ x, S.Has x → S'.Has x := by
  obtain ⟨c, r⟩ := l
  obtain ⟨hallowed, hperform, hok⟩ := hs
  have hstays (hstale : (Original.allocator 4096 fuel).perform u c = .ok (null, u)) :
      ∃ b S', Backed brk₀ v b S' ∧ ∀ x, S.Has x → S'.Has x := by
    obtain ⟨_, rfl⟩ := Prod.ext_iff.mp (Except.ok.inj (hstale.symm.trans hperform))
    exact ⟨a, S, h, fun _ hx => hx⟩
  cases c with
  | kmalloc n => exact h.step_disciplined (l := (.kmalloc n, r)) hallowed hperform hok
  | write cp off byte =>
      exact h.step_disciplined (l := (.write cp off byte, r)) hallowed hperform hok
  | kfree cp =>
      by_cases hheld : cp = null ∨ Held u.live cp
      · exact h.step_disciplined (l := (.kfree cp, r)) hheld hperform hok
      · obtain ⟨hne, hfree⟩ := not_or.mp hheld
        obtain ⟨x, hx, rfl⟩ := hallowed.resolve_left hne
        exact hstays (h.kfree_stale hx hfree)
  | realloc cp n =>
      obtain ⟨hmax, hcp⟩ := hallowed
      by_cases hheld : cp = null ∨ Held u.live cp
      · exact h.step_disciplined (l := (.realloc cp n, r)) ⟨hmax, hheld⟩ hperform hok
      · obtain ⟨hne, hfree⟩ := not_or.mp hheld
        obtain ⟨⟨x, hx, rfl⟩, hrecent⟩ := (hcp.resolve_left hne).resolve_left hfree
        by_cases hn : n = 0
        · subst hn
          exact hstays (h.realloc_stale_zero hx hfree)
        · obtain ⟨S', t, hmoved⟩ := h.moved hfuel hx hfree (hrecent.resolve_left hn) hn hmax
            hperform hok
          exact ⟨_, S', hmoved.backed, fun x hx => hmoved.moves.move.1.has_mono hx⟩

/-- No call of a forgetful client faults. -/
theorem Backed.returns {c : Call} (h : Backed brk₀ u a S) (hfuel : 2 ^ 32 ≤ fuel)
    (hc : Forgetful u c) : ∃ r v, (Original.allocator 4096 fuel).perform u c = .ok (r, v) := by
  have hdisciplined (hd : Disciplined u c) :
      ∃ r v, (Original.allocator 4096 fuel).perform u c = .ok (r, v) := by
    have hd' := h.linked.disciplined.mp hd
    have hreturns : ∃ r b, (Port.allocator fuel).perform a c = .ok (r, b) :=
      h.sound.returns (.of_disciplined hd')
    obtain ⟨r, b, hport⟩ := hreturns
    obtain ⟨v, hperform, _⟩ := h.linked.perform fuel h.sound hd' hport
    exact ⟨r, v, hperform⟩
  cases c with
  | kmalloc n => exact hdisciplined hc
  | write cp off byte => exact hdisciplined hc
  | kfree cp =>
      by_cases hheld : cp = null ∨ Held u.live cp
      · exact hdisciplined hheld
      · obtain ⟨hne, hfree⟩ := not_or.mp hheld
        obtain ⟨x, hx, rfl⟩ := hc.resolve_left hne
        exact ⟨_, _, h.kfree_stale hx hfree⟩
  | realloc cp n =>
      obtain ⟨hmax, hcp⟩ := hc
      by_cases hheld : cp = null ∨ Held u.live cp
      · exact hdisciplined ⟨hmax, hheld⟩
      · obtain ⟨hne, hfree⟩ := not_or.mp hheld
        obtain ⟨⟨x, hx, rfl⟩, hrecent⟩ := (hcp.resolve_left hne).resolve_left hfree
        by_cases hn : n = 0
        · subst hn
          exact ⟨_, _, h.realloc_stale_zero hx hfree⟩
        · obtain ⟨hrepr, _, hinit⟩ := h.sound
          obtain ⟨r, t, hmalloc⟩ := kmalloc_returns hrepr.mode hinit n
          obtain ⟨r', w, hmove, _, _⟩ := h.linked.alike.moveTo hrepr.mode hinit hmax x.ptr
            (UInt32.ofNat (cap x.bucket)) r _ (Port.run_moveTo hmalloc)
          rw [← h.run_krealloc_stale hfuel hx hfree (hrecent.resolve_left hn) hn] at hmove
          exact ⟨_, _, perform_realloc.mpr ⟨w, hmove, rfl⟩⟩

end Facts

section Runs

variable {fuel brk₀ : Nat} {mem : Mem} {os : Nat → UInt32}
  {tr : List ((Call × UInt32) × Sys Original.Statics)} {u v : Sys Original.Statics}

/-- **The run lemma**: the heap is well formed, and every pointer that was
returned is that of a block. -/
theorem forgetful_run (hfuel : 2 ^ 32 ≤ fuel)
    (hrun : Run ((Original.allocator 4096 fuel).Step Forgetful (BreakOk brk₀))
      (Sys.start Original.Statics.initial mem os) tr u) :
    ∃ a S, Backed brk₀ u a S ∧ ∀ l ∈ labels tr, l.2 ≠ null → Minted u.machine.log l.2 := by
  induction hrun with
  | nil => exact ⟨_, _, .start mem os, by simp⟩
  | @snoc tr u l v _ hs ih =>
      obtain ⟨a, S, hbacked, hreturned⟩ := ih
      obtain ⟨b, S', hbacked', hmono⟩ := hbacked.step hfuel hs
      refine ⟨b, S', hbacked', fun k hk hne => ?_⟩
      rw [labels_snoc, List.mem_append, List.mem_singleton] at hk
      rcases hk with hk | rfl
      · obtain ⟨x, hx, hptr⟩ := hreturned k hk hne
        exact ⟨x, hbacked'.has_iff.mp (hmono x (hbacked.has_iff.mpr hx)), hptr⟩
      · exact hbacked'.carved_of_held (perform_held hs.2.1 hne)

/-! ## The theorems -/

/-- **The original survives double frees**: in every run of a client that may
free each of its pointers any number of times, with a break that only the
allocator moves, the heap is owned as in a run without a second `kfree`, the
pointers that were returned are aligned to their class, a `kfree` of a pointer
that is not live changes nothing at all, and no call faults. -/
theorem stale_frees (hfuel : 2 ^ 32 ≤ fuel)
    (hrun : Run ((Original.allocator 4096 fuel).Step Forgetful (BreakOk brk₀))
      (Sys.start Original.Statics.initial mem os) tr u) :
    Owned (portView u) ∧
    (∀ l ∈ labels tr, l.2 ≠ null → ∃ x ∈ carved u.machine.log, x.ptr = l.2 ∧
      min (2 ^ (x.bucket.val + 3)) 4096 ∣ l.2.toNat) ∧
    (∀ cp, Minted u.machine.log cp → ¬ Held u.live cp →
      (Original.allocator 4096 fuel).perform u (.kfree cp) = .ok (null, u)) ∧
    ∀ c, Forgetful u c → ∃ r v, (Original.allocator 4096 fuel).perform u c = .ok (r, v) := by
  obtain ⟨a, S, hbacked, hreturned⟩ := forgetful_run hfuel hrun
  refine ⟨hbacked.owned, fun l hl hne => ?_, fun cp hcp hfree => ?_, fun c => hbacked.returns hfuel⟩
  · obtain ⟨x, hx, hptr⟩ := hreturned l hl hne
    refine ⟨x, hx, hptr, ?_⟩
    rw [hbacked.log] at hx
    exact hptr ▸ hbacked.sound.1.carved_paged hbacked.shaped hbacked.brk hx
  · obtain ⟨x, hx, rfl⟩ := hcp
    exact hbacked.kfree_stale hx hfree

/-- `4096` is freed three times, and the block is on one list, once. -/
theorem stale_frees_thrice : ∃ u : Sys Original.Statics,
    Owned (portView u) ∧ u.live = [⟨4096, 16⟩, ⟨4128, 20⟩] ∧
      walk u.machine.mem.load32 null 1 (u.machine.vars.nextf 2) = [4156] := by
  obtain ⟨tr, u, hrun, _, hobs⟩ := exists_run_of_observe
    (show (Original.allocator 4096 (2 ^ 32)).observe Forgetful (BreakOk 4092)
      [.kmalloc 20, .kmalloc 20, .kfree 4096, .kfree 4096, .kfree 4096, .kmalloc 16]
      (Sys.start Original.Statics.initial (fun _ => 0) fun _ => 4092)
      (fun u => (u.live, walk u.machine.mem.load32 null 1 (u.machine.vars.nextf 2)))
        = some ([4096, 4128, 0, 0, 0, 4096], [⟨4096, 16⟩, ⟨4128, 20⟩], [4156]) by decide +kernel)
  obtain ⟨hlive, hwalk⟩ := Prod.ext_iff.mp hobs
  exact ⟨u, (stale_frees (Nat.le_refl _) hrun).1, hlive, hwalk⟩

/-- What a `krealloc` of the free block `x` that returned `r` has done: `y` is
the block it returned. -/
structure Saved (u : Sys Original.Statics) (x : Block) (n r : UInt32) (v : Sys Original.Statics)
    (y : Block) : Prop where
  /-- the result is a live block with room for the request, and was not in use -/
  block : y ∈ carved v.machine.log ∧ y.ptr = r ∧ Held v.live r ∧ ¬ Held u.live r ∧
    n.toNat ≤ y.usable
  /-- the bytes of the free block that fit are in it -/
  bytes : ∀ i < min n.toNat x.usable,
    v.machine.mem (r + UInt32.ofNat i) = u.machine.mem (x.ptr + UInt32.ofNat i)

/-- **Storage compaction**, which the port has lost: in every such run,
`krealloc` of a freed block that is one of the first four of its list hands out
a block with its bytes, as many as fit in both; when there is no memory the
bytes stay where they are, to be asked for again. Blocks in use are left alone
either way. -/
theorem stale_realloc {x : Block} {n r : UInt32} (hfuel : 2 ^ 32 ≤ fuel)
    (hrun : Run ((Original.allocator 4096 fuel).Step Forgetful (BreakOk brk₀))
      (Sys.start Original.Statics.initial mem os) tr u)
    (hs : (Original.allocator 4096 fuel).Step Forgetful (BreakOk brk₀) u (.realloc x.ptr n, r) v)
    (hx : x ∈ carved u.machine.log) (hfree : ¬ Held u.live x.ptr) (hn : n ≠ 0) :
    (r ≠ null → ∃ y, Saved u x n r v y) ∧
    (r = null → Mem.SameInside u.machine.mem v.machine.mem x.ptr.toNat x.usable) ∧
    ∀ z ∈ carved u.machine.log, Held u.live z.ptr → Held v.live z.ptr ∧
      Mem.SameInside u.machine.mem v.machine.mem z.addr.toNat z.size := by
  obtain ⟨a, S, hbacked, _⟩ := forgetful_run hfuel hrun
  obtain ⟨⟨hmax, hcp⟩, hperform, hok⟩ := hs
  have hrecent : Recent u.machine x.ptr :=
    (((hcp.resolve_left (hbacked.ptr_ne_null hx)).resolve_left hfree).2).resolve_left hn
  obtain ⟨S', t, hmoved⟩ := hbacked.moved hfuel hx hfree hrecent hn hmax hperform hok
  obtain ⟨hrepr, hfit, _⟩ := hbacked.sound
  have hhas := hbacked.has_iff.mpr hx
  have howns' := hmoved.backed.sound.1.owns
  have hmem : v.machine.mem = (movedTo t r n x).mem := hmoved.backed.mem
  refine ⟨fun hr => ?_, fun hr => ?_, fun z hz hheld => ?_⟩
  · obtain ⟨y, hy, hptr, hroom, _⟩ : ∃ y ∈ S'.held, r = y.ptr ∧ n.toNat + 4 ≤ y.size ∧
      y.bucket.val < 28 := hmoved.block hbacked hhas hmax hr
    refine ⟨y, ⟨hmoved.backed.has_iff.mp (.inl hy), hptr.symm, ?_, fun hheld => ?_, ?_⟩,
      fun i hi => ?_⟩
    · rw [hptr]
      exact (hmoved.backed.held_iff (.inl hy)).mpr hy
    · -- a block in use is not handed out again
      rw [hbacked.live] at hheld
      obtain ⟨z, hz, hzr⟩ := hrepr.owns.exists_held hheld
      exact hmoved.moves.ptr_ne howns' hz hzr
    · rw [Block.usable]
      omega
    · rw [hmem, hbacked.mem]
      exact hrepr.preserved_head hhas (hfit.below x hhas) hmoved.obtained hmoved.fresh
        (t := movedTo t r n x) rfl hr i hi
  · rw [hmem, hbacked.mem, movedTo, if_pos (.inl hr)]
    exact (hrepr.kmalloc_frame hmoved.obtained hmoved.fresh hhas).1
  · have hzhas := hbacked.has_iff.mpr hz
    have hzheld := (hbacked.held_iff hzhas).mp hheld
    refine ⟨?_, hmoved.kept hbacked hhas hmax hzheld⟩
    rw [hmoved.live, held_handOut]
    exact .inr hheld

/-- The second block of its list, which the port moves without its bytes. -/
theorem stale_realloc_second : ∃ (u v : Sys Original.Statics) (r : UInt32) (y : Block),
    Saved u ⟨4092, 2, 32⟩ 100 r v y ∧ u.machine.mem 4098 = 7 ∧ u.live = [] ∧ r = 8192 := by
  obtain ⟨tr, u, hrun, _, hobs⟩ := exists_run_of_observe
    (show (Original.allocator 4096 (2 ^ 32)).observe Forgetful (BreakOk 4092)
      [.kmalloc 16, .kmalloc 16, .write 4096 2 7, .kfree 4096, .kfree 4128]
      (Sys.start Original.Statics.initial (fun _ => 0) twoRegions)
      (fun u => (decide (⟨4092, 2, 32⟩ ∈ carved u.machine.log ∧
          Forgetful u (.realloc 4096 100)), u.machine.mem 4098, u.live,
        ((Original.allocator 4096 (2 ^ 32)).perform u (.realloc 4096 100)).toOption.map
          fun p => decide (p.1 = 8192 ∧ BreakOk 4092 p.2.machine.log)))
        = some ([4096, 4128, 0, 0, 0], true, 7, [], some true) by decide +kernel)
  simp only [Prod.mk.injEq, decide_eq_true_eq] at hobs
  obtain ⟨⟨hx, hallowed⟩, hbyte, hlive, hperform⟩ := hobs
  cases hresult : (Original.allocator 4096 (2 ^ 32)).perform u (.realloc 4096 100) with
  | error e =>
      rw [hresult] at hperform
      cases hperform
  | ok p =>
      obtain ⟨r, v⟩ := p
      rw [hresult] at hperform
      obtain ⟨(hr : r = 8192), hbreak⟩ := of_decide_eq_true (Option.some.inj hperform)
      have hptr : Block.ptr ⟨4092, 2, 32⟩ = 4096 := by decide
      obtain ⟨y, hsaved⟩ := (stale_realloc (x := ⟨4092, 2, 32⟩) (n := 100) (r := r)
        (Nat.le_refl _) hrun (by rw [hptr]; exact ⟨hallowed, hresult, hbreak⟩) hx
        (by simp [Held, hlive]) (by decide)).1 (by rw [hr]; decide)
      exact ⟨u, v, r, y, hsaved, hbyte, hlive, hr⟩

end Runs

end Challenges.Kmalloc

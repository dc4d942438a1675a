import Mathlib.Data.List.Nodup
import Challenges.Kmalloc.Calls

/-!
# Ownership — every block is somewhere, and only there

For every run of a disciplined client against the port, on memory that
`sbrk` hands out fresh: each carved block is live or on a free list, the
lists are well formed, live blocks carry their headers and no two blocks
overlap (`Owned`). The same runs bound how far each class grows.
-/

namespace Challenges.Kmalloc

open Challenges.Lib Challenges.Kmalloc.Port

/-- `sbrk` hands out fresh memory, and did not refuse the first alignment. -/
def SbrkOk (log : List SbrkCall) : Prop := Fresh log ∧ InitOk log

instance (log : List SbrkCall) : Decidable (SbrkOk log) :=
  inferInstanceAs (Decidable (_ ∧ _))

/-- `l` are the addresses on the free list of bucket `b`, in order. -/
def FreeList (sys : Sys Statics) (b : Fin nbuckets) (l : List UInt32) : Prop :=
  Chain sys.machine.mem.load32 null (sys.machine.vars.nextf b) l

/-- The address stands at position `k` of the free list of bucket `b`. -/
def FreeAt (sys : Sys Statics) (b : Fin nbuckets) (k : Nat) (a : UInt32) : Prop :=
  ∃ l, FreeList sys b l ∧ l[k]? = some a

/-- The bytes that two handles were asked for share none. -/
def Handle.Apart (e f : Handle) : Prop :=
  e.ptr.toNat + e.req.toNat ≤ f.ptr.toNat ∨ f.ptr.toNat + f.req.toNat ≤ e.ptr.toNat

/-- The ownership invariant, on the raw machine. -/
structure Owned (sys : Sys Statics) : Prop where
  /-- every `NEXTF[b]` is a finite null-terminated list -/
  finite : ∀ b, ∃ l, FreeList sys b l
  acyclic : ∀ b l, FreeList sys b l → l.Nodup
  /-- it holds only blocks carved for `b` -/
  sorted : ∀ b l, FreeList sys b l → ∀ a ∈ l,
    ∃ x ∈ carved sys.machine.log, x.addr = a ∧ x.bucket = b
  /-- a carved block is live, or at one position of one free list -/
  place : ∀ x ∈ carved sys.machine.log,
    (Held sys.live x.ptr ∧ ∀ b k, ¬ FreeAt sys b k x.addr) ∨
      (¬ Held sys.live x.ptr ∧ ∃! p : Fin nbuckets × Nat, FreeAt sys p.1 p.2 x.addr)
  /-- a live pointer is that of a carved block, with its header in place -/
  header : ∀ e ∈ sys.live, ∃ x ∈ carved sys.machine.log, x.ptr = e.ptr ∧
    e.req.toNat + 4 ≤ x.size ∧
    sys.machine.mem x.addr = magic ∧ (sys.machine.mem (x.addr + 1)).toNat = x.bucket
  /-- extents of blocks are disjoint -/
  apart : (carved sys.machine.log).Pairwise Block.Apart
  /-- live pointers differ, those for zero bytes too -/
  distinct : (sys.live.map Handle.ptr).Nodup
  /-- no two live pointers overlap -/
  disjoint : sys.live.Pairwise Handle.Apart

section Facts

variable {a : Sys Statics} {S : Stock Block.bucket}

theorem Repr.freeList (h : Repr a S) (b : Fin nbuckets) :
    FreeList a b ((S.parked b).map Block.addr) := h.owns.chain b

theorem Repr.freeAt (h : Repr a S) {x : Block} (hx : S.Has x) {b : Fin nbuckets}
    {k : Nat} : FreeAt a b k x.addr ↔ (S.parked b)[k]? = some x := by
  constructor
  · rintro ⟨l, hl, hk⟩
    rw [hl.unique (h.freeList b), List.getElem?_map, Option.map_eq_some_iff] at hk
    obtain ⟨y, hy, haddr⟩ := hk
    have hhas := Stock.has_of_parked (List.mem_of_getElem? hy)
    have hptr : y.ptr = x.ptr := by rw [Block.ptr, haddr]; rfl
    rw [hy, h.owns.ptr_inj hhas hx hptr]
  · intro hk
    exact ⟨_, h.freeList b, by rw [List.getElem?_map, hk]; rfl⟩

theorem Repr.held_iff (h : Repr a S) {x : Block} (hx : S.Has x) :
    Held a.live x.ptr ↔ x ∈ S.held := by
  constructor
  · intro hheld
    obtain ⟨y, hy, hptr⟩ := h.owns.exists_held hheld
    rwa [← h.owns.ptr_inj (.inl hy) hx hptr]
  · intro hmem
    have : x.ptr ∈ a.live.map Handle.ptr := by
      rw [h.owns.held]
      exact List.mem_map_of_mem hmem
    exact List.mem_map.mp this

/-- Live pointers are pairwise different. -/
theorem Repr.live_nodup (h : Repr a S) : (a.live.map Handle.ptr).Nodup := by
  rw [h.owns.held]
  exact List.Nodup.map_on
    (fun x hx y hy hptr => h.owns.ptr_inj (.inl hx) (.inl hy) hptr) S.held_nodup

/-- **The invariant means ownership.** -/
theorem Repr.owned (h : Repr a S) (hfit : Fit a.live S) : Owned a where
  finite := fun b => ⟨_, h.freeList b⟩
  acyclic := fun b l hl => hl.nodup
  sorted := by
    intro b l hl p hp
    rw [hl.unique (h.freeList b), List.mem_map] at hp
    obtain ⟨x, hx, rfl⟩ := hp
    exact ⟨x, (h.owns.has x).mp (Stock.has_of_parked hx), rfl, S.parked_cls b x hx⟩
  place := by
    intro x hx
    have hhas := (h.owns.has x).mpr hx
    rw [h.held_iff hhas]
    simp only [h.freeAt hhas]
    rcases S.place hhas with ⟨hheld, hno⟩ | hfree
    · exact .inl ⟨hheld, fun b k hk => hno b (List.mem_of_getElem? hk)⟩
    · exact .inr hfree
  header := by
    intro e he
    obtain ⟨x, hx, hptr⟩ := h.owns.exists_held ⟨e, he, rfl⟩
    exact ⟨x, (h.owns.has x).mp (.inl hx), hptr, hfit.fits e he x hx hptr.symm,
      h.owns.header x hx⟩
  apart := h.owns.extents.1
  distinct := h.live_nodup
  disjoint := by
    -- two handles are two blocks, and each payload lies inside its block
    have hnodup := h.live_nodup
    rw [List.Nodup, List.pairwise_map] at hnodup
    refine hnodup.imp_of_mem fun {e f} he hf hne => ?_
    obtain ⟨x, hx, hex⟩ := h.owns.exists_held ⟨e, he, rfl⟩
    obtain ⟨y, hy, hfy⟩ := h.owns.exists_held ⟨f, hf, rfl⟩
    have hxy : x ≠ y := by
      rintro rfl
      exact hne (hex.symm.trans hfy)
    have hapart := h.owns.apart (.inl hx) (.inl hy) hxy
    have := hfit.fits e he x hx hex.symm
    have := hfit.fits f hf y hy hfy.symm
    have hpx := h.owns.ptr_toNat (.inl hx)
    have hpy := h.owns.ptr_toNat (.inl hy)
    rw [hex] at hpx
    rw [hfy] at hpy
    rw [Block.Apart] at hapart
    rw [Handle.Apart]
    omega

/-- What a careful client does is tame. -/
theorem Repr.tame (h : Repr a S) (hfit : Fit a.live S) (hok : InitOk a.machine.log)
    {c : Call} (hc : Careful a c) : Tame a c := by
  cases c with
  | kmalloc n => trivial
  | kfree cp => exact hc
  | realloc cp n =>
      refine hc.2.imp_right fun hheld => ?_
      obtain ⟨x, hx, _⟩ := h.owns.exists_held hheld
      have hpage := h.mode.page h.owns hx
      have hclear := hc.1
      rw [started_eq hpage] at hclear
      exact ⟨hheld, h.mode.bucket hpage hok, hclear⟩
  | write cp off byte =>
      obtain ⟨e, he, rfl, hoff⟩ := hc
      obtain ⟨x, hx, hptr⟩ := h.owns.exists_held ⟨e, he, rfl⟩
      have hreq := hfit.fits e he x hx hptr.symm
      rw [UInt32.lt_iff_toNat_lt] at hoff
      exact ⟨x, (h.owns.has x).mp (.inl hx), hptr, ⟨e, he, rfl⟩, by omega⟩

end Facts

section Runs

variable {fuel : Nat} {mem : Mem} {os : Nat → UInt32}
  {tr : List ((Call × UInt32) × Sys Statics)} {sys : Sys Statics}

/-- What holds of a careful client's system. -/
def Sound (sys : Sys Statics) (S : Stock Block.bucket) : Prop :=
  Repr sys S ∧ Fit sys.live S ∧ InitOk sys.machine.log

theorem Sound.start (mem : Mem) (os : Nat → UInt32) :
    Sound (Sys.start Statics.initial mem os) Stock.empty :=
  ⟨.start mem os, ⟨by simp [Sys.start], by simp [Stock.Has, Stock.empty]⟩,
    by simp [InitOk, Sys.start]⟩

theorem Sound.step {a b : Sys Statics} {l : Call × UInt32} {S : Stock Block.bucket}
    (h : Sound a S) (hs : (Port.allocator fuel).Step Careful SbrkOk a l b) :
    ∃ S', Sound b S' ∧ Move S S' := by
  obtain ⟨hrepr, hfit, hok⟩ := h
  obtain ⟨hcareful, hperform, hfresh, hok'⟩ := hs
  obtain ⟨S', hrepr', hmove, hfit'⟩ :=
    hrepr.step ⟨hrepr.tame hfit hok hcareful, hperform, hfresh⟩
  exact ⟨S', ⟨hrepr', hfit' hfit hcareful hok', hok'⟩, hmove⟩

/-- **The run lemma** for careful clients. -/
theorem careful_run
    (hrun : Run ((Port.allocator fuel).Step Careful SbrkOk)
      (Sys.start Statics.initial mem os) tr sys) : ∃ S, Sound sys S :=
  hrun.invariant (I := fun sys => ∃ S, Sound sys S) ⟨_, .start mem os⟩
    fun _ _ _ ⟨_, h⟩ hs => (h.step hs).imp fun _ h => h.1

theorem run_careful
    (hrun : Run ((Port.allocator fuel).Step Disciplined SbrkOk)
      (Sys.start Statics.initial mem os) tr sys) :
    Run ((Port.allocator fuel).Step Careful SbrkOk)
      (Sys.start Statics.initial mem os) tr sys :=
  (hrun.mono (I := fun _ => True) trivial
    fun _ _ _ _ hs => ⟨⟨.of_disciplined hs.1, hs.2⟩, trivial⟩).1

end Runs

/-! ## Calls return -/

section Returns

variable {fuel : Nat} {a : Sys Statics} {S : Stock Block.bucket}

theorem kmalloc_returns {s : Machine Statics} (hmode : Mode s) (hok : InitOk s.log)
    (n : UInt32) : ∃ r t, (kmalloc release n).run s = .ok (r, t) := by
  have hserve (t : Machine Statics) (hpage : t.vars.pageSz = 4096)
      (hbucket : t.vars.pageBucket = 9) : ∃ r u, (serve release n).run t = .ok (r, u) := by
    rcases run_serve n hpage hbucket with ⟨_, hs⟩ | ⟨b, _, _, hs⟩
    · exact ⟨_, _, hs⟩
    · exact ⟨_, _, hs⟩
  cases hmode with
  | unset hpage _ _ =>
      rw [run_kmalloc_first hpage]
      rcases initialised_cases s with ⟨hpage', _, _, _, ⟨htrue, hbucket, _⟩ | ⟨hfalse, _⟩⟩
      · rw [if_pos htrue]
        exact hserve _ hpage' hbucket
      · simp [hfalse]
  | ready hpage hbucket =>
      rw [run_kmalloc hpage]
      exact hserve s hpage hbucket
  | failed _ _ halign => exact absurd hok halign

/-- No call of a careful client faults. -/
theorem Sound.returns (h : Sound a S) {c : Call} (hc : Careful a c) :
    ∃ r b, (Port.allocator fuel).perform a c = .ok (r, b) := by
  obtain ⟨⟨howns, hmode⟩, _, hok⟩ := h
  cases c with
  | kmalloc n =>
      obtain ⟨r, t, hrun⟩ := kmalloc_returns hmode hok n
      exact ⟨r, _, perform_kmalloc.mpr ⟨t, hrun, rfl⟩⟩
  | kfree cp =>
      rcases hc with rfl | hheld
      · exact ⟨_, _, perform_kfree.mpr ⟨_, run_kfree_null, rfl, rfl⟩⟩
      · obtain ⟨x, hx, rfl⟩ := howns.exists_held hheld
        exact ⟨_, _, perform_kfree.mpr ⟨_, howns.run_kfree hx, rfl, rfl⟩⟩
  | realloc cp n =>
      rcases hc.2 with rfl | hheld
      · obtain ⟨r, t, hrun⟩ := kmalloc_returns hmode hok n
        exact ⟨r, _, perform_realloc.mpr ⟨t, (run_realloc_null fuel n).trans hrun, rfl⟩⟩
      · obtain ⟨x, hx, rfl⟩ := howns.exists_held hheld
        have hptr := howns.ptr_ne_null (.inl hx)
        by_cases hn : n = 0
        · subst hn
          have hrun : (Port.realloc release fuel x.ptr 0).run a.machine
              = .ok (null, pushed a.machine x.bucket x.addr) := by
            rw [run_realloc_zero fuel hptr, howns.run_kfree hx, map_ok]
          exact ⟨null, _, perform_realloc.mpr ⟨_, hrun, rfl⟩⟩
        · have hpage := hmode.page howns hx
          have hrun := howns.run_realloc hx hpage hn fuel
          -- the block is kept, or the new one comes from a `kmalloc`
          split at hrun
          · exact ⟨_, _, perform_realloc.mpr ⟨_, hrun, rfl⟩⟩
          · have hready := hmode.bucket hpage hok
            obtain ⟨r, t, hmalloc⟩ := kmalloc_returns
              (s := pushed a.machine x.bucket x.addr) (.ready hpage hready) hok n
            rw [run_moveTo hmalloc] at hrun
            exact ⟨_, _, perform_realloc.mpr ⟨_, hrun, rfl⟩⟩
  | write cp off byte => exact ⟨_, _, rfl⟩

end Returns

/-! ## The theorem -/

/-- **Ownership** in every run of a disciplined client, with `sbrk` failing
in any pattern after the first alignment; and no call of the client faults. -/
theorem ownership {fuel : Nat} {mem : Mem} {os : Nat → UInt32}
    {tr : List ((Call × UInt32) × Sys Statics)} {sys : Sys Statics}
    (hrun : Run ((Port.allocator fuel).Step Disciplined SbrkOk)
      (Sys.start Statics.initial mem os) tr sys) :
    Owned sys ∧ ∀ c, Disciplined sys c →
      ∃ r b, (Port.allocator fuel).perform sys c = .ok (r, b) := by
  obtain ⟨S, hsound⟩ := careful_run (run_careful hrun)
  exact ⟨hsound.1.owned hsound.2.1, fun c hc => hsound.returns (.of_disciplined hc)⟩

/-- Two requests of 16 bytes come from one page; the freed block comes back. -/
theorem ownership_page : ∃ sys, Owned sys ∧ sys.live = [⟨4096, 20⟩, ⟨4128, 16⟩] := by
  obtain ⟨tr, sys, hrun, _, hlive⟩ := exists_run_of_observe
    (show (Port.allocator 0).observe Disciplined SbrkOk
      [.kmalloc 16, .kmalloc 16, .kfree 4096, .kmalloc 20] (boot fun _ => 4092) Sys.live
        = some ([4096, 4128, 0, 4096], [⟨4096, 20⟩, ⟨4128, 16⟩]) by decide +kernel)
  exact ⟨sys, (ownership hrun).1, hlive⟩

end Challenges.Kmalloc

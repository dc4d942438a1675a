import Challenges.Kmalloc.Ownership

/-!
# Capacity — whether a block has the bytes that were asked for

The doubling loop and `morecore` agree on every class but the last: for
bucket 28 the size `1 << 31` is negative as an `i32`, `morecore` takes it
for one below the page size and asks `sbrk` for a page only. `kassert!`
would stop it in a debug build. `capacity` says that this is the one way
for a request to get too little.
-/

namespace Challenges.Kmalloc

open Challenges.Lib Challenges.Kmalloc.Port

/-- `r` is null, or all of `[r, r + n)` lies in the memory that `sbrk`
handed to `morecore` for the block at `r`. -/
def Roomy (log : List SbrkCall) (r n : UInt32) : Prop :=
  r = null ∨ ∃ c ∈ log, ∃ x ∈ c.blocks, x.ptr = r ∧
    c.ret.toNat ≤ r.toNat ∧ r.toNat + n.toNat ≤ x.addr.toNat + x.size ∧
    x.addr.toNat + x.size ≤ c.ret.toNat + c.amt.toNatClampNeg

instance (log : List SbrkCall) (r n : UInt32) : Decidable (Roomy log r n) :=
  inferInstanceAs (Decidable (_ ∨ _))

section Block

variable {a : Sys Statics} {S : Stock Block.bucket} {x : Block} {n : UInt32}

/-- Room in a block is room in its region. -/
theorem Repr.roomy (h : Repr a S) (hx : x ∈ S.held) (hfit : n.toNat + 4 ≤ x.size) :
    Roomy a.machine.log x.ptr n := by
  obtain ⟨c, hc, hxc⟩ := List.mem_flatMap.mp ((h.owns.has x).mp (.inl hx))
  have hge := h.owns.size_ge (.inl hx)
  have hptr := h.owns.ptr_toNat (.inl hx)
  have hin := block_inside hxc (by omega) (h.owns.fresh.inside c hc (grants_of_mem hxc)).2
  exact .inr ⟨c, hc, x, hxc, rfl, by omega, by omega, hin.2⟩

/-- A pointer determines its block, and with it the room. -/
theorem Repr.roomy_le (h : Repr a S) (hx : x ∈ S.held)
    (hroomy : Roomy a.machine.log x.ptr n) : n.toNat + 4 ≤ x.size := by
  rcases hroomy with hnull | ⟨c, hc, y, hy, hptr, _, hfit, _⟩
  · exact absurd hnull (h.owns.ptr_ne_null (.inl hx))
  · have hhas : S.Has y := (h.owns.has y).mpr (List.mem_flatMap.mpr ⟨c, hc, hy⟩)
    cases h.owns.ptr_inj hhas (.inl hx) hptr
    have := h.owns.ptr_toNat (.inl hx)
    omega

/-- Under `Clear` the request is served in full or not at all; otherwise it
gets a block of the top class, which is too small. -/
theorem Sound.roomy_iff {s t : Machine Statics} {live : List Handle} {r : UInt32}
    (h : Sound ⟨s, live⟩ S) (hpage : s.vars.pageSz = 4096)
    (hrun : (Port.kmalloc release n).run s = .ok (r, t)) (hfresh : Fresh t.log) :
    Roomy t.log r n ↔ Clear s n := by
  obtain ⟨hrepr, hfit, hok⟩ := h
  have hready := hrepr.mode.bucket hpage hok
  obtain ⟨S', hrepr', hobtains⟩ := hrepr.kmalloc hrun hfresh
  rw [started_eq hpage] at hobtains
  constructor
  · intro hroomy
    by_contra hclear
    have htop : maxReq < n.toNat ∧ n.toNat ≤ cap 28 ∧ ¬ Refused s 28 := by
      rw [Clear, not_or, not_or, Nat.not_le, Nat.not_lt] at hclear
      exact hclear
    have hclass := sizeClass_top.mpr ⟨htop.1, htop.2.1⟩
    cases hobtains with
    | none _ hnone => simp [hnone hready] at hclass
    | @served b o _ hb hserve hret hclass' hnew _ hrefused =>
        have h28 : b = 28 := Fin.ext (Option.some.inj ((hclass' hready).symm.trans hclass))
        cases o with
        | none => exact htop.2.2 (h28 ▸ hrefused.mp rfl)
        | some y =>
            obtain ⟨hbucket, hy, _⟩ := hnew y rfl
            have hle := hrepr'.roomy_le hy (hret ▸ hroomy)
            have hsize := (hrepr'.owns.size y ((hrepr'.owns.has y).mp (.inl hy))).2
            have hroom : room 28 = 4096 := by decide
            rw [hbucket, h28] at hsize
            have hpagesize : y.size = 4096 := hsize.trans hroom
            have hlarge : 4096 ≤ maxReq := by decide
            omega
  · intro hclear
    by_cases hr : r = null
    · exact .inl hr
    · obtain ⟨y, hy, rfl, hle, _⟩ := hobtains.fits hready hclear hrepr'.owns hr
      exact hrepr'.roomy hy hle

end Block

/-! ## The theorem -/

/-- **Capacity**: after every run whose requests are all `Clear`, the next
`kmalloc(n)` returns, and returns null or a block with room for `n` bytes
exactly when `n` is `Clear` too. -/
theorem capacity {fuel : Nat} {mem : Mem} {os : Nat → UInt32}
    {tr : List ((Call × UInt32) × Sys Statics)} {sys : Sys Statics}
    (hrun : Run ((Port.allocator fuel).Step Careful SbrkOk)
      (Sys.start Statics.initial mem os) tr sys)
    (hinit : sys.machine.vars.pageSz = 4096) (n : UInt32) :
    ∃ r next, (Port.allocator fuel).perform sys (.kmalloc n) = .ok (r, next) ∧
      (SbrkOk next.machine.log → (Roomy next.machine.log r n ↔ Clear sys.machine n)) := by
  obtain ⟨S, hsound⟩ := careful_run hrun
  obtain ⟨r, t, hmalloc⟩ := kmalloc_returns hsound.1.mode hsound.2.2 n
  exact ⟨r, _, perform_kmalloc.mpr ⟨t, hmalloc, rfl⟩,
    fun henv => hsound.roomy_iff hinit hmalloc henv.1⟩

theorem capacity_small : ∃ sys r next,
    (Port.allocator 0).perform sys (.kmalloc 20) = .ok (r, next) ∧
      (SbrkOk next.machine.log → Roomy next.machine.log r 20) := by
  obtain ⟨tr, sys, hrun, _, hpage⟩ := exists_run_of_observe
    (show (Port.allocator 0).observe Disciplined SbrkOk [.kmalloc 20] (boot twoRegions)
      (·.machine.vars.pageSz) = some ([4096], 4096) by decide +kernel)
  obtain ⟨r, next, hcall, hroomy⟩ := capacity (run_careful hrun) hpage 20
  exact ⟨sys, r, next, hcall, fun henv => (hroomy henv).mpr (.inl (by decide))⟩

/-- `kmalloc(2^30 + 4093)` returns a block of one page. -/
theorem capacity_top_class : ∃ tr sys,
    Run ((Port.allocator 0).Step Disciplined SbrkOk) (boot twoRegions) tr sys ∧
    sys.machine.vars.pageSz = 4096 ∧
    ∃ next, (Port.allocator 0).perform sys (.kmalloc 1073745917) = .ok (8192, next) ∧
      SbrkOk next.machine.log ∧ ¬ Roomy next.machine.log 8192 1073745917 := by
  obtain ⟨tr, sys, hrun, _, hobs⟩ := exists_run_of_observe
    (show (Port.allocator 0).observe Disciplined SbrkOk [.kmalloc 20] (boot twoRegions)
      (fun sys => (sys.machine.vars.pageSz,
        ((Port.allocator 0).perform sys (.kmalloc 1073745917)).toOption.map
          fun q => (q.1, q.2.machine.log)))
      = some ([4096], 4096, some (8192, [⟨.query, 0, 4092⟩, ⟨.morecore 2, 4096, 4092⟩,
          ⟨.morecore 28, 4096, 8188⟩])) by decide +kernel)
  obtain ⟨hpage, hcall⟩ := Prod.ext_iff.mp hobs
  dsimp only at hcall
  refine ⟨tr, sys, hrun, hpage, ?_⟩
  cases hperform : (Port.allocator 0).perform sys (.kmalloc 1073745917) with
  | error e => simp [hperform, Except.toOption] at hcall
  | ok p =>
      obtain ⟨r, next⟩ := p
      simp only [hperform, Except.toOption, Option.map_some, Option.some.injEq,
        Prod.mk.injEq] at hcall
      obtain ⟨rfl, hlog⟩ := hcall
      refine ⟨next, rfl, ?_⟩
      rw [hlog]
      decide +kernel

end Challenges.Kmalloc

import Mathlib.Data.List.Induction
import Challenges.Kmalloc.Ownership

/-!
# Alignment — what the break says about addresses

When only this allocator moves the break, the first call brings it to four
bytes below a page, and every amount that `morecore` asks for is a whole
number of pages. So each region starts four below a page, and a block of
bucket `b` starts four below a multiple of its size. Two things rest on
that: the pointers handed out are aligned to their class, and a next
pointer never looks like `MAGIC`.
-/

namespace Challenges.Kmalloc

open Challenges.Lib Challenges.Kmalloc.Port

/-! ## The break -/

/-- The logs of this allocator: the first call's own calls, then those of
`morecore`. -/
def Shape (log : List SbrkCall) : Prop :=
  ∃ first more, log = first ++ more ∧ FirstCalls first ∧
    ∀ c ∈ more, ∃ (i : Fin nbuckets) (ret : UInt32), i.val < 29 ∧ c = growCall i ret

/-- The break and the regions handed to `morecore` are four below a page;
the regions lie below the break, each beside the others. -/
structure Paged (log : List SbrkCall) (brk : Nat) : Prop where
  page : brk % 4096 = 4092
  bound : brk < 2 ^ 32
  below : ∀ c ∈ log, c.Grants →
    c.ret.toNat % 4096 = 4092 ∧ c.ret.toNat + c.amt.toNatClampNeg ≤ brk
  apart : log.Pairwise fun c d => c.Grants → d.Grants → c.Apart d

theorem breakAfter_snoc (brk₀ : Nat) (log : List SbrkCall) (c : SbrkCall) :
    breakAfter brk₀ (log ++ [c]) = (breakAfter brk₀ log).bind (moveBreak · c) := by
  simp only [breakAfter, List.foldlM_append, List.foldlM_cons, List.foldlM_nil, bind_pure]
  rfl

theorem breakAfter_singleton (brk₀ : Nat) (c : SbrkCall) :
    breakAfter brk₀ [c] = moveBreak brk₀ c := by
  rw [breakAfter, List.foldlM_cons]
  exact bind_pure _

section Break

variable {brk₀ brk brk' : Nat} {log : List SbrkCall} {c : SbrkCall}

theorem moveBreak_cases (h : moveBreak brk c = some brk') :
    (c.ret.toNat = brk ∧ brk' = brk + c.amt.toNatClampNeg ∧ brk' < 2 ^ 32) ∨
      (c.ret = sbrkFailed ∧ brk' = brk ∧ 0 < c.amt) := by
  rw [moveBreak] at h
  split at h
  · rename_i hgrant
    cases h
    exact .inl ⟨hgrant.1, rfl, hgrant.2⟩
  · split at h
    · rename_i hrefuse
      cases h
      exact .inr ⟨hrefuse.1, rfl, hrefuse.2⟩
    · cases h

theorem moveBreak_query {q : UInt32} (h : moveBreak brk ⟨.query, 0, q⟩ = some brk') :
    q.toNat = brk ∧ brk' = brk ∧ brk < 2 ^ 32 := by
  rcases moveBreak_cases h with ⟨hret, hbrk, hlt⟩ | ⟨_, _, hpos⟩
  · have hzero : brk' = brk := hbrk
    exact ⟨hret, hzero, hzero ▸ hlt⟩
  · exact absurd hpos (Int32.lt_irrefl)

/-- The first call aligns the break. -/
theorem FirstCalls.paged {first : List SbrkCall} (h : FirstCalls first)
    (hbrk : breakAfter brk₀ first = some brk) (hok : InitOk first) : Paged first brk := by
  have hpage : brk % 4096 = 4092 ∧ brk < 2 ^ 32 := by
    cases h with
    | query q hq =>
        obtain ⟨hmod, _⟩ := alignBy_spec q
        -- the break was there already
        have hclamp : (alignBy q).toNatClampNeg = 0 := by
          rw [Int32.lt_iff_toInt_lt] at hq
          rw [Int32.toNatClampNeg]
          exact Int.toNat_of_nonpos (Int.not_lt.mp hq)
        rw [breakAfter_singleton] at hbrk
        obtain ⟨hret, rfl, hlt⟩ := moveBreak_query hbrk
        rw [hclamp, hret] at hmod
        exact ⟨hmod, hlt⟩
    | align q r _ =>
        obtain ⟨hmod, _⟩ := alignBy_spec q
        have hsnoc := breakAfter_snoc brk₀ [⟨.query, 0, q⟩] ⟨.align, alignBy q, r⟩
        rw [List.singleton_append, hbrk] at hsnoc
        obtain ⟨brk₁, hfirst, hlast⟩ := Option.bind_eq_some_iff.mp hsnoc.symm
        rw [breakAfter_singleton] at hfirst
        obtain ⟨hret, rfl, _⟩ := moveBreak_query hfirst
        have hr : r ≠ sbrkFailed := hok ⟨.align, alignBy q, r⟩ (by simp) rfl
        rw [hret] at hmod
        generalize alignBy q = n at hmod hlast
        rcases moveBreak_cases hlast with ⟨_, rfl, hlt⟩ | ⟨hfail, _, _⟩
        · exact ⟨hmod, hlt⟩
        · exact absurd hfail hr
  refine ⟨hpage.1, hpage.2, fun c hc hgrants => absurd hgrants (h.not_grants c hc), ?_⟩
  exact (Fresh.of_not_grants h.not_grants).apart

/-- `morecore` moves the break by whole pages. -/
theorem Paged.grow {i : Fin nbuckets} {ret : UInt32} (h : Paged log brk) (hi : i.val < 29)
    (hmove : moveBreak brk (growCall i ret) = some brk') :
    Paged (log ++ [growCall i ret]) brk' := by
  have hamt := growCall_amt hi ret
  have hgrant : grant i.val % 4096 = 0 := by
    have hall : ∀ b : Fin 29, grant b.val % 4096 = 0 := by decide
    exact hall ⟨i, hi⟩
  have hpage := h.page
  have hbound := h.bound
  rcases moveBreak_cases hmove with ⟨hret, hbrk', hlt⟩ | ⟨hfail, rfl, _⟩
  · rw [hamt] at hbrk'
    refine ⟨by omega, hlt, fun c hc hgrants => ?_, ?_⟩
    · rcases List.mem_append.mp hc with hc | hc
      · obtain ⟨hmod, hle⟩ := h.below c hc hgrants
        exact ⟨hmod, by omega⟩
      · rw [List.mem_singleton.mp hc, hret, hamt]
        exact ⟨hpage, by omega⟩
    · rw [List.pairwise_append]
      refine ⟨h.apart, List.pairwise_singleton .., fun c hc d hd hgrants _ => ?_⟩
      rw [List.mem_singleton.mp hd]
      exact .inl (hret ▸ (h.below c hc hgrants).2)
  · -- a refused call moves nothing
    have hno : ¬ (growCall i ret).Grants := fun hgrants => hgrants.2 hfail
    refine ⟨hpage, hbound, fun c hc hgrants => ?_, ?_⟩
    · rcases List.mem_append.mp hc with hc | hc
      · exact h.below c hc hgrants
      · exact absurd (List.mem_singleton.mp hc ▸ hgrants) hno
    · rw [List.pairwise_append]
      refine ⟨h.apart, List.pairwise_singleton .., fun c _ d hd _ hgrants => ?_⟩
      exact absurd (List.mem_singleton.mp hd ▸ hgrants) hno

/-- **The break** is four below a page after every log of the allocator. -/
theorem Shape.paged (h : Shape log) (hinit : InitOk log)
    (hbrk : breakAfter brk₀ log = some brk) : Paged log brk := by
  obtain ⟨first, more, rfl, hfirst, hmore⟩ := h
  -- induction on the calls of `morecore`, the last one first
  induction more using List.reverseRecOn generalizing brk with
  | nil =>
      rw [List.append_nil] at *
      exact hfirst.paged hbrk hinit
  | append_singleton more c ih =>
      rw [← List.append_assoc] at *
      rw [breakAfter_snoc] at hbrk
      obtain ⟨brk₁, hbrk₁, hmove⟩ := Option.bind_eq_some_iff.mp hbrk
      obtain ⟨i, ret, hi, rfl⟩ := hmore c (by simp)
      exact (ih hinit.of_append hbrk₁ fun d hd => hmore d (List.mem_append_left _ hd)).grow
        hi hmove

theorem Paged.fresh (h : Paged log brk) : Fresh log where
  inside := by
    intro c hc hgrants
    obtain ⟨hmod, hle⟩ := h.below c hc hgrants
    have := h.bound
    omega
  apart := h.apart

end Break

/-! ## The blocks -/

/-- The alignment of a bucket: its block size, up to a page. -/
def natural (b : Nat) : Nat := min (2 ^ (b + 3)) 4096

theorem natural_dvd {b : Nat} (hb : b < 29) : natural b ∣ 4096 ∧ natural b ∣ room b := by
  have h : ∀ b : Fin 29, natural b.val ∣ 4096 ∧ natural b.val ∣ room b.val := by decide
  exact h ⟨b, hb⟩

theorem eight_dvd_natural (b : Nat) : 8 ∣ natural b := by
  have h8 : 8 ∣ 2 ^ (b + 3) := ⟨2 ^ b, by rw [Nat.pow_add, Nat.mul_comm]⟩
  rw [natural]
  rcases Nat.le_total (2 ^ (b + 3)) 4096 with h | h
  · rwa [Nat.min_eq_left h]
  · rw [Nat.min_eq_right h]
    decide

section Aligned

variable {a : Sys Statics} {S : Stock Block.bucket} {x : Block} {brk : Nat}

/-- **A block is aligned to its class**, up to the four bytes of its header. -/
theorem Repr.natural_dvd (h : Repr a S) (hpaged : Paged a.machine.log brk)
    (hx : x ∈ carved a.machine.log) : natural x.bucket ∣ x.ptr.toNat := by
  obtain ⟨hb, hsize⟩ := h.owns.size x hx
  obtain ⟨hpage, hroom⟩ := Kmalloc.natural_dvd hb
  have hbounds := room_bounds hb
  obtain ⟨c, hc, hxc⟩ := List.mem_flatMap.mp hx
  have hgrants := grants_of_mem hxc
  have hret := (hpaged.below c hc hgrants).1
  have hinside := (h.owns.fresh.inside c hc hgrants).2
  have hmul := size_mul_le hxc
  obtain ⟨_, _, _, _, _, htile⟩ := mem_blocks.mp hxc
  rw [hsize] at htile hmul
  rw [mem_tiles (by rw [toNat_room hb]; omega) (by rw [toNat_room hb]; omega),
    toNat_room hb] at htile
  obtain ⟨j, _, haddr⟩ := htile
  have hptr := h.owns.ptr_toNat ((h.owns.has x).mpr hx)
  -- the region starts four below a page, and the blocks before it are whole
  have hstart : x.ptr.toNat = (c.ret.toNat + 4) + j * room x.bucket := by omega
  rw [hstart]
  exact Nat.dvd_add (Nat.dvd_trans hpage (Nat.dvd_of_mod_eq_zero (by omega)))
    (Nat.dvd_mul_left_of_dvd hroom j)

/-- Once the first call was made, the log is one of the allocator's. -/
def Shaped (a : Sys Statics) : Prop :=
  a.machine.vars.pageSz ≠ 0 → Shape a.machine.log

theorem Repr.carved_paged {brk₀ : Nat} (h : Repr a S) (hshaped : Shaped a)
    (hok : BreakOk brk₀ a.machine.log) (hx : x ∈ carved a.machine.log) :
    natural x.bucket ∣ x.ptr.toNat := by
  obtain ⟨brk, hbrk⟩ := Option.isSome_iff_exists.mp hok.1
  have hpage : a.machine.vars.pageSz ≠ 0 := by
    intro hpage
    cases h.mode with
    | unset _ _ hlog => simp [hlog] at hx
    | ready hpage' _ => rw [hpage] at hpage'; simp at hpage'
    | failed hpage' _ _ => rw [hpage] at hpage'; simp at hpage'
  exact h.natural_dvd ((hshaped hpage).paged hok.2 hbrk) hx

/-- **A next pointer never looks like a header**: it is null or the address
of a block, so its low byte is divisible by four. -/
theorem Repr.header_iff {brk₀ : Nat} (h : Repr a S) (hshaped : Shaped a)
    (hok : BreakOk brk₀ a.machine.log) (hx : x ∈ carved a.machine.log) :
    a.machine.mem x.addr = magic ↔ Held a.live x.ptr := by
  have hhas := (h.owns.has x).mpr hx
  rw [h.held_iff hhas]
  constructor
  · intro hmagic
    refine hhas.resolve_right fun hparked => ?_
    have hlow := Mem.load32_low a.machine.mem x.addr
    rw [hmagic] at hlow
    have hnext : (a.machine.mem.load32 x.addr).toNat % 4 = 0 := by
      rcases (h.owns.chain x.bucket).next_mem (List.mem_map_of_mem hparked) with hnull | hmem
      · rw [hnull]
        rfl
      · obtain ⟨y, hy, haddr⟩ := List.mem_map.mp hmem
        have hyhas := Stock.has_of_parked hy
        have hdvd := Nat.dvd_trans (eight_dvd_natural y.bucket)
          (h.carved_paged hshaped hok ((h.owns.has y).mp hyhas))
        have hptr := h.owns.ptr_toNat hyhas
        rw [← haddr]
        omega
    have hval : magic.toNat = 239 := rfl
    omega
  · intro hheld
    exact (h.owns.header x hheld).1

end Aligned

/-! ## Runs -/

section Runs

variable {fuel brk₀ : Nat} {a b : Sys Statics} {S : Stock Block.bucket} {r : UInt32} {c : Call}

/-- A tame call keeps the shape of the log, and under the assumption on the
break what `sbrk` handed out is fresh. -/
theorem Repr.shaped (h : Repr a S) (hshaped : Shaped a) (htame : Tame a c)
    (hperform : (Port.allocator fuel).perform a c = .ok (r, b))
    (hok : BreakOk brk₀ b.machine.log) : Shaped b ∧ Fresh b.machine.log := by
  rcases h.grows htame hperform with ⟨hlog, hpage⟩ | ⟨more, hlog, hmore⟩
  · rw [Shaped, hlog, hpage]
    exact ⟨hshaped, h.owns.fresh⟩
  · have hmore' : ∀ c ∈ more, ∃ (i : Fin nbuckets) (ret : UInt32),
        i.val < 29 ∧ c = growCall i ret := by
      intro c hc
      obtain ⟨i, ret, hi, _, hcall⟩ := hmore c hc
      exact ⟨i, ret, hi, hcall⟩
    have hshape : Shape b.machine.log := by
      rcases started_log a.machine with ⟨first, hstarted, ⟨hpage, hfirst⟩ | ⟨hpage, rfl⟩⟩
      · cases h.mode with
        | unset _ _ hempty =>
            rw [hstarted, hempty, List.nil_append] at hlog
            exact ⟨first, more, hlog, hfirst, hmore'⟩
        | ready hpage' _ => rw [hpage] at hpage'; simp at hpage'
        | failed hpage' _ _ => rw [hpage] at hpage'; simp at hpage'
      · obtain ⟨first, old, hold, hfirst, hcalls⟩ := hshaped hpage
        rw [hstarted, List.append_nil, hold, List.append_assoc] at hlog
        refine ⟨first, old ++ more, hlog, hfirst, fun c hc => ?_⟩
        exact (List.mem_append.mp hc).elim (hcalls c) (hmore' c)
    obtain ⟨brk, hbrk⟩ := Option.isSome_iff_exists.mp hok.1
    exact ⟨fun _ => hshape, (hshape.paged hok.2 hbrk).fresh⟩

/-- The request of a call. -/
def Call.request : Call → Option UInt32
  | .kmalloc n => some n
  | .realloc _ n => some n
  | _ => none

/-- A call that returns a pointer served a request of the block's class. -/
theorem Repr.served (h : Repr a S) (htame : Tame a c)
    (hperform : (Port.allocator fuel).perform a c = .ok (r, b))
    (hfresh : Fresh b.machine.log) (hok : InitOk b.machine.log) (hr : r ≠ null) :
    ∃ x ∈ carved b.machine.log, x.ptr = r ∧
      ∃ n, c.request = some n ∧ sizeClass n.toNat = some x.bucket.val := by
  obtain ⟨s, live⟩ := a
  cases h.performs htame hperform with
  | @kmalloc _ n _ t hcall hrun =>
      obtain ⟨S', hrepr, hobtains⟩ := h.kmalloc hrun hfresh
      obtain ⟨y, hy, rfl, hclass, _⟩ := hobtains.block hr
      have hrequest : c.request = some n := by
        rcases hcall with rfl | rfl <;> rfl
      exact ⟨y, (hrepr.owns.has y).mp (.inl hy), rfl, n, hrequest,
        hclass (kmalloc_ready h.mode hrun hok)⟩
  | @realloc _ n _ _ hx hpage hready hn hclear hrun =>
      obtain ⟨S', hrepr, hobtains⟩ := h.realloc hx hpage hready hn hclear hrun hfresh
      obtain ⟨y, hy, rfl, hclass, _⟩ := hobtains.block hr
      exact ⟨y, (hrepr.owns.has y).mp (.inl hy), rfl, n, rfl, hclass hready⟩
  | kfreeNull | kfree | write =>
      -- no pointer comes back
      exact absurd rfl hr

variable {mem : Mem} {os : Nat → UInt32} {tr : List ((Call × UInt32) × Sys Statics)}
  {sys : Sys Statics}

/-- **The run lemma** for a break that nobody else moves: besides the
invariant, what every call of the run returned. -/
theorem shaped_run
    (hrun : Run ((Port.allocator fuel).Step Tame (BreakOk brk₀))
      (Sys.start Statics.initial mem os) tr sys) :
    ∃ S, Repr sys S ∧ Shaped sys ∧ BreakOk brk₀ sys.machine.log ∧
      ∀ l ∈ labels tr, l.2 ≠ null → ∃ x, S.Has x ∧ x.ptr = l.2 ∧
        ∃ n, l.1.request = some n ∧ sizeClass n.toNat = some x.bucket.val := by
  induction hrun with
  | nil =>
      refine ⟨_, .start mem os, ?_, ⟨rfl, ?_⟩, ?_⟩
      · simp [Shaped, Sys.start, Statics.initial]
      · simp [InitOk, Sys.start]
      · simp
  | @snoc tr a l b _ hs ih =>
      obtain ⟨S, hrepr, hshaped, _, hreturned⟩ := ih
      obtain ⟨htame, hperform, hok⟩ := hs
      obtain ⟨hshaped', hfresh⟩ := hrepr.shaped hshaped htame hperform hok
      obtain ⟨S', hrepr', hmove, _⟩ := hrepr.step ⟨htame, hperform, hfresh⟩
      refine ⟨S', hrepr', hshaped', hok, fun k hk hne => ?_⟩
      rw [labels_snoc, List.mem_append, List.mem_singleton] at hk
      rcases hk with hk | rfl
      · obtain ⟨x, hx, hptr⟩ := hreturned k hk hne
        exact ⟨x, hmove.1.has_mono hx, hptr⟩
      · obtain ⟨x, hx, hptr⟩ := hrepr.served htame hperform hfresh hok.2 hne
        exact ⟨x, (hrepr'.owns.has x).mpr hx, hptr⟩

/-- A disciplined client is tame, and its heap sound. -/
theorem disciplined_run
    (hrun : Run ((Port.allocator fuel).Step Disciplined (BreakOk brk₀))
      (Sys.start Statics.initial mem os) tr sys) :
    Run ((Port.allocator fuel).Step Tame (BreakOk brk₀))
        (Sys.start Statics.initial mem os) tr sys ∧
      ∃ S, Sound sys S ∧ Shaped sys ∧ BreakOk brk₀ sys.machine.log := by
  refine hrun.mono (I := fun sys => ∃ S, Sound sys S ∧ Shaped sys ∧ BreakOk brk₀ sys.machine.log)
    ⟨_, .start mem os, by simp [Shaped, Sys.start, Statics.initial], rfl,
      by simp [InitOk, Sys.start]⟩
    fun a l b ⟨S, hsound, hshaped, _⟩ ⟨hallowed, hperform, hok⟩ => ?_
  have hcareful := Careful.of_disciplined hallowed
  have htame := hsound.1.tame hsound.2.1 hsound.2.2 hcareful
  obtain ⟨hshaped', hfresh⟩ := hsound.1.shaped hshaped htame hperform hok
  obtain ⟨S', hsound', _⟩ := hsound.step ⟨hcareful, hperform, hfresh, hok.2⟩
  exact ⟨⟨htame, hperform, hok⟩, S', hsound', hshaped', hok⟩

theorem run_tame
    (hrun : Run ((Port.allocator fuel).Step Disciplined (BreakOk brk₀))
      (Sys.start Statics.initial mem os) tr sys) :
    Run ((Port.allocator fuel).Step Tame (BreakOk brk₀))
      (Sys.start Statics.initial mem os) tr sys := (disciplined_run hrun).1

/-! ## The theorems -/

/-- **Natural alignment**: in every run of a disciplined client that starts
at any break, which only the allocator moves, each pointer that a call
returned is that of a block of the request's bucket, and is a multiple of
the bucket's block size, up to a page. -/
theorem natural_alignment
    (hrun : Run ((Port.allocator fuel).Step Disciplined (BreakOk brk₀))
      (Sys.start Statics.initial mem os) tr sys) :
    ∀ l ∈ labels tr, l.2 ≠ null → ∃ x ∈ carved sys.machine.log, x.ptr = l.2 ∧
      (∃ n, l.1.request = some n ∧ sizeClass n.toNat = some x.bucket.val) ∧
      min (2 ^ (x.bucket.val + 3)) 4096 ∣ l.2.toNat := by
  obtain ⟨S, hrepr, hshaped, hok, hreturned⟩ := shaped_run (run_tame hrun)
  intro l hl hne
  obtain ⟨x, hhas, hptr, hclass⟩ := hreturned l hl hne
  have hx := (hrepr.owns.has x).mp hhas
  exact ⟨x, hx, hptr, hclass, hptr ▸ hrepr.carved_paged hshaped hok hx⟩

/-- A break at 4095 is moved by 4093, the wrapped amount. -/
theorem natural_alignment_wrap :
    ∃ x : Block, x.ptr = 8224 ∧ min (2 ^ (x.bucket.val + 3)) 4096 ∣ 8224 := by
  obtain ⟨tr, sys, hrun, hlabels, _⟩ := exists_run_of_observe
    (show (Port.allocator 0).observe Disciplined (BreakOk 4095) [.kmalloc 20, .kmalloc 20]
      (boot fun k => if k ≤ 1 then 4095 else 8188) Sys.live
        = some ([8192, 8224], [⟨8224, 20⟩, ⟨8192, 20⟩]) by decide +kernel)
  obtain ⟨x, _, hptr, _, hdvd⟩ := natural_alignment hrun (.kmalloc 20, 8224)
    (by simp [hlabels]) (by decide)
  exact ⟨x, hptr, hdvd⟩

/-- **The header tells live blocks from free ones**: after every run of a
disciplined client, with a break that only the allocator moves, the first
byte of a carved block is `MAGIC` exactly when the block is live. So is what
`realloc` tests below any pointer that was ever returned. -/
theorem header_magic
    (hrun : Run ((Port.allocator fuel).Step Disciplined (BreakOk brk₀))
      (Sys.start Statics.initial mem os) tr sys) :
    (∀ x ∈ carved sys.machine.log, sys.machine.mem x.addr = magic ↔ Held sys.live x.ptr) ∧
      ∀ p ∈ returned tr, p ≠ null →
        (sys.machine.mem (p - overheadSize) = magic ↔ Held sys.live p) := by
  obtain ⟨S, hrepr, hshaped, hok, hreturned⟩ := shaped_run (run_tame hrun)
  have hheader : ∀ x ∈ carved sys.machine.log,
      (sys.machine.mem x.addr = magic ↔ Held sys.live x.ptr) :=
    fun x hx => hrepr.header_iff hshaped hok hx
  refine ⟨hheader, fun p hp hne => ?_⟩
  obtain ⟨l, hl, rfl⟩ := List.mem_map.mp hp
  obtain ⟨x, hhas, hptr, _⟩ := hreturned l hl hne
  rw [← hptr, Owns.ptr_sub]
  exact hheader x ((hrepr.owns.has x).mp hhas)

theorem header_magic_page : ∃ sys : Sys Statics, sys.live = [⟨4096, 20⟩] ∧
    sys.machine.mem 4092 = magic ∧ sys.machine.mem 4124 ≠ magic := by
  obtain ⟨tr, sys, hrun, hlabels, hlive⟩ := exists_run_of_observe
    (show (Port.allocator 0).observe Disciplined (BreakOk 4092)
      [.kmalloc 20, .kmalloc 20, .kfree 4128] (boot fun _ => 4092) Sys.live
        = some ([4096, 4128, 0], [⟨4096, 20⟩]) by decide +kernel)
  have hheader := (header_magic hrun).2
  refine ⟨sys, hlive, (hheader 4096 ?_ (by decide)).mpr ?_, fun hmagic => ?_⟩
  · simp [returned, hlabels]
  · simp [Held, hlive]
  · have hheld := (hheader 4128 (by simp [returned, hlabels]) (by decide)).mp hmagic
    simp [Held, hlive] at hheld

end Runs

end Challenges.Kmalloc

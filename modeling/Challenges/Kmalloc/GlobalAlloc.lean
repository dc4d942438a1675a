import Mathlib.Algebra.Order.Ring.Nat
import Challenges.Kmalloc.Alignment

/-!
# GlobalAlloc — `lib.rs`, and the alignment a layout asks for

`Kmalloc::alloc` passes on the size of a layout and drops its alignment, so
a pointer is as aligned as the bucket of the size happens to make it. This
module says for which layouts that is enough.
-/

namespace Challenges.Kmalloc

open Challenges.Lib Challenges.Kmalloc.Port

/-- `core::alloc::Layout` with 32-bit pointers: the alignment is a power of
two, and the size rounded up to it is at most `isize::MAX`. -/
structure Layout where
  size : UInt32
  align : UInt32
  pow : ∃ k, align.toNat = 2 ^ k
  fits : size.toNat + align.toNat ≤ 2 ^ 31

namespace GlobalAlloc

variable (bld : Build)

def alloc (layout : Layout) : M Statics UInt32 := do
  let ptr ← kmalloc bld layout.size
  if ptr = null then throw .allocError
  return ptr

def dealloc (ptr : UInt32) (_layout : Layout) : M Statics Unit :=
  kfree bld ptr

end GlobalAlloc

open GlobalAlloc

/-- `alloc` returns what `kmalloc` does, unless that is null. -/
theorem run_alloc {layout : Layout} {s t : Machine Statics} {p : UInt32} :
    (alloc release layout).run s = .ok (p, t) ↔
      p ≠ null ∧ (kmalloc release layout.size).run s = .ok (p, t) := by
  simp only [alloc, StateT.run_bind]
  cases (kmalloc release layout.size).run s with
  | error e => simp
  | ok q =>
      obtain ⟨r, u⟩ := q
      by_cases hr : r = null
      · subst hr
        simp only [ok_bind, if_true, StateT.run_bind]
        constructor
        · intro h
          cases h
        · rintro ⟨hne, heq⟩
          cases heq
          exact absurd rfl hne
      · simp only [ok_bind, hr, if_false, StateT.run_pure, pure_eq_ok]
        constructor
        · intro h
          cases h
          exact ⟨hr, rfl⟩
        · exact And.right

/-! ## What a bucket gives, and what a layout needs -/

theorem natural_eq (b : Nat) : natural b = 2 ^ min (b + 3) 12 := by
  rw [natural, show 4096 = 2 ^ 12 from rfl]
  rcases Nat.le_total (b + 3) 12 with h | h
  · rw [Nat.min_eq_left h, Nat.min_eq_left (Nat.pow_le_pow_right (by decide) h)]
  · rw [Nat.min_eq_right h, Nat.min_eq_right (Nat.pow_le_pow_right (by decide) h)]

/-- The layouts whose alignment their size implies. -/
def Layout.Natural (layout : Layout) : Prop :=
  layout.align.toNat ≤ 8 ∨
    (layout.align.toNat ≤ 4096 ∧ layout.align.toNat < 2 * (layout.size.toNat + 4))

namespace Layout

variable {layout : Layout} {b : Nat}

/-- A size that a layout can have is of some class. -/
theorem exists_class (layout : Layout) :
    ∃ b : Fin nbuckets, b.val < 29 ∧ sizeClass layout.size.toNat = some b.val := by
  cases hclass : sizeClass layout.size.toNat with
  | none =>
      have := sizeClass_eq_none.mp hclass
      have := layout.fits
      have : cap 28 = 2 ^ 31 + 4092 := by decide
      omega
  | some b =>
      have hb := (sizeClass_eq_some.mp hclass).2.1
      exact ⟨⟨b, lt_nbuckets hb⟩, hb, rfl⟩

/-- **The condition is the bucket's**: a layout is natural exactly when its
alignment divides that of the bucket of its size. -/
theorem natural_iff (hclass : sizeClass layout.size.toNat = some b) :
    layout.Natural ↔ layout.align.toNat ∣ Kmalloc.natural b := by
  obtain ⟨hfit, _, hmin⟩ := sizeClass_eq_some.mp hclass
  obtain ⟨k, hk⟩ := layout.pow
  have hlt : (1 : Nat) < 2 := by decide
  rw [Layout.Natural, natural_eq, hk, Nat.pow_dvd_pow_iff_le_right hlt]
  rcases Nat.lt_or_ge 8 b with hb | hb
  · -- from the page size up the size is beyond the reach of bucket 8
    have hsize := hmin 8 hb
    have hcap : cap 8 = 2044 := by decide
    have hpage : 2 ^ k ≤ 2 ^ 12 ↔ k ≤ 12 := Nat.pow_le_pow_iff_right hlt
    omega
  · rw [cap_small hb] at hfit
    have hpow : 2 ^ (b + 3) ≤ 2 ^ 11 := Nat.pow_le_pow_right (by decide) (by omega)
    have height : 2 ^ 3 ≤ 2 ^ (b + 3) := Nat.pow_le_pow_right (by decide) (by omega)
    have hle : 2 ^ k ≤ 2 ^ (b + 3) ↔ k ≤ b + 3 := Nat.pow_le_pow_iff_right hlt
    have hge : 2 ^ (b + 4) ≤ 2 ^ k ↔ b + 4 ≤ k := Nat.pow_le_pow_iff_right hlt
    have hdouble : 2 ^ (b + 4) = 2 * 2 ^ (b + 3) := Nat.pow_succ'
    -- the bucket below is too small
    have hhalf : 2 ^ (b + 3) = 2 ^ 3 ∨ 2 ^ (b + 3) < 2 * (layout.size.toNat + 4) := by
      cases b with
      | zero => exact .inl rfl
      | succ b =>
          have hsize := hmin b (by omega)
          rw [cap_small (by omega)] at hsize
          have hdouble : 2 ^ (b + 1 + 3) = 2 * 2 ^ (b + 3) := Nat.pow_succ'
          exact .inr (by omega)
    rw [Nat.min_eq_left (by omega)]
    omega

end Layout

/-! ## States in which a bucket gives no more -/

/-- The break is at 4092, and every later call of `sbrk` is answered with `a`. -/
def pageAt (a : UInt32) : Nat → UInt32 := fun k => if k = 0 then 4092 else a

/-- The port after its first call, with the break at 4092. -/
def atPage (a : UInt32) : Machine Statics := (initialised (boot (pageAt a)).machine).2

theorem atPage_ready (a : UInt32) : (initialised (boot (pageAt a)).machine).1 = true ∧
    (atPage a).vars.pageSz = 4096 ∧ (atPage a).vars.pageBucket = 9 := by
  have hfirst : (initialised (boot (pageAt a)).machine).1 = true := by
    show (aligned _ (alignBy 4092)).1 = true
    rw [aligned, if_neg (by decide)]
  have hcases := initialised_cases (boot (pageAt a)).machine
  unfold atPage
  generalize initialised (boot (pageAt a)).machine = q at *
  rcases hcases with ⟨hpage, _, _, _, ⟨_, hbucket, _⟩ | ⟨hfalse, _⟩⟩
  · exact ⟨hfirst, hpage, hbucket⟩
  · rw [hfirst] at hfalse
    cases hfalse

section AtPage

variable {a n : UInt32} {b : Fin nbuckets}

theorem run_serve_class {s : Machine Statics} (hpage : s.vars.pageSz = 4096)
    (hbucket : s.vars.pageBucket = 9) (hclass : sizeClass n.toNat = some b.val) :
    (serve release n).run s = .ok (taken s b) := by
  rcases run_serve n hpage hbucket with ⟨hnone, _⟩ | ⟨c, _, hc, hserve⟩
  · rw [hnone] at hclass
    cases hclass
  · have hcb : c = b := Fin.ext (Option.some.inj (hc.symm.trans hclass))
    rw [hserve, hcb]

theorem run_kmalloc_boot (hclass : sizeClass n.toNat = some b.val) :
    (kmalloc release n).run (boot (pageAt a)).machine = .ok (taken (atPage a) b) := by
  obtain ⟨hfirst, hpage, hbucket⟩ := atPage_ready a
  have hpage₀ : (boot (pageAt a)).machine.vars.pageSz = 0 := rfl
  rw [run_kmalloc_first hpage₀, if_pos hfirst, ← atPage]
  exact run_serve_class hpage hbucket hclass

theorem run_kmalloc_again (hclass : sizeClass n.toNat = some b.val) :
    (kmalloc release n).run (taken (atPage a) b).2
      = .ok (taken (taken (atPage a) b).2 b) := by
  obtain ⟨_, hpage, hbucket⟩ := atPage_ready a
  obtain ⟨hpage', hbucket'⟩ := taken_statics (atPage a) b
  rw [run_kmalloc (hpage'.trans hpage)]
  exact run_serve_class (hpage'.trans hpage) (hbucket'.trans hbucket) hclass

/-- After that call every list is empty, and `sbrk` has been asked once. -/
theorem atPage_eq (a : UInt32) (b : Fin nbuckets) : (atPage a).vars.nextf b = null ∧
    (atPage a).os (atPage a).log.length = a ∧ (atPage a).log = [⟨.query, 0, 4092⟩] := by
  have hready : atPage a = ready (queried (boot (pageAt a)).machine) := by
    show (aligned _ (alignBy 4092)).2 = _
    rw [aligned, if_neg (by decide)]
  rw [hready]
  exact ⟨rfl, rfl, rfl⟩

/-- The first block of a page is at its start. -/
theorem taken_page (hret : a ≠ sbrkFailed) (hbase : a ≠ null) (b : Fin nbuckets) :
    (taken (atPage a) b).1 = a + overheadSize ∧
      (taken (atPage a) b).2.log = [⟨.query, 0, 4092⟩, growCall b a] := by
  obtain ⟨hnull, hos, hlog⟩ := atPage_eq a b
  have hrefilled : refilled (atPage a) b = afterMorecore (atPage a) b := if_pos hnull
  constructor
  · rw [taken_carved hnull (by rwa [hos]) (by rwa [hos]), hos]
  · rw [log_taken, hrefilled, log_afterMorecore, hos, hlog, List.singleton_append]

end AtPage

/-- The answers 4092 and 4093 to the call for a page are within their rules. -/
theorem page_calls_ok : ∀ b : Fin nbuckets, b.val < 29 →
    BreakOk 4092 [⟨.query, 0, 4092⟩, growCall b 4092] ∧
      SbrkOk [⟨.query, 0, 4092⟩, growCall b 4093] := by
  decide +kernel

/-- The first block of a page is at the page. -/
theorem taken_atPage (b : Fin nbuckets) (hb : b.val < 29) :
    (taken (atPage 4092) b).1 = 4096 ∧ BreakOk 4092 (taken (atPage 4092) b).2.log ∧
      (taken (atPage 4093) b).1 = 4097 ∧ SbrkOk (taken (atPage 4093) b).2.log := by
  obtain ⟨hbreak, hsbrk⟩ := page_calls_ok b hb
  obtain ⟨hfirst, hlog⟩ := @taken_page 4092 (by decide) (by decide) b
  obtain ⟨hfirst', hlog'⟩ := @taken_page 4093 (by decide) (by decide) b
  rw [hlog, hlog']
  exact ⟨hfirst, hbreak, hfirst', hsbrk⟩

/-- Below the page size a page has a second block, as far on as the first is large. -/
theorem page_blocks {b : Nat} (hb : b < 9) :
    2 ≤ nblks b ∧ room b = natural b ∧ (4092 : UInt32).toNat + grant b ≤ 2 ^ 32 ∧
      4092 + UInt32.ofNat (natural b) ≠ null := by
  have h : ∀ b : Fin 9, 2 ≤ nblks b ∧ room b = natural b ∧
      (4092 : UInt32).toNat + grant b ≤ 2 ^ 32 ∧ 4092 + UInt32.ofNat (natural b) ≠ null := by
    decide
  exact h ⟨b, hb⟩

/-- The second block of a page is one block further. -/
theorem taken_again (b : Fin nbuckets) (hb : b.val < 9) :
    (taken (taken (atPage 4092) b).2 b).1 = 4096 + UInt32.ofNat (natural b) ∧
      BreakOk 4092 (taken (taken (atPage 4092) b).2 b).2.log := by
  obtain ⟨htwo, hroom, hfit, hne⟩ := page_blocks hb
  obtain ⟨hnull, hos, _⟩ := atPage_eq 4092 b
  obtain ⟨_, hlog⟩ := @taken_page 4092 (by decide) (by decide) b
  have hret : (atPage 4092).os (atPage 4092).log.length ≠ sbrkFailed := by
    rw [hos]
    decide
  have hbase : (atPage 4092).os (atPage 4092).log.length ≠ null := by
    rw [hos]
    decide
  have hlink := afterMorecore_load32 (by omega) hret (by rwa [hos]) htwo
  have htaken := taken_carved hnull hret hbase
  rw [hos, hroom] at hlink
  -- the list starts at the second block
  have hnext : (taken (atPage 4092) b).2.vars.nextf b = 4092 + UInt32.ofNat (natural b) := by
    rw [htaken]
    simp [unlinked, nextf_afterMorecore hret, hos, hlink]
  have hkept : refilled (taken (atPage 4092) b).2 b = (taken (atPage 4092) b).2 :=
    if_neg (by rwa [hnext])
  constructor
  · rw [taken_of_ne hkept (by rwa [hnext]), hnext, UInt32.add_assoc, UInt32.add_comm _ overheadSize,
      ← UInt32.add_assoc]
    rfl
  · rw [log_taken, hkept, hlog]
    exact (page_calls_ok b (by omega)).1

/-! ## The theorem -/

/-- In every state that a tame client reaches under an assumption on `sbrk`,
what `alloc` returns is a multiple of the layout's alignment. -/
def AlwaysAligned (Env : List SbrkCall → Prop) (layout : Layout) : Prop :=
  ∀ (fuel : Nat) (mem : Mem) (os : Nat → UInt32) (tr : List ((Call × UInt32) × Sys Statics))
    (sys : Sys Statics), Run ((Port.allocator fuel).Step Tame Env)
      (Sys.start Statics.initial mem os) tr sys →
    ∀ p t, (alloc release layout).run sys.machine = .ok (p, t) → Env t.log →
      layout.align.toNat ∣ p.toNat

theorem Layout.Natural.aligned {layout : Layout} (h : layout.Natural) (brk₀ : Nat) :
    AlwaysAligned (BreakOk brk₀) layout := by
  intro fuel mem os tr sys hrun p t halloc hok
  obtain ⟨S, hrepr, hshaped, _, _⟩ := shaped_run hrun
  obtain ⟨hne, hmalloc⟩ := run_alloc.mp halloc
  have hperform : (Port.allocator fuel).perform sys (.kmalloc layout.size)
      = .ok (p, ⟨t, handOut p layout.size sys.live⟩) := perform_kmalloc.mpr ⟨t, hmalloc, rfl⟩
  have htame : Tame sys (.kmalloc layout.size) := trivial
  obtain ⟨hshaped', hfresh⟩ := hrepr.shaped hshaped htame hperform hok
  obtain ⟨S', hrepr', _⟩ :=
    hrepr.step (l := (.kmalloc layout.size, p)) ⟨htame, hperform, hfresh⟩
  obtain ⟨x, hx, rfl, n, hn, hclass⟩ := hrepr.served htame hperform hfresh hok.2 hne
  cases hn
  exact Nat.dvd_trans ((Layout.natural_iff hclass).mp h) (hrepr'.carved_paged hshaped' hok hx)

/-- An alignment that divides the bucket's needs all of it: no smaller power of
two would do. -/
theorem Layout.dvd_of_not_natural {layout : Layout} {b : Nat}
    (hclass : sizeClass layout.size.toNat = some b) (h : ¬ layout.Natural) :
    2 * Kmalloc.natural b ∣ layout.align.toNat := by
  rw [Layout.natural_iff hclass] at h
  obtain ⟨k, hk⟩ := layout.pow
  rw [natural_eq, hk, Nat.pow_dvd_pow_iff_le_right (by decide)] at h
  rw [natural_eq, hk, ← Nat.pow_succ']
  exact Nat.pow_dvd_pow 2 (by omega)

theorem not_dvd_first {b : Nat} (hb : b < 29) (hlarge : 9 ≤ b) : ¬ 2 * natural b ∣ 4096 := by
  have h : ∀ b : Fin 29, 9 ≤ b.val → ¬ 2 * natural b.val ∣ 4096 := by decide
  exact h ⟨b, hb⟩ hlarge

theorem not_dvd_second {b : Nat} (hb : b < 9) :
    4096 + UInt32.ofNat (natural b) ≠ null ∧
      ¬ 2 * natural b ∣ (4096 + UInt32.ofNat (natural b)).toNat := by
  have h : ∀ b : Fin 9, 4096 + UInt32.ofNat (natural b.val) ≠ null ∧
      ¬ 2 * natural b.val ∣ (4096 + UInt32.ofNat (natural b.val)).toNat := by decide
  exact h ⟨b, hb⟩

/-- **A layout that is not natural is served badly**, by the first block of a
page or by the second. -/
theorem Layout.not_aligned {layout : Layout} (h : ¬ layout.Natural) :
    ¬ AlwaysAligned (BreakOk 4092) layout := by
  intro halways
  obtain ⟨b, hb, hclass⟩ := layout.exists_class
  have hdvd := Layout.dvd_of_not_natural hclass h
  obtain ⟨hfirst, hok, _⟩ := taken_atPage b hb
  have hmalloc := run_kmalloc_boot (a := 4092) hclass
  rcases Nat.lt_or_ge b.val 9 with hsmall | hlarge
  · -- the second block is one block above the page
    obtain ⟨hsecond, hok'⟩ := taken_again b hsmall
    obtain ⟨hne, hno⟩ := not_dvd_second hsmall
    have hagain := run_kmalloc_again (a := 4092) hclass
    generalize taken (atPage 4092) b = q at *
    have hrun : Run ((Port.allocator 0).Step Tame (BreakOk 4092)) (boot (pageAt 4092))
        [((.kmalloc layout.size, q.1), ⟨q.2, handOut q.1 layout.size []⟩)]
        ⟨q.2, handOut q.1 layout.size []⟩ :=
      .snoc .nil ⟨trivial, perform_kmalloc.mpr ⟨q.2, hmalloc, rfl⟩, hok⟩
    rw [← hsecond] at hne hno
    generalize taken q.2 b = q' at *
    have halloc := run_alloc.mpr ⟨hne, hagain⟩
    have haligned := halways 0 _ _ _ _ hrun _ _ halloc hok'
    exact hno (Nat.dvd_trans hdvd haligned)
  · have hne : (taken (atPage 4092) b).1 ≠ null := by
      rw [hfirst]
      decide
    have haligned := halways 0 _ _ [] _ .nil _ _ (run_alloc.mpr ⟨hne, hmalloc⟩) hok
    rw [hfirst] at haligned
    exact not_dvd_first hb hlarge (Nat.dvd_trans hdvd haligned)

/-- When others move the break too, a region may start anywhere. -/
theorem Layout.not_aligned_shared {layout : Layout} (h : layout.align ≠ 1) :
    ¬ AlwaysAligned SbrkOk layout := by
  intro halways
  obtain ⟨b, hb, hclass⟩ := layout.exists_class
  obtain ⟨_, _, hfirst, hok⟩ := taken_atPage b hb
  have hmalloc := run_kmalloc_boot (a := 4093) hclass
  have hne : (taken (atPage 4093) b).1 ≠ null := by
    rw [hfirst]
    decide
  have haligned := halways 0 _ _ [] _ .nil _ _ (run_alloc.mpr ⟨hne, hmalloc⟩) hok
  rw [hfirst] at haligned
  obtain ⟨k, hk⟩ := layout.pow
  have htwo : 2 ∣ layout.align.toNat := by
    cases k with
    | zero => exact absurd (UInt32.toNat_inj.mp hk) h
    | succ k => exact ⟨2 ^ k, hk.trans Nat.pow_succ'⟩
  have hodd : ¬ 2 ∣ (4097 : UInt32).toNat := by decide
  exact hodd (Nat.dvd_trans htwo haligned)

/-- **Alignment of layouts**: when only the allocator moves the break, `alloc`
keeps a layout's alignment in every reachable state exactly when it is at
most 8, or at most a page and less than twice the size and its header. When
others move the break too, it keeps only the alignment 1. -/
theorem layout_alignment (layout : Layout) :
    ((∀ brk₀, AlwaysAligned (BreakOk brk₀) layout) ↔
      layout.align.toNat ≤ 8 ∨ (layout.align.toNat ≤ 4096 ∧
        layout.align.toNat < 2 * (layout.size.toNat + 4))) ∧
    (AlwaysAligned SbrkOk layout ↔ layout.align = 1) := by
  constructor
  · constructor
    · intro halways
      by_contra hno
      exact Layout.not_aligned hno (halways 4092)
    · intro hnatural brk₀
      exact Layout.Natural.aligned hnatural brk₀
  · constructor
    · intro halways
      by_contra hne
      exact Layout.not_aligned_shared hne halways
    · intro hone fuel mem os tr sys _ p t _ _
      rw [hone]
      exact Nat.one_dvd _

/-- What `alloc` returns, and whether the log is one of a break that nobody
else moves. -/
def tryAlloc (brk₀ : Nat) (layout : Layout) (s : Machine Statics) : Option (UInt32 × Bool) :=
  match (alloc release layout).run s with
  | .ok (p, t) => some (p, decide (BreakOk brk₀ t.log))
  | .error _ => none

theorem exists_of_tryAlloc {brk₀ : Nat} {layout : Layout} {s : Machine Statics} {p : UInt32}
    (h : tryAlloc brk₀ layout s = some (p, true)) :
    ∃ t, (alloc release layout).run s = .ok (p, t) ∧ BreakOk brk₀ t.log := by
  rw [tryAlloc] at h
  split at h
  · rename_i q t halloc
    obtain ⟨rfl, hok⟩ := Prod.ext_iff.mp (Option.some.inj h)
    exact ⟨t, halloc, of_decide_eq_true hok⟩
  · cases h

/-- Two layouts of 4 bytes at a multiple of 16: the second gets 4104. A page
for a layout of 8192 bytes at a multiple of 8192 starts at 4096. -/
theorem layout_alignment_skewed :
    (∃ tr sys t, Run ((Port.allocator 0).Step Disciplined (BreakOk 4092)) (boot fun _ => 4092)
        tr sys ∧ labels tr = [(.kmalloc 4, 4096)] ∧
      (alloc release ⟨4, 16, ⟨4, rfl⟩, by decide⟩).run sys.machine = .ok (4104, t) ∧
      BreakOk 4092 t.log ∧ ¬ 16 ∣ (4104 : UInt32).toNat) ∧
    ∃ t, (alloc release ⟨8192, 8192, ⟨13, rfl⟩, by decide⟩).run (boot fun _ => 4092).machine
        = .ok (4096, t) ∧ BreakOk 4092 t.log ∧ ¬ 8192 ∣ (4096 : UInt32).toNat := by
  obtain ⟨tr, sys, hrun, hlabels, hobs⟩ := exists_run_of_observe
    (show (Port.allocator 0).observe Disciplined (BreakOk 4092) [.kmalloc 4]
      (boot fun _ => 4092)
      (fun sys => tryAlloc 4092 ⟨4, 16, ⟨4, rfl⟩, by decide⟩ sys.machine)
        = some ([4096], some (4104, true)) by decide +kernel)
  obtain ⟨t, halloc, hok⟩ := exists_of_tryAlloc hobs
  obtain ⟨t', halloc', hok'⟩ := exists_of_tryAlloc
    (show tryAlloc 4092 ⟨8192, 8192, ⟨13, rfl⟩, by decide⟩ (boot fun _ => 4092).machine
      = some (4096, true) by decide +kernel)
  exact ⟨⟨tr, sys, t, hrun, hlabels, halloc, hok, by decide⟩, t', halloc', hok', by decide⟩

end Challenges.Kmalloc

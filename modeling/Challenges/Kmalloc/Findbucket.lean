import Mathlib.Data.Fin.Tuple.Basic
import Mathlib.Order.Fin.Basic
import Challenges.Lib.Chain
import Challenges.Kmalloc.Original

/-!
# Findbucket — the search of the free lists

`bucketOf` is what `findbucket` is for: the least bucket that has a block
among the first `srchlen` blocks of its free list. The port never advances
its pointer along a list and compares a flag where the original compares a
count, so that it looks at the first block only, and on an empty list it
does not end. `findbucket_meets` says exactly when that makes no difference.
-/

namespace Challenges.Kmalloc

open Challenges.Lib

/-- The blocks of a list that a search of depth `srchlen` looks at. -/
def searched (srchlen : Int32) (l : List UInt32) : List UInt32 :=
  if srchlen = -1 then l else l.take srchlen.toNatClampNeg

/-- The least bucket whose list has `freep` among the blocks searched, or `-1`. -/
def bucketOf (lists : Fin nbuckets → List UInt32) (freep : UInt32) (srchlen : Int32) : Int32 :=
  (Fin.find? fun i => decide (freep ∈ searched srchlen (lists i))).elim (-1) fun i => Int32.ofNat i

section Searched

variable {next : UInt32 → UInt32} {p freep : UInt32} {l : List UInt32} {srchlen : Int32}

theorem toNatClampNeg_ne_zero (h0 : srchlen ≠ 0) (h1 : srchlen ≠ -1) (hs : -1 ≤ srchlen) :
    srchlen.toNatClampNeg ≠ 0 := by
  have hpos : 0 < srchlen := by
    rw [Int32.le_iff_toInt_le] at hs
    rw [Int32.lt_iff_toInt_lt]
    have h0' : srchlen.toInt ≠ 0 := fun h => h0 (Int32.toInt_inj.mp h)
    have h1' : srchlen.toInt ≠ -1 := fun h => h1 (Int32.toInt_inj.mp h)
    have hzero : (0 : Int32).toInt = 0 := rfl
    have hneg : (-1 : Int32).toInt = -1 := rfl
    omega
  have := (Int32.toNatClampNeg_pos_iff srchlen).mpr hpos
  omega

/-- The first block of a list is searched, at any depth but 0. -/
theorem head_searched (hl : Chain next null p l) (hp : p ≠ null) (h0 : srchlen ≠ 0)
    (hs : -1 ≤ srchlen) : p ∈ searched srchlen l := by
  obtain ⟨rest, rfl, _⟩ := hl.exists_cons hp
  rw [searched]
  split
  · exact List.mem_cons_self
  · rename_i h1
    obtain ⟨k, hk⟩ := Nat.exists_eq_succ_of_ne_zero (toNatClampNeg_ne_zero h0 h1 hs)
    rw [hk, List.take_succ_cons]
    exact List.mem_cons_self

theorem mem_searched_one (hl : Chain next null p l) :
    freep ∈ searched 1 l ↔ p = freep ∧ freep ≠ null := by
  have hone : searched 1 l = l.take 1 := rfl
  rw [hone]
  cases hl with
  | nil =>
      simp only [List.take_nil, List.not_mem_nil, false_iff, not_and, ne_eq, not_not]
      exact fun h => h.symm
  | @cons a l hne ht =>
      rw [List.take_succ_cons, List.take_zero, List.mem_singleton]
      constructor
      · rintro rfl
        exact ⟨rfl, hne⟩
      · exact fun h => h.1.symm

theorem null_not_searched (hl : Chain next null p l) : null ∉ searched srchlen l := by
  rw [searched]
  split
  · exact hl.null_notMem
  · exact fun h => hl.null_notMem (List.mem_of_mem_take h)

end Searched

namespace Port

variable {bld : Build} {s t : Machine Statics}

/-! ## The inner loop -/

/-- How the inner loop of `findbucket` ends on a list that starts at `p`. -/
inductive Scan where
  | found
  | passed
  | endless
  deriving DecidableEq

def scan (p freep : UInt32) (srchlen : Int32) : Scan :=
  if srchlen = 0 then .passed
  else if p = freep then .found
  else if srchlen = 1 ∧ p ≠ null then .passed
  else .endless

section SearchList

variable {p freep : UInt32} {srchlen : Int32}

theorem toUInt32_eq_iff (x y : Int32) : x.toUInt32 = y.toUInt32 ↔ x = y :=
  ⟨fun h => by simpa using congrArg UInt32.toInt32 h, fun h => h ▸ rfl⟩

theorem flag_eq_iff (j : Int32) :
    (if p = null ∨ j = 0 then (0 : UInt32) else 1) = srchlen.toUInt32 ↔
      (srchlen = 0 ∧ (p = null ∨ j = 0)) ∨ (srchlen = 1 ∧ p ≠ null ∧ j ≠ 0) := by
  have h0 := toUInt32_eq_iff srchlen 0
  have h1 := toUInt32_eq_iff srchlen 1
  rw [show (0 : Int32).toUInt32 = 0 from rfl] at h0
  rw [show (1 : Int32).toUInt32 = 1 from rfl] at h1
  grind

theorem run_searchStep (j : Int32) : (searchStep bld p freep srchlen j).run s =
    if (srchlen = 0 ∧ (p = null ∨ j = 0)) ∨ (srchlen = 1 ∧ p ≠ null ∧ j ≠ 0) then
      .ok (.inr false, s)
    else if p = freep then .ok (.inr true, s)
    else (Sum.inl <$> bld.addI32 j 1 : M Statics (Int32 ⊕ Bool)).run s := by
  rw [searchStep]
  simp only [flag_eq_iff]
  split
  · rfl
  · split
    · rfl
    · rw [map_eq_pure_bind]

theorem addI32_zero_one : (bld.addI32 0 1 : M Statics Int32) = pure 1 := by
  have hover : BitVec.saddOverflow (0 : Int32).toBitVec (1 : Int32).toBitVec = false := by
    decide
  rw [Build.addI32, Build.check, hover, Bool.and_false]
  rfl

/-- Two rounds are enough where the loop ends. -/
theorem run_searchList (fuel : Nat) (h : scan p freep srchlen ≠ .endless) :
    (searchList bld (fuel + 2) p freep srchlen).run s
      = .ok (decide (scan p freep srchlen = .found), s) := by
  rw [searchList]
  by_cases h0 : srchlen = 0
  · rw [loop_done (b := false) (by rw [run_searchStep, if_pos (.inl ⟨h0, .inr rfl⟩)])]
    simp [scan, h0]
  · by_cases hp : p = freep
    · rw [loop_done (b := true) (by rw [run_searchStep, if_neg (by simp [h0]), if_pos hp])]
      simp [scan, h0, hp]
    · have hone : srchlen = 1 ∧ p ≠ null := by
        by_contra hne
        exact h (by rw [scan, if_neg h0, if_neg hp, if_neg hne])
      have hfirst : (searchStep bld p freep srchlen 0).run s = .ok (.inl 1, s) := by
        rw [run_searchStep, if_neg (by simp [h0]), if_neg hp, addI32_zero_one]
        rfl
      rw [loop_next hfirst,
        loop_done (b := false) (by rw [run_searchStep, if_pos (.inr ⟨hone.1, hone.2, by decide⟩)])]
      simp [scan, hp, hone]

/-- On an endless list no number of rounds is enough. -/
theorem searchList_ne_ok (h : scan p freep srchlen = .endless) {fuel : Nat} {b : Bool} :
    (searchList bld fuel p freep srchlen).run s ≠ .ok (b, t) := by
  have h0 : srchlen ≠ 0 := by
    rintro rfl
    simp [scan] at h
  have hp : p ≠ freep := by
    rintro rfl
    simp [scan, h0] at h
  have hone : ¬ (srchlen = 1 ∧ p ≠ null) := by
    intro hone
    simp [scan, hp, hone] at h
  apply loop_ne_ok
  intro j u b v hstep
  rw [run_searchStep, if_neg (by grind), if_neg hp] at hstep
  rw [map_eq_pure_bind] at hstep
  obtain ⟨_, _, _, hpure⟩ := run_bind_eq_ok.mp hstep
  cases hpure

/-- On any fuel the inner loop returns that, or nothing. -/
theorem searchList_ok {fuel : Nat} {b : Bool}
    (h : (searchList bld fuel p freep srchlen).run s = .ok (b, t)) :
    scan p freep srchlen ≠ .endless ∧ b = decide (scan p freep srchlen = .found) ∧ t = s := by
  have hends : scan p freep srchlen ≠ .endless := fun hend => searchList_ne_ok hend h
  have hmore : (searchList bld (fuel + 2) p freep srchlen).run s = .ok (b, t) := loop_mono 2 h
  rw [run_searchList fuel hends] at hmore
  obtain ⟨hb, ht⟩ := Prod.ext_iff.mp (Except.ok.inj hmore)
  exact ⟨hends, hb.symm, ht.symm⟩

end SearchList

/-! ## The outer loop -/

section SearchBuckets

variable {nextf : Fin nbuckets → UInt32} {freep : UInt32} {srchlen r : Int32}

/-- What the outer loop returns over the buckets `bs`, if it returns: it goes
on while the inner loop passes. -/
def outcome (nextf : Fin nbuckets → UInt32) (freep : UInt32) (srchlen : Int32)
    (bs : List (Fin nbuckets)) : Option Int32 :=
  match bs.find? (fun i => decide (scan (nextf i) freep srchlen ≠ .passed)) with
  | none => some (-1)
  | some i => if scan (nextf i) freep srchlen = .found then some (Int32.ofNat i) else none

theorem outcome_found {i : Fin nbuckets} {rest : List (Fin nbuckets)}
    (h : scan (nextf i) freep srchlen = .found) :
    outcome nextf freep srchlen (i :: rest) = some (Int32.ofNat i) := by
  rw [outcome, List.find?_cons_of_pos (by simp [h])]
  exact if_pos h

theorem outcome_passed {i : Fin nbuckets} {rest : List (Fin nbuckets)}
    (h : scan (nextf i) freep srchlen = .passed) :
    outcome nextf freep srchlen (i :: rest) = outcome nextf freep srchlen rest := by
  rw [outcome, List.find?_cons_of_neg (by simp [h])]
  rfl

theorem outcome_endless {i : Fin nbuckets} {rest : List (Fin nbuckets)}
    (h : scan (nextf i) freep srchlen = .endless) :
    outcome nextf freep srchlen (i :: rest) = none := by
  rw [outcome, List.find?_cons_of_pos (by simp [h])]
  exact if_neg (by simp [h])

theorem run_searchBuckets (fuel : Nat) (bs : List (Fin nbuckets))
    (h : outcome s.vars.nextf freep srchlen bs = some r) :
    (searchBuckets bld (fuel + 2) freep srchlen bs).run s = .ok (r, s) := by
  induction bs with
  | nil =>
      rw [← Option.some.inj h]
      rfl
  | cons i rest ih =>
      simp only [searchBuckets, StateT.run_bind, StateT.run_get, pure_eq_ok, ok_bind]
      cases hscan : scan (s.vars.nextf i) freep srchlen with
      | found =>
          rw [outcome_found hscan] at h
          rw [run_searchList fuel (by simp [hscan]), ← Option.some.inj h]
          simp [hscan]
      | passed =>
          rw [outcome_passed hscan] at h
          rw [run_searchList fuel (by simp [hscan])]
          simpa [hscan] using ih h
      | endless =>
          rw [outcome_endless hscan] at h
          cases h

theorem searchBuckets_ok {fuel : Nat} (bs : List (Fin nbuckets))
    (h : (searchBuckets bld fuel freep srchlen bs).run s = .ok (r, t)) :
    t = s ∧ outcome s.vars.nextf freep srchlen bs = some r := by
  induction bs with
  | nil =>
      cases h
      exact ⟨rfl, rfl⟩
  | cons i rest ih =>
      simp only [searchBuckets, StateT.run_bind, StateT.run_get, pure_eq_ok, ok_bind] at h
      cases hlist : (searchList bld fuel (s.vars.nextf i) freep srchlen).run s with
      | error e =>
          rw [hlist] at h
          cases h
      | ok p =>
          obtain ⟨b, u⟩ := p
          obtain ⟨hends, hb, rfl⟩ := searchList_ok hlist
          rw [hlist, ok_bind] at h
          cases hscan : scan (u.vars.nextf i) freep srchlen with
          | found =>
              rw [hb, hscan] at h
              cases h
              exact ⟨rfl, outcome_found hscan⟩
          | passed =>
              rw [hb, hscan] at h
              rw [outcome_passed hscan]
              exact ih h
          | endless => exact absurd hscan hends

end SearchBuckets

/-- `findbucket` returns on enough fuel exactly when its loops come to an end. -/
theorem findbucket_iff {freep : UInt32} {srchlen r : Int32} :
    (∃ fuel, (findbucket bld fuel freep srchlen).run s = .ok (r, t)) ↔
      t = s ∧ outcome s.vars.nextf freep srchlen (List.finRange nbuckets) = some r := by
  constructor
  · intro h
    obtain ⟨fuel, hrun⟩ := h
    exact searchBuckets_ok _ hrun
  · intro h
    obtain ⟨rfl, hout⟩ := h
    exact ⟨2, run_searchBuckets 0 _ hout⟩

end Port

/-! ## Where the port meets the specification -/

section Meets

variable {nextf : Fin nbuckets → UInt32} {next : UInt32 → UInt32}
  {lists : Fin nbuckets → List UInt32} {freep : UInt32} {srchlen r : Int32}

open Port

theorem ofNat_bucket_ne (i : Fin nbuckets) : Int32.ofNat i.val ≠ -1 := by
  have h : ∀ i : Fin nbuckets, Int32.ofNat i.val ≠ -1 := by decide
  exact h i

theorem bucketOf_found {i : Fin nbuckets} (hi : freep ∈ searched srchlen (lists i))
    (hlt : ∀ j < i, freep ∉ searched srchlen (lists j)) :
    bucketOf lists freep srchlen = Int32.ofNat i := by
  have hfind : Fin.find? (fun i => decide (freep ∈ searched srchlen (lists i))) = some i := by
    rw [Fin.find?_eq_some_iff]
    exact ⟨decide_eq_true hi, fun j hj => decide_eq_false (hlt j hj)⟩
  rw [bucketOf, hfind, Option.elim_some]

theorem bucketOf_none (h : ∀ i, freep ∉ searched srchlen (lists i)) :
    bucketOf lists freep srchlen = -1 := by
  have hfind : Fin.find? (fun i => decide (freep ∈ searched srchlen (lists i))) = none := by
    rw [Fin.find?_eq_none_iff]
    exact fun i => decide_eq_false (h i)
  rw [bucketOf, hfind, Option.elim_none]

/-- The outer loop passes every list, or passes those below one where it
finds `freep`. -/
theorem outcome_finRange :
    outcome nextf freep srchlen (List.finRange nbuckets) = some r ↔
      ((∀ i, scan (nextf i) freep srchlen = .passed) ∧ r = -1) ∨
      ∃ i, scan (nextf i) freep srchlen = .found ∧
        (∀ j < i, scan (nextf j) freep srchlen = .passed) ∧ r = Int32.ofNat i := by
  rw [outcome, ← Fin.find?_eq_find?_finRange]
  cases hfind : Fin.find? (fun i => decide (scan (nextf i) freep srchlen ≠ .passed)) with
  | none =>
      rw [Fin.find?_eq_none_iff] at hfind
      simp only [decide_eq_false_iff_not, ne_eq, not_not] at hfind
      simp only [Option.some.injEq]
      constructor
      · exact fun h => .inl ⟨hfind, h.symm⟩
      · rintro (⟨_, h⟩ | ⟨i, hi, _⟩)
        · exact h.symm
        · rw [hfind i] at hi
          cases hi
  | some i =>
      rw [Fin.find?_eq_some_iff] at hfind
      simp only [decide_eq_true_eq, decide_eq_false_iff_not, ne_eq, not_not] at hfind
      obtain ⟨hstop, hlt⟩ := hfind
      simp only [Option.ite_none_right_eq_some, Option.some.injEq]
      constructor
      · exact fun h => .inr ⟨i, h.1, hlt, h.2.symm⟩
      · rintro (⟨hall, _⟩ | ⟨k, hk, hbelow, hr⟩)
        · exact absurd (hall i) hstop
        · -- both are the first bucket where the loop stops
          rcases lt_trichotomy i k with hik | rfl | hki
          · exact absurd (hbelow i hik) hstop
          · exact ⟨hk, hr.symm⟩
          · rw [hlt k hki] at hk
            cases hk

/-- The lists on which the port's search gives the right answer. -/
def Meets (nextf : Fin nbuckets → UInt32) (freep : UInt32) (srchlen : Int32) : Prop :=
  srchlen = 0 ∨ (freep ≠ null ∧ nextf 0 = freep) ∨
    (srchlen = 1 ∧ ∀ b, nextf b = null → ∃ c < b, nextf c = freep ∧ freep ≠ null)

theorem scan_one (p : UInt32) :
    (scan p freep 1 = .found ↔ p = freep) ∧
      (scan p freep 1 = .passed ↔ p ≠ freep ∧ p ≠ null) := by
  have hne : ¬ (1 : Int32) = 0 := by decide
  rw [scan, if_neg hne]
  by_cases hp : p = freep
  · simp [hp]
  · by_cases hnull : p = null
    · subst hnull
      simp [hp]
    · simp [hp, hnull]

theorem scan_deep (p : UInt32) (h0 : srchlen ≠ 0) (h1 : srchlen ≠ 1) :
    (scan p freep srchlen = .found ↔ p = freep) ∧ scan p freep srchlen ≠ .passed := by
  rw [scan, if_neg h0]
  by_cases hp : p = freep
  · simp [hp]
  · simp [hp, h1]

/-- Depth 1: the loop walks the heads of the lists, up to an empty list. -/
theorem outcome_one (hlists : ∀ b, Chain next null (nextf b) (lists b)) :
    outcome nextf freep 1 (List.finRange nbuckets) = some (bucketOf lists freep 1) ↔
      ∀ b, nextf b = null → ∃ c < b, nextf c = freep ∧ freep ≠ null := by
  have hmem (b : Fin nbuckets) : freep ∈ searched 1 (lists b) ↔ nextf b = freep ∧ freep ≠ null :=
    mem_searched_one (hlists b)
  rw [outcome_finRange]
  simp only [scan_one]
  constructor
  · rintro (⟨hall, _⟩ | ⟨i, hi, hbelow, hr⟩) b hb
    · exact absurd hb (hall b).2
    · have hne : freep ≠ null := by
        intro hnull
        rw [bucketOf_none fun j hj => ((hmem j).mp hj).2 hnull] at hr
        exact ofNat_bucket_ne i hr.symm
      rcases lt_trichotomy b i with hlt | rfl | hgt
      · exact absurd hb (hbelow b hlt).2
      · exact absurd (hi.symm.trans hb) hne
      · exact ⟨i, hgt, hi, hne⟩
  · intro h
    by_cases hex : ∃ i, nextf i = freep ∧ freep ≠ null
    · obtain ⟨i, ⟨hi, hne⟩, hlt⟩ := (Fin.exists_iff_exists_minimal _).mp hex
      refine .inr ⟨i, hi, fun j hj => ⟨fun heq => hlt j hj ⟨heq, hne⟩, fun hnull => ?_⟩, ?_⟩
      · obtain ⟨c, hc, hfound⟩ := h j hnull
        exact hlt c (lt_trans hc hj) hfound
      · exact bucketOf_found ((hmem i).mpr ⟨hi, hne⟩) fun j hj hj' => hlt j hj ((hmem j).mp hj')
    · have hfull (b : Fin nbuckets) : nextf b ≠ null := by
        intro hb
        obtain ⟨c, _, hc⟩ := h b hb
        exact hex ⟨c, hc⟩
      refine .inl ⟨fun i => ⟨fun heq => ?_, hfull i⟩, ?_⟩
      · exact hex ⟨i, heq, heq ▸ hfull i⟩
      · exact bucketOf_none fun i hi => hex ⟨i, (hmem i).mp hi⟩

/-- **`findbucket`** returns, with the least bucket that has the block among
those searched, exactly on these lists. -/
theorem findbucket_meets {bld : Build} {s : Machine Statics}
    (hlists : ∀ b, Chain s.mem.load32 null (s.vars.nextf b) (lists b)) (hs : -1 ≤ srchlen) :
    (∃ fuel, (findbucket bld fuel freep srchlen).run s
        = .ok (bucketOf lists freep srchlen, s)) ↔ Meets s.vars.nextf freep srchlen := by
  rw [findbucket_iff, Meets]
  simp only [true_and]
  by_cases h0 : srchlen = 0
  · -- nothing is searched
    subst h0
    have hnone : bucketOf lists freep 0 = -1 :=
      bucketOf_none fun i => by simp [searched, show Int32.toNatClampNeg 0 = 0 from rfl]
    rw [hnone, outcome_finRange]
    simp [scan]
  · by_cases hhead : freep ≠ null ∧ s.vars.nextf 0 = freep
    · -- the block is the first one of the first list
      have hscan : scan (s.vars.nextf 0) freep srchlen = .found := by
        rw [scan, if_neg h0, if_pos hhead.2]
      have hmem : freep ∈ searched srchlen (lists 0) :=
        head_searched (hhead.2 ▸ hlists 0) hhead.1 h0 hs
      have hbelow (j : Fin nbuckets) (hj : j < 0) : False := Nat.not_lt_zero j hj
      rw [bucketOf_found hmem fun j hj => (hbelow j hj).elim, outcome_finRange]
      exact iff_of_true (.inr ⟨0, hscan, fun j hj => (hbelow j hj).elim, rfl⟩)
        (.inr (.inl hhead))
    · by_cases h1 : srchlen = 1
      · subst h1
        rw [outcome_one hlists]
        simp [hhead]
      · -- the loop does not leave the first list
        refine iff_of_false (fun hout => ?_) (by simp [h0, h1, hhead])
        rcases outcome_finRange.mp hout with ⟨hall, _⟩ | ⟨i, hi, hbelow, hr⟩
        · exact (scan_deep (s.vars.nextf 0) h0 h1).2 (hall 0)
        · have hzero : i = 0 := by
            by_contra hne
            exact (scan_deep (s.vars.nextf 0) h0 h1).2 (hbelow 0 (Fin.pos_of_ne_zero hne))
          subst hzero
          have hfound := (scan_deep (s.vars.nextf 0) h0 h1).1.mp hi
          by_cases hnull : freep = null
          · subst hnull
            rw [bucketOf_none fun j => null_not_searched (hlists j)] at hr
            exact ofNat_bucket_ne 0 hr.symm
          · exact hhead ⟨hnull, hfound⟩

end Meets

/-- One free block, at 4092, in bucket `i`. -/
def oneFree (i : Fin nbuckets) : Machine Port.Statics where
  mem := fun _ => 0
  os := fun _ => sbrkFailed
  log := []
  vars := ⟨fun b => if b = i then 4092 else null, 4096, 9⟩

/-- The free lists of `oneFree`. -/
def oneFreeLists (i b : Fin nbuckets) : List UInt32 := if b = i then [4092] else []

theorem oneFree_chain (i b : Fin nbuckets) :
    Chain (oneFree i).mem.load32 null ((oneFree i).vars.nextf b) (oneFreeLists i b) := by
  by_cases hb : b = i
  · simp only [oneFree, oneFreeLists, hb, if_true]
    exact .cons (by decide) .nil
  · simp only [oneFree, oneFreeLists, hb, if_false]
    exact .nil

theorem findbucket_meets_head : ∃ fuel,
    (Port.findbucket release fuel 4092 4).run (oneFree 0)
      = .ok (bucketOf (oneFreeLists 0) 4092 4, oneFree 0) :=
  (findbucket_meets (oneFree_chain 0) (by decide)).mpr (.inr (.inl ⟨by decide, rfl⟩))

/-- The block heads the list of bucket 2, and bucket 0 has an empty list. -/
theorem findbucket_endless :
    (∀ b, Chain (oneFree 2).mem.load32 null ((oneFree 2).vars.nextf b) (oneFreeLists 2 b)) ∧
    bucketOf (oneFreeLists 2) 4092 1 = 2 ∧
    ∀ fuel r t, (Port.findbucket release fuel 4092 1).run (oneFree 2) ≠ .ok (r, t) := by
  refine ⟨oneFree_chain 2, by decide +kernel, fun fuel r t hrun => ?_⟩
  obtain ⟨_, hout⟩ := Port.findbucket_iff.mp ⟨fuel, hrun⟩
  have hnone : Port.outcome (oneFree 2).vars.nextf 4092 1 (List.finRange nbuckets) = none := by
    decide +kernel
  rw [hnone] at hout
  cases hout

/-! ## The original -/

section Original

variable {s : Machine Original.Statics} {p freep : UInt32} {l : List UInt32} {srchlen : Int32}

/-- What is left to search of a list after `k` blocks. -/
def left (srchlen : Int32) (k : Nat) (l : List UInt32) : List UInt32 :=
  if srchlen = -1 then l else l.take (srchlen.toNatClampNeg - k)

/-- The count reaches the depth when nothing is left. -/
theorem ofNat_eq_depth {k : Nat} (hs : -1 ≤ srchlen) (hk : k < 2 ^ 32 - 1)
    (hdepth : srchlen = -1 ∨ k ≤ srchlen.toNatClampNeg) :
    Int32.ofNat k = srchlen ↔ srchlen ≠ -1 ∧ srchlen.toNatClampNeg = k := by
  by_cases h1 : srchlen = -1
  · subst h1
    simp only [ne_eq, not_true_eq_false, false_and, iff_false]
    intro heq
    have hword := congrArg (fun x : Int32 => x.toUInt32.toNat) heq
    have hofNat : (Int32.ofNat k).toUInt32.toNat = k := by
      rw [show (Int32.ofNat k).toUInt32 = UInt32.ofNat k from rfl, UInt32.toNat_ofNat',
        Nat.mod_eq_of_lt (by omega)]
    rw [hofNat, show (-1 : Int32).toUInt32.toNat = 2 ^ 32 - 1 from rfl] at hword
    omega
  · have hle := hdepth.resolve_left h1
    have hlt := srchlen.toNatClampNeg_lt
    have hnonneg : 0 ≤ srchlen := by
      rw [Int32.le_iff_toInt_le] at hs ⊢
      have h1' : srchlen.toInt ≠ -1 := fun h => h1 (Int32.toInt_inj.mp h)
      have hzero : (0 : Int32).toInt = 0 := rfl
      have hneg : (-1 : Int32).toInt = -1 := rfl
      omega
    constructor
    · rintro rfl
      exact ⟨h1, Int32.toNatClampNeg_ofNat_of_lt (by omega)⟩
    · rintro ⟨_, rfl⟩
      exact Int32.ofNat_toNatClampNeg srchlen hnonneg

theorem run_searchLoop (hl : Chain s.mem.load32 null p l) (hs : -1 ≤ srchlen) {k fuel : Nat}
    (hk : k + l.length < 2 ^ 32) (hdepth : srchlen = -1 ∨ k ≤ srchlen.toNatClampNeg)
    (hfuel : l.length < fuel) :
    (loop Fault.diverges (Original.searchStep freep srchlen) fuel (p, Int32.ofNat k)).run s
      = .ok (decide (freep ∈ left srchlen k l), s) := by
  obtain ⟨fuel, rfl⟩ := Nat.exists_eq_succ_of_ne_zero (Nat.ne_zero_of_lt hfuel)
  -- on the list that is left, with `k` links behind
  induction hl generalizing k fuel with
  | nil =>
      have hstep : (Original.searchStep freep srchlen (null, Int32.ofNat k)).run s
          = .ok (.inr false, s) := by
        simp [Original.searchStep]
      rw [loop_done hstep]
      simp [left]
  | @cons a l ha ht ih =>
      simp only [List.length_cons] at hk hfuel
      have hcount := ofNat_eq_depth hs (k := k) (by omega) hdepth
      by_cases hend : Int32.ofNat k = srchlen
      · -- the depth is reached
        obtain ⟨h1, hn⟩ := hcount.mp hend
        have hstep : (Original.searchStep freep srchlen (a, Int32.ofNat k)).run s
            = .ok (.inr false, s) := by
          simp [Original.searchStep, hend]
        rw [loop_done hstep]
        simp [left, h1, hn]
      · have hmore : srchlen = -1 ∨ k + 1 ≤ srchlen.toNatClampNeg := by
          by_contra hno
          obtain ⟨h1, hlt⟩ := not_or.mp hno
          exact hend (hcount.mpr ⟨h1, by have := hdepth.resolve_left h1; omega⟩)
        have hleft : left srchlen k (a :: l) = a :: left srchlen (k + 1) l := by
          rw [left, left]
          split
          · rfl
          · rename_i h1
            have := hmore.resolve_left h1
            rw [show srchlen.toNatClampNeg - k = srchlen.toNatClampNeg - (k + 1) + 1 by omega,
              List.take_succ_cons]
        rw [hleft]
        by_cases hfound : a = freep
        · -- the block is here
          subst hfound
          have hstep : (Original.searchStep a srchlen (a, Int32.ofNat k)).run s
              = .ok (.inr true, s) := by
            simp [Original.searchStep, ha, hend]
          rw [loop_done hstep]
          simp
        · -- the next one, with one more on the counter
          have hstep : (Original.searchStep freep srchlen (a, Int32.ofNat k)).run s
              = .ok (.inl (s.mem.load32 a, Int32.ofNat (k + 1)), s) := by
            simp [Original.searchStep, ha, hend, hfound]
          obtain ⟨fuel, rfl⟩ := Nat.exists_eq_succ_of_ne_zero (show fuel ≠ 0 by omega)
          rw [loop_next hstep, ih (by omega) hmore fuel (by omega)]
          simp [Ne.symm hfound]

/-- With fuel for any list of 32-bit addresses. -/
theorem run_findbucket {lists : Fin nbuckets → List UInt32} {fuel : Nat} (hfuel : 2 ^ 32 ≤ fuel)
    (hlists : ∀ b, Chain s.mem.load32 null (s.vars.nextf b) (lists b)) (hs : -1 ≤ srchlen) :
    (Original.findbucket fuel freep srchlen).run s = .ok (bucketOf lists freep srchlen, s) := by
  have hlen (b : Fin nbuckets) : (lists b).length < 2 ^ 32 :=
    (hlists b).length_lt (fun _ _ => UInt32.toNat_inj.mp) UInt32.toNat_lt
  have hlist (b : Fin nbuckets) :
      (Original.searchList fuel (s.vars.nextf b) freep srchlen).run s
        = .ok (decide (freep ∈ searched srchlen (lists b)), s) := by
    have hlen := hlen b
    exact run_searchLoop (k := 0) (hlists b) hs (by omega) (.inr (Nat.zero_le _)) (by omega)
  have hbuckets (bs : List (Fin nbuckets)) :
      (Original.searchBuckets fuel freep srchlen bs).run s
        = .ok ((bs.find? fun i => decide (freep ∈ searched srchlen (lists i))).elim (-1)
            fun i => Int32.ofNat i, s) := by
    induction bs with
    | nil => rfl
    | cons i rest ih =>
        simp only [Original.searchBuckets, StateT.run_bind, StateT.run_get, pure_eq_ok, ok_bind,
          hlist]
        by_cases hi : freep ∈ searched srchlen (lists i)
        · rw [List.find?_cons_of_pos (by simpa using hi)]
          simp [hi]
        · rw [List.find?_cons_of_neg (by simpa using hi)]
          simpa [hi] using ih
  rw [Original.findbucket, hbuckets, bucketOf, Fin.find?_eq_find?_finRange]

/-- **The original** meets the specification on all lists. -/
theorem original_findbucket {lists : Fin nbuckets → List UInt32}
    (hlists : ∀ b, Chain s.mem.load32 null (s.vars.nextf b) (lists b)) (hs : -1 ≤ srchlen) :
    ∃ fuel, (Original.findbucket fuel freep srchlen).run s
      = .ok (bucketOf lists freep srchlen, s) :=
  ⟨2 ^ 32, run_findbucket (Nat.le_refl _) hlists hs⟩

end Original

end Challenges.Kmalloc

import Mathlib.Data.List.Find
import Challenges.Kmalloc.Port

/-!
# SizeClass — the table of size classes, and the code that encodes it

Bucket `b` holds blocks of `2^(b+3)` bytes, header included; from the page
size up a block has a page more than that. `cap b` is what is left for the
caller and `sizeClass n` the least bucket that fits `n` bytes. `kmalloc`,
`morecore` and `realloc` each encode the table in their own arithmetic; the
lemmas here are the one place where that arithmetic is looked at.
-/

namespace Challenges.Kmalloc

open Challenges.Lib

/-! ## The table -/

/-- Payload bytes of a block of bucket `b`. -/
def cap (b : Nat) : Nat :=
  if 2 ^ (b + 3) < 4096 then 2 ^ (b + 3) - 4 else 2 ^ (b + 3) + 4092

/-- The least bucket whose blocks fit `n` bytes. -/
def sizeClass (n : Nat) : Option Nat := (List.range 29).find? (fun b => n ≤ cap b)

/-- The largest request that the classes of a positive `i32` size serve. -/
abbrev maxReq : Nat := 2 ^ 30 + 4092

theorem cap_small {b : Nat} (h : b ≤ 8) : cap b = 2 ^ (b + 3) - 4 := by
  have : 2 ^ (b + 3) ≤ 2 ^ 11 := Nat.pow_le_pow_right (by decide) (by omega)
  rw [cap, if_pos (by omega)]

theorem cap_lt_succ (b : Nat) : cap b < cap (b + 1) := by
  have h1 : 2 ^ (b + 1 + 3) = 2 * 2 ^ (b + 3) := by rw [Nat.pow_succ']
  have h2 : 2 ^ 3 ≤ 2 ^ (b + 3) := Nat.pow_le_pow_right (by decide) (by omega)
  simp only [cap, h1]
  split <;> split <;> omega

theorem cap_strictMono {b c : Nat} (h : b < c) : cap b < cap c := by
  induction h with
  | refl => exact cap_lt_succ b
  | step _ ih => exact Nat.lt_trans ih (cap_lt_succ _)

theorem cap_mono {b c : Nat} (h : b ≤ c) : cap b ≤ cap c := by
  rcases Nat.eq_or_lt_of_le h with rfl | hlt
  · exact Nat.le_refl _
  · exact Nat.le_of_lt (cap_strictMono hlt)

theorem cap_top : cap 27 = maxReq := by decide

theorem sizeClass_eq_some {n b : Nat} :
    sizeClass n = some b ↔ n ≤ cap b ∧ b < 29 ∧ ∀ c < b, cap c < n := by
  simp [sizeClass, List.find?_range_eq_some]

theorem sizeClass_eq_none {n : Nat} : sizeClass n = none ↔ cap 28 < n := by
  simp only [sizeClass, List.find?_eq_none, List.mem_range, decide_eq_true_eq]
  constructor
  · intro h
    have := h 28 (by decide)
    omega
  · intro h b hb
    have := cap_mono (show b ≤ 28 by omega)
    omega

/-- The class of a request is at most `b` exactly when the request fits. -/
theorem sizeClass_le_iff {n b : Nat} (hb : b < 29) :
    (∃ c, sizeClass n = some c ∧ c ≤ b) ↔ n ≤ cap b := by
  constructor
  · rintro ⟨c, hc, hcb⟩
    have hfit := (sizeClass_eq_some.mp hc).1
    have := cap_mono hcb
    omega
  · intro h
    cases hs : sizeClass n with
    | none =>
        have := sizeClass_eq_none.mp hs
        have := cap_mono (show b ≤ 28 by omega)
        omega
    | some c =>
        refine ⟨c, rfl, Nat.not_lt.mp fun hlt => ?_⟩
        have := (sizeClass_eq_some.mp hs).2.2 b hlt
        omega

/-- The top class, whose block size does not fit an `i32`. -/
theorem sizeClass_top {n : Nat} :
    sizeClass n = some 28 ↔ maxReq < n ∧ n ≤ cap 28 := by
  rw [sizeClass_eq_some, ← cap_top]
  constructor
  · rintro ⟨hle, _, hmin⟩
    exact ⟨hmin 27 (by decide), hle⟩
  · rintro ⟨hlt, hle⟩
    refine ⟨hle, by decide, fun c hc => ?_⟩
    have := cap_mono (show c ≤ 27 by omega)
    omega

/-! ## The doubling loop of `kmalloc` -/

namespace Port

variable (s : Machine Statics)

theorem shl_one_amt {k : Nat} (hk : k < 29) :
    UInt32.ofNat (2 ^ (k + 3)) <<< 1 = UInt32.ofNat (2 ^ (k + 4)) ∧
      (UInt32.ofNat (2 ^ (k + 4)) = 0 ↔ k = 28) := by
  have h : ∀ k : Fin 29, UInt32.ofNat (2 ^ (k.val + 3)) <<< 1
      = UInt32.ofNat (2 ^ (k.val + 4)) ∧
        (UInt32.ofNat (2 ^ (k.val + 4)) = 0 ↔ k.val = 28) := by decide
  exact h ⟨k, hk⟩

theorem run_growStep (nbytes amt : UInt32) (n bucket : Int32) :
    (growStep release nbytes n (amt, bucket)).run s
      = .ok (if nbytes > amt + n.toUInt32 then
            if amt <<< 1 = 0 then .inr none else .inl (amt <<< 1, bucket + 1)
          else .inr (some bucket), s) := by
  simp only [growStep, release_addI32, StateT.run_bind, StateT.run_pure,
    pure_eq_ok, ok_bind]
  simp only [Int32.toUInt32_add, UInt32.toUInt32_toInt32]
  split
  · split <;> simp
  · simp

/-- A request passes the threshold of a class when it does not fit. -/
theorem lt_threshold_iff {t : UInt32} {c : Nat} (nbytes : UInt32) (h : t.toNat = c) :
    nbytes > t ↔ ¬ nbytes.toNat ≤ c := by
  rw [gt_iff_lt, UInt32.lt_iff_toNat_lt, h, Nat.not_le]

/-- From the amount of class `k` on, the loop answers with the first class
whose threshold `c` the request does not pass. `base + k` is the bucket it
counts at class `k`. -/
theorem run_growLoop {nbytes : UInt32} {n base : Int32} {c : Nat → Nat} {d : Nat} :
    ∀ {k fuel : Nat}, k + d = 28 → d < fuel →
      (∀ j, k ≤ j → j < 29 → (UInt32.ofNat (2 ^ (j + 3)) + n.toUInt32).toNat = c j) →
      (loop Fault.diverges (growStep release nbytes n) fuel
          (UInt32.ofNat (2 ^ (k + 3)), base + Int32.ofNat k)).run s
        = .ok (((List.range' k (d + 1)).find? (fun j => nbytes.toNat ≤ c j)).map
            (fun j => base + Int32.ofNat j), s) := by
  induction d with
  | zero =>
      intro k fuel hk hfuel hc
      obtain ⟨f, rfl⟩ : ∃ f, fuel = f + 1 := ⟨fuel - 1, by omega⟩
      obtain ⟨hshl, hzero⟩ := shl_one_amt (k := k) (by omega)
      have hpass := lt_threshold_iff nbytes (hc k (Nat.le_refl k) (by omega))
      -- from class 28 on, the shift gives zero
      have hlast : UInt32.ofNat (2 ^ (k + 3)) <<< 1 = 0 := by
        rw [hshl, hzero]; omega
      by_cases hgt : nbytes > UInt32.ofNat (2 ^ (k + 3)) + n.toUInt32
      · have hn := hpass.mp hgt
        rw [loop_done (by rw [run_growStep, if_pos hgt, if_pos hlast])]
        simp [List.range'_succ, hn]
      · have hn := not_not.mp (mt hpass.mpr hgt)
        rw [loop_done (by rw [run_growStep, if_neg hgt])]
        simp [List.range'_succ, hn]
  | succ d ih =>
      intro k fuel hk hfuel hc
      obtain ⟨f, rfl⟩ : ∃ f, fuel = f + 1 := ⟨fuel - 1, by omega⟩
      obtain ⟨hshl, hzero⟩ := shl_one_amt (k := k) (by omega)
      have hpass := lt_threshold_iff nbytes (hc k (Nat.le_refl k) (by omega))
      have hmore : ¬ UInt32.ofNat (2 ^ (k + 3)) <<< 1 = 0 := by
        rw [hshl, hzero]; omega
      rw [List.range'_succ]
      by_cases hgt : nbytes > UInt32.ofNat (2 ^ (k + 3)) + n.toUInt32
      · have hn := hpass.mp hgt
        rw [loop_next (by rw [run_growStep, if_pos hgt, if_neg hmore]),
          List.find?_cons_of_neg (by simpa using hn), hshl]
        have hbase : base + Int32.ofNat k + 1 = base + Int32.ofNat (k + 1) := by
          rw [Int32.ofNat_add, Int32.add_assoc]; rfl
        rw [hbase]
        exact ih (by omega) (by omega) (fun j hj => hc j (by omega))
      · have hn := not_not.mp (mt hpass.mpr hgt)
        rw [loop_done (by rw [run_growStep, if_neg hgt]),
          List.find?_cons_of_pos (by simpa using hn)]
        rfl

/-- The thresholds of the small branch lead to the table. -/
theorem find_small {n : Nat} (hn : n ≤ 4092) :
    (List.range' 0 29).find? (fun j => n ≤ 2 ^ (j + 3) - 4) = sizeClass n := by
  rw [sizeClass, List.range_eq_range']
  apply List.find?_congr
  intro j _
  rw [decide_eq_decide, cap]
  split
  · exact Iff.rfl
  · -- from the page on, every threshold is large enough
    rename_i hlarge
    omega

/-- So do those of the large branch, which starts at the page's class. -/
theorem find_large {n : Nat} (hn : 4092 < n) :
    (List.range' 9 20).find? (fun j => n ≤ cap j) = sizeClass n := by
  have hbelow : (List.range' 0 9).find? (fun j => decide (n ≤ cap j)) = none := by
    rw [List.find?_eq_none]
    intro j hj
    rw [List.mem_range'_1] at hj
    have hcap : cap j ≤ cap 8 := cap_mono (by omega)
    have h8 : cap 8 = 2044 := by decide
    rw [decide_eq_true_eq]
    omega
  have hsplit : List.range' 0 9 ++ List.range' 9 20 = List.range' 0 29 := List.range'_append_1
  rw [sizeClass, List.range_eq_range', ← hsplit, List.find?_append, hbelow, Option.none_or]

/-- **The bucket `kmalloc` selects**, once the page size is set: the class
of the request, counted from `PAGE_BUCKET` for a request above the page. -/
theorem run_selectBucket {s : Machine Statics} (nbytes : UInt32)
    (hpage : s.vars.pageSz = 4096) :
    (selectBucket release nbytes).run s
      = .ok ((sizeClass nbytes.toNat).map (fun b =>
          (if nbytes.toNat ≤ 4092 then 0 else s.vars.pageBucket - 9)
            + Int32.ofNat b), s) := by
  have hn : (4096 : UInt32).toInt32 - overheadSize.toInt32 = 4092 := rfl
  simp only [selectBucket, release_subI32, StateT.run_bind, StateT.run_get,
    StateT.run_pure, pure_eq_ok, ok_bind, hpage, hn]
  by_cases hle : nbytes.toNat ≤ 4092
  · have hle' : nbytes ≤ (4092 : Int32).toUInt32 := UInt32.le_iff_toNat_le.mpr hle
    have hstart : ((8 : UInt32), (0 : Int32))
        = (UInt32.ofNat (2 ^ (0 + 3)), 0 + Int32.ofNat 0) := rfl
    rw [if_pos hle', if_pos hle, ← find_small hle, growClass, hstart]
    refine (run_growLoop s (c := fun j => 2 ^ (j + 3) - 4) (k := 0) (d := 28) rfl
      (by decide : 28 < 33) fun j _ hj => ?_)
    have h : ∀ j : Fin 29, (UInt32.ofNat (2 ^ (j.val + 3))
        + (-4 : Int32).toUInt32).toNat = 2 ^ (j.val + 3) - 4 := by decide
    exact h ⟨j, hj⟩
  · have hle' : ¬ nbytes ≤ (4092 : Int32).toUInt32 :=
      fun h => hle (UInt32.le_iff_toNat_le.mp h)
    have hbucket : s.vars.pageBucket
        = s.vars.pageBucket - 9 + Int32.ofNat 9 := (Int32.sub_add_cancel _ 9).symm
    rw [if_neg hle', if_neg hle, ← find_large (by omega), growClass]
    generalize s.vars.pageBucket - 9 = base at hbucket ⊢
    rw [hbucket, show (4096 : UInt32) = UInt32.ofNat (2 ^ (9 + 3)) from rfl]
    refine run_growLoop s (c := cap) (k := 9) (d := 19) rfl
      (by decide : 19 < 33) fun j h9 hj => ?_
    have h : ∀ j : Fin 29, 9 ≤ j.val → (UInt32.ofNat (2 ^ (j.val + 3))
        + (4092 : Int32).toUInt32).toNat = cap j.val := by decide
    exact h ⟨j, hj⟩ h9

end Port

end Challenges.Kmalloc

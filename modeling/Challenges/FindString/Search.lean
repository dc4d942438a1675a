import Challenges.FindString.Program

/-!
# Search — what one chunk yields

On a chunk shorter than `2^31` bytes the conversions between `size_t` and
`i32` lose nothing, unless the target is empty and the chunk has the full
`2^31 - 1`; `process_chunk` then returns one entry for each position of the
target, in order.
-/

namespace Challenges.FindString

open Challenges.Lib

/-! ## Conversions -/

theorem toI32_ofNat (p : Nat) : toI32 (UInt64.ofNat p) = Int32.ofNat p := by
  rw [toI32, UInt64.toUInt32_ofNat']
  rfl

theorem toSize_ofNat {p : Nat} (h : p < 2 ^ 31) : toSize (Int32.ofNat p) = UInt64.ofNat p := by
  have hwide : (Int32.ofNat p).toInt64 = Int64.ofNat p := by
    rw [← Int64.toInt_inj, Int32.toInt_toInt64, Int32.toInt_ofNat_of_lt h,
      Int64.toInt_ofNat_of_lt (by omega)]
  rw [toSize, hwide]
  rfl

theorem toSize_npos : toSize (toI32 npos) = npos := by decide

theorem ofNat_ne_npos {p : Nat} (h : p < 2 ^ 31) : UInt64.ofNat p ≠ npos := by
  intro heq
  have := congrArg UInt64.toNat heq
  rw [UInt64.toNat_ofNat_of_lt' (by simp [UInt64.size]; omega)] at this
  have : npos.toNat = 2 ^ 64 - 1 := by decide
  omega

theorem toNat_ofNat {n : Nat} (h : n < 2 ^ 64) : (UInt64.ofNat n).toNat = n :=
  UInt64.toNat_ofNat_of_lt' h

/-! ## A match and its context -/

section Search

variable (chunk target path : Bytes)

/-- The three bytes before a match, when there are three. -/
def prefixBytes (p : Nat) : Bytes :=
  if 3 ≤ p then (chunk.drop (p - 3)).take 3 else ascii "(null)"

/-- The three bytes after a match, when there are more than three. -/
def suffixBytes (p : Nat) : Bytes :=
  if p + target.length + 3 < chunk.length then (chunk.drop (p + target.length)).take 3
  else ascii "(null)"

/-- The entry for the position `p`. -/
def matchAt (p : Nat) : MatchInfo :=
  ⟨path, Int32.ofNat p, prefixBytes chunk p, suffixBytes chunk target p⟩

variable {chunk target path} {p : Nat}

theorem prefixAt_ofNat (hp : p ≤ chunk.length) (hlen : chunk.length < 2 ^ 31) :
    prefixAt chunk (Int32.ofNat p) = .ok (prefixBytes chunk p) := by
  have hsub : (Int32.ofNat p - 3).toInt = p - 3 := by
    rw [Int32.toInt_sub, Int32.toInt_ofNat_of_lt (by omega),
      show (3 : Int32).toInt = 3 from rfl, Int.bmod_eq_of_le (by omega) (by omega)]
  have htest : Int32.ofNat p - 3 ≥ 0 ↔ 3 ≤ p := by
    rw [ge_iff_le, Int32.le_iff_toInt_le, hsub, show (0 : Int32).toInt = 0 from rfl]
    omega
  rw [prefixAt, prefixBytes]
  by_cases h : 3 ≤ p
  · have hofNat : Int32.ofNat p - 3 = Int32.ofNat (p - 3) := by
      rw [← Int32.toInt_inj, hsub, Int32.toInt_ofNat_of_lt (by omega)]
      omega
    rw [if_pos (htest.mpr h), if_pos h, hofNat, toSize_ofNat (by omega), substr,
      toNat_ofNat (by omega), if_pos (by omega)]
    rfl
  · rw [if_neg (fun hge => h (htest.mp hge)), if_neg h]

theorem suffixAt_ofNat (hp : p + target.length ≤ chunk.length) (hlen : chunk.length < 2 ^ 31) :
    suffixAt chunk target (Int32.ofNat p) = .ok (suffixBytes chunk target p) := by
  have hend : (UInt64.ofNat p + size target).toNat = p + target.length := by
    rw [UInt64.toNat_add, toNat_ofNat (by omega), size, toNat_ofNat (by omega),
      Nat.mod_eq_of_lt (by omega)]
  have htest : UInt64.ofNat p + size target + 3 < size chunk ↔
      p + target.length + 3 < chunk.length := by
    rw [UInt64.lt_iff_toNat_lt, UInt64.toNat_add, hend, size, toNat_ofNat (by omega),
      show (3 : UInt64).toNat = 3 from rfl, Nat.mod_eq_of_lt (by omega)]
  rw [suffixAt, suffixBytes, toSize_ofNat (by omega)]
  by_cases h : p + target.length + 3 < chunk.length
  · rw [if_pos (htest.mpr h), if_pos h, substr, hend, if_pos hp]
    rfl
  · rw [if_neg (fun hlt => h (htest.mp hlt)), if_neg h]

/-! ## The loop -/

theorem stdFind_ofNat {k : Nat} (hk : k < 2 ^ 64) :
    stdFind chunk target (UInt64.ofNat k) = match find target chunk k with
      | some p => UInt64.ofNat p
      | none => npos := by
  cases hfind : find target chunk k with
  | none => simp only [stdFind, toNat_ofNat hk, hfind]
  | some p => simp only [stdFind, toNat_ofNat hk, hfind]

/-- A round that finds a match at `p`, and what it looks at next. -/
theorem run_chunkStep (hp : OccursAt target chunk p) (hlen : chunk.length < 2 ^ 31)
    (hend : p + 1 < 2 ^ 31) (acc : List MatchInfo) :
    (chunkStep chunk target path (Int32.ofNat p)).run acc
      = .ok (.inl (toI32 (stdFind chunk target (UInt64.ofNat (p + 1)))),
          acc ++ [matchAt chunk target path p]) := by
  have hfit := hp.fits
  have hnext : Int32.ofNat p + 1 = Int32.ofNat (p + 1) := by
    rw [Int32.ofNat_add]
    rfl
  have hpos : toSize (Int32.ofNat p) ≠ npos := by
    rw [toSize_ofNat (by omega)]
    exact ofNat_ne_npos (by omega)
  simp only [chunkStep, hpos, if_true, ne_eq, not_false_eq_true,
    prefixAt_ofNat (p := p) hp.1 (by omega), suffixAt_ofNat hfit (by omega), hnext,
    toSize_ofNat (show p + 1 < 2 ^ 31 by omega)]
  rfl

theorem run_chunkStep_npos (acc : List MatchInfo) :
    (chunkStep chunk target path (toI32 npos)).run acc = .ok (.inr (), acc) := by
  rw [chunkStep, if_neg (not_not.mpr toSize_npos)]
  rfl

/-- The position after a match is an `i32`: a match that is not empty ends
inside the chunk. -/
theorem next_lt (hp : OccursAt target chunk p) (hlen : chunk.length < 2 ^ 31)
    (hempty : target = [] → chunk.length < 2 ^ 31 - 1) : p + 1 < 2 ^ 31 := by
  have hfit := hp.fits
  cases target with
  | nil =>
      have := hempty rfl
      omega
  | cons b rest =>
      rw [List.length_cons] at hfit
      omega

/-- The loop from the first match at `k` or after it. -/
theorem run_chunkLoop (hlen : chunk.length < 2 ^ 31)
    (hempty : target = [] → chunk.length < 2 ^ 31 - 1) {fuel : Nat} :
    ∀ {k : Nat} {acc : List MatchInfo}, (positions target chunk k).length < fuel →
      k ≤ chunk.length + 1 →
      (loop .diverges (chunkStep chunk target path) fuel
          (toI32 (stdFind chunk target (UInt64.ofNat k)))).run acc
        = .ok ((), acc ++ (positions target chunk k).map (matchAt chunk target path)) := by
  induction fuel with
  | zero =>
      intro k acc hfuel
      omega
  | succ fuel ih =>
      intro k acc hfuel hk
      rw [stdFind_ofNat (by omega)]
      cases hfind : find target chunk k with
      | none =>
          rw [loop_done (run_chunkStep_npos acc), positions_of_find_none hfind]
          simp
      | some p =>
          have hocc := (find_eq_some.mp hfind).2.1
          have hle := hocc.1
          have hend := next_lt hocc hlen hempty
          have hpos := positions_of_find_some hfind
          rw [hpos, List.length_cons] at hfuel
          dsimp only
          rw [toI32_ofNat, loop_next (run_chunkStep hocc hlen hend acc), ih (by omega) (by omega),
            hpos, List.map_cons, List.append_assoc]
          rfl

/-- **`process_chunk`** returns one entry for each position of the target. -/
theorem processChunk_eq (hlen : chunk.length < 2 ^ 31)
    (hempty : target = [] → chunk.length < 2 ^ 31 - 1) :
    processChunk chunk target path
      = .ok ((positions target chunk 0).map (matchAt chunk target path)) := by
  have hcount : (positions target chunk 0).length < chunk.length + 2 := by
    have hle := List.length_filter_le (fun p => decide (OccursAt target chunk p))
      (List.range' 0 (chunk.length + 1 - 0))
    rw [List.length_range'] at hle
    rw [positions]
    omega
  rw [processChunk, show (0 : UInt64) = UInt64.ofNat 0 from rfl,
    run_chunkLoop hlen hempty hcount (by omega)]
  rfl

end Search

/-! ## The output -/

theorem number_notMem_formatChar (i : Int32) (c : UInt8) : .number i ∉ formatChar c := by
  unfold formatChar
  repeat' split
  all_goals simp

theorem number_notMem_formatString (i : Int32) (str : Bytes) :
    .number i ∉ formatString str := by
  intro h
  obtain ⟨c, _, hc⟩ := List.mem_flatMap.mp h
  exact number_notMem_formatChar i c hc

/-- A line has one number, the offset of its match. -/
theorem number_mem_formatOutput {i : Int32} {v : List MatchInfo} {target : Bytes} :
    .number i ∈ formatOutput v target ↔ ∃ c ∈ v, c.offset = i := by
  have hline (c : MatchInfo) : .number i ∈ formatMatch target c ↔ c.offset = i := by
    simp [formatMatch, number_notMem_formatString, eq_comm]
  simp only [formatOutput, List.mem_flatMap, hline]

end Challenges.FindString

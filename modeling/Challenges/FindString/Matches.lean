import Challenges.FindString.Search

/-!
# Matches — the entries of one chunk, against the specification

`process_chunk` finds every position of the target, in order and once. The
three bytes around a match are right only where more are there than needed:
with fewer than three in front, or at most three behind, it prints `(null)`.
-/

namespace Challenges.FindString

open Challenges.Lib

variable {chunk target path : Bytes}

/-- The offsets of the entries are the positions. -/
theorem offsets_eq (path : Bytes) (hlen : chunk.length < 2 ^ 31) :
    ((positions target chunk 0).map (matchAt chunk target path)).map (fun c => c.offset.toInt)
      = (positions target chunk 0).map Nat.cast := by
  rw [List.map_map]
  apply List.map_congr_left
  intro p hp
  have hle := (mem_positions.mp hp).2.1
  exact Int32.toInt_ofNat_of_lt (by omega)

/-- **Every occurrence is found**: the loop ends, and the offsets are all
positions of the target, in increasing order, overlapping ones included. -/
theorem process_chunk_enumerates (path : Bytes) (hlen : chunk.length < 2 ^ 31 - 1) :
    ∃ out, processChunk chunk target path = .ok out ∧
      (out.map fun c => c.offset.toInt).Pairwise (· < ·) ∧
      ∀ o : Int, o ∈ out.map (fun c => c.offset.toInt) ↔
        ∃ p : Nat, o = p ∧ OccursAt target chunk p := by
  refine ⟨_, processChunk_eq (by omega) fun _ => hlen, ?_, fun o => ?_⟩
  · rw [offsets_eq path (by omega), List.pairwise_map]
    apply (positions_sorted target chunk 0).imp
    intro p q hlt
    exact Int.ofNat_lt.mpr hlt
  · rw [offsets_eq path (by omega), List.mem_map]
    constructor
    · intro h
      obtain ⟨p, hp, rfl⟩ := h
      exact ⟨p, rfl, (mem_positions.mp hp).2⟩
    · intro h
      obtain ⟨p, rfl, hocc⟩ := h
      exact ⟨p, mem_positions.mpr ⟨p.zero_le, hocc⟩, rfl⟩

/-- Matches that overlap are both found. -/
theorem process_chunk_enumerates_overlapping : ∃ out,
    processChunk (ascii "aaa") (ascii "aa") (ascii "f") = .ok out ∧
      ∀ o : Int, o ∈ out.map (fun c => c.offset.toInt) ↔ o = 0 ∨ o = 1 := by
  obtain ⟨out, hout, _, hmem⟩ := @process_chunk_enumerates (ascii "aaa") (ascii "aa")
    (ascii "f") (by decide)
  refine ⟨out, hout, fun o => ?_⟩
  rw [hmem]
  constructor
  · intro h
    obtain ⟨p, rfl, hocc⟩ := h
    have hfit := hocc.fits
    have hlen : (ascii "aa").length = 2 ∧ (ascii "aaa").length = 3 := by decide
    omega
  · rintro (rfl | rfl)
    · exact ⟨0, rfl, by decide⟩
    · exact ⟨1, rfl, by decide⟩

/-! ## The bytes around a match -/

/-- Where the match starts. -/
def MatchInfo.position (c : MatchInfo) : Nat := c.offset.toNatClampNeg

/-- The entry shows the three bytes before the match and the three bytes after
it, or as many as there are. -/
structure ShowsContext (chunk target : Bytes) (c : MatchInfo) : Prop where
  before : c.prefixStr = (chunk.take c.position).drop (c.position - 3)
  after : c.suffixStr = (chunk.drop (c.position + target.length)).take 3

section Context

variable {p : Nat}

theorem length_null : (ascii "(null)").length = 6 := by decide

/-- The bytes before a match are shown when there are three. -/
theorem prefixBytes_eq_iff (hp : p ≤ chunk.length) :
    prefixBytes chunk p = (chunk.take p).drop (p - 3) ↔ 3 ≤ p := by
  rw [prefixBytes]
  split
  · rename_i h
    rw [List.drop_take, show p - (p - 3) = 3 by omega]
    exact iff_of_true rfl h
  · rename_i h
    refine iff_of_false (fun heq => ?_) h
    have hlen := congrArg List.length heq
    rw [length_null, List.length_drop, List.length_take] at hlen
    omega

/-- The bytes after it are shown when there are more than three. -/
theorem suffixBytes_eq_iff :
    suffixBytes chunk target p = (chunk.drop (p + target.length)).take 3 ↔
      p + target.length + 3 < chunk.length := by
  rw [suffixBytes]
  split
  · rename_i h
    exact iff_of_true rfl h
  · rename_i h
    refine iff_of_false (fun heq => ?_) h
    have hlen := congrArg List.length heq
    have hle := List.length_take_le 3 (chunk.drop (p + target.length))
    rw [length_null] at hlen
    omega

theorem showsContext_iff (hp : p ≤ chunk.length) (hlen : chunk.length < 2 ^ 31) :
    ShowsContext chunk target (matchAt chunk target path p) ↔
      3 ≤ p ∧ p + target.length + 3 < chunk.length := by
  have hposition : (matchAt chunk target path p).position = p :=
    Int32.toNatClampNeg_ofNat_of_lt (by omega)
  rw [← prefixBytes_eq_iff hp, ← suffixBytes_eq_iff]
  constructor
  · intro h
    obtain ⟨hbefore, hafter⟩ := h
    rw [hposition] at hbefore hafter
    exact ⟨hbefore, hafter⟩
  · intro h
    constructor
    · rw [hposition]
      exact h.1
    · rw [hposition]
      exact h.2

end Context

/-- **Match context**: an entry shows the bytes around its match exactly when
three bytes stand before the match and more than three after it. -/
theorem match_context_iff (path : Bytes) (hlen : chunk.length < 2 ^ 31) (hne : target ≠ []) :
    ∃ out, processChunk chunk target path = .ok out ∧ ∀ c ∈ out,
      (ShowsContext chunk target c ↔
        3 ≤ c.position ∧ c.position + target.length + 3 < chunk.length) := by
  refine ⟨_, processChunk_eq hlen fun hempty => absurd hempty hne, fun c hc => ?_⟩
  obtain ⟨p, hp, rfl⟩ := List.mem_map.mp hc
  have hle := (mem_positions.mp hp).2.1
  have hposition : (matchAt chunk target path p).position = p :=
    Int32.toNatClampNeg_ofNat_of_lt (by omega)
  rw [hposition]
  exact showsContext_iff hle hlen

/-- Three bytes before the match and four after it. -/
theorem match_context_iff_inner : ∃ c,
    processChunk (ascii "abcXdefg") (ascii "X") (ascii "f") = .ok [c] ∧
      ShowsContext (ascii "abcXdefg") (ascii "X") c := by
  obtain ⟨out, hout, hall⟩ := @match_context_iff (ascii "abcXdefg") (ascii "X")
    (ascii "f") (by decide) (by decide)
  have heval : processChunk (ascii "abcXdefg") (ascii "X") (ascii "f")
      = .ok [⟨ascii "f", 3, ascii "abc", ascii "def"⟩] := by decide
  cases hout.symm.trans heval
  exact ⟨_, heval, (hall _ (by simp)).mpr (by decide)⟩

/-- One byte before the match, and three after it: neither is shown. -/
theorem match_context_null : ∃ c,
    processChunk (ascii "aXbcd") (ascii "X") (ascii "f") = .ok [c] ∧ c.position = 1 ∧
      c.prefixStr = ascii "(null)" ∧ c.suffixStr = ascii "(null)" ∧
      ¬ ShowsContext (ascii "aXbcd") (ascii "X") c := by
  refine ⟨⟨ascii "f", 1, ascii "(null)", ascii "(null)"⟩, by decide, rfl, rfl, rfl, ?_⟩
  intro h
  exact absurd h.before (by decide)

end Challenges.FindString

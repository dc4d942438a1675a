import Challenges.FindString.Matches

/-!
# SmallFile — the search of a file that is read in one piece

`process_small_file` overwrites the last byte of what it has read. A match
that ends there is lost, and nothing else: a target without NUL is not
found in the terminator. An empty file has no last byte, and the index wraps
around.
-/

namespace Challenges.FindString

open Challenges.Lib

variable {content target : Bytes} {p : Nat}

/-- The offsets returned are the zero-based positions of the target in the
file, in order. -/
def Finds (content target : Bytes) (out : List MatchInfo) : Prop :=
  out.map (fun c => c.offset.toInt) = (positions target content 0).map Nat.cast

/-- The buffer that is searched. -/
theorem set_last (hne : content ≠ []) :
    content.set (content.length - 1) 0 = content.dropLast ++ [0] := by
  have hpos := List.length_pos_iff.mpr hne
  have hdrop : content.drop (content.length - 1 + 1) = [] :=
    List.drop_eq_nil_of_le (by omega)
  rw [List.set_eq_take_append_cons_drop, if_pos (by omega), hdrop, List.dropLast_eq_take]

/-- What is found in it: the occurrences that end before the last byte. -/
theorem occursAt_set_last (hcontent : content ≠ []) (hne : target ≠ []) (hnul : 0 ∉ target) :
    OccursAt target (content.set (content.length - 1) 0) p ↔
      OccursAt target content p ∧ p + target.length < content.length := by
  have hpos := List.length_pos_iff.mpr hcontent
  have hwindow := occursAt_window (t := target) (s := content) (k := 0)
    (m := content.length - 1) (p := p) (by omega)
  rw [List.drop_zero, ← List.dropLast_eq_take, Nat.zero_add] at hwindow
  rw [set_last hcontent, occursAt_snoc hnul hne, hwindow]
  exact and_congr_right fun _ => by omega

/-- The search of a file that was read in full. -/
theorem run_small_file (path : Bytes) (hlen : content.length < 2 ^ 64) :
    processSmallFile (size content) (some content) target path =
      if content = [] then .error .badIndex
      else processChunk (content.set (content.length - 1) 0) target path := by
  have hsize : (size content).toNat = content.length := toNat_ofNat hlen
  have hbuffer : content.take (size content).toNat
      ++ List.replicate ((size content).toNat - content.length) 0 = content := by
    rw [hsize, List.take_length, Nat.sub_self, List.replicate_zero, List.append_nil]
  rw [processSmallFile]
  simp only [hbuffer]
  by_cases hempty : content = []
  · -- the index wraps around
    subst hempty
    rfl
  · have hpos := List.length_pos_iff.mpr hempty
    have hle : 1 ≤ size content := by
      rw [UInt64.le_iff_toNat_le, hsize]
      exact hpos
    have hindex : (size content - 1).toNat = content.length - 1 := by
      rw [UInt64.toNat_sub_of_le _ _ hle, hsize]
      rfl
    rw [hindex, if_pos (by omega), if_neg hempty]

/-- Nothing is lost exactly when no occurrence ends at the last byte. -/
theorem positions_set_last (hcontent : content ≠ []) (hne : target ≠ []) (hnul : 0 ∉ target) :
    positions target (content.set (content.length - 1) 0) 0 = positions target content 0 ↔
      ¬ target <:+ content := by
  rw [positions_eq_iff, suffix_iff_occursAt]
  simp only [occursAt_set_last hcontent hne hnul]
  constructor
  · intro h hex
    obtain ⟨p, hocc, hend⟩ := hex
    have := ((h p).mpr hocc).2
    omega
  · intro h p
    refine ⟨And.left, fun hocc => ⟨hocc, ?_⟩⟩
    have hfits := hocc.fits
    have hend : p + target.length ≠ content.length := fun heq => h ⟨p, hocc, heq⟩
    omega

/-- **Small-file search** is sound and complete, and the terminator is written
inside the buffer, exactly for the files that are not empty and do not end
with the target. -/
theorem small_file_iff (path : Bytes) (hlimit : content.length < fileSizeLimit.toNat)
    (hne : target ≠ []) (hnul : 0 ∉ target) :
    (∃ out, processSmallFile (size content) (some content) target path = .ok out ∧
        Finds content target out) ↔
      content ≠ [] ∧ ¬ target <:+ content := by
  have hbound : fileSizeLimit.toNat = 2 ^ 29 := by decide
  rw [run_small_file path (by omega)]
  by_cases hempty : content = []
  · rw [if_pos hempty]
    constructor
    · intro h
      obtain ⟨out, hout, _⟩ := h
      cases hout
    · intro h
      exact absurd hempty h.1
  have hlen : (content.set (content.length - 1) 0).length < 2 ^ 31 := by
    rw [List.length_set]
    omega
  have hinj : Function.Injective (Nat.cast : Nat → Int) := fun _ _ => Int.ofNat_inj.mp
  rw [if_neg hempty, processChunk_eq hlen fun h => absurd h hne, and_iff_right hempty,
    ← positions_set_last hempty hne hnul]
  constructor
  · intro h
    obtain ⟨out, hout, hfinds⟩ := h
    cases hout
    rw [Finds, offsets_eq path hlen] at hfinds
    exact hinj.list_map hfinds
  · intro h
    refine ⟨_, rfl, ?_⟩
    rw [Finds, offsets_eq path hlen, h]

/-- A match that does not end the file. -/
theorem small_file_iff_newline : ∃ out,
    processSmallFile (size (ascii "one two\n")) (some (ascii "one two\n")) (ascii "two")
      (ascii "f") = .ok out ∧ Finds (ascii "one two\n") (ascii "two") out :=
  (@small_file_iff (ascii "one two\n") (ascii "two") (ascii "f")
    (by decide) (by decide) (by decide)).mpr (by decide)

/-- Without the newline the match is not found, and of an empty file the byte
before the first is written. -/
theorem small_file_last_match :
    processSmallFile 7 (some (ascii "one two")) (ascii "two") (ascii "f") = .ok [] ∧
      OccursAt (ascii "two") (ascii "one two") 4 ∧
      ¬ Finds (ascii "one two") (ascii "two") [] ∧
      processSmallFile 0 (some []) (ascii "two") (ascii "f") = .error .badIndex := by
  refine ⟨by decide, by decide, fun h => ?_, by decide⟩
  have hlen := congrArg List.length h
  exact absurd hlen (by decide)

end Challenges.FindString

import Challenges.FindString.Schedules

/-!
# WholeFile — the large-file path against one scan of the file

What a complete run prints, compared with the occurrences in the whole
file. The offsets are those inside a chunk, a match across two chunks is not
seen, and neither is one that ends at the overwritten last byte of a chunk.
So the two agree exactly when every occurrence ends before the last byte of
the first chunk. The schedule plays no part in it: the lines are the same in
all complete runs, and each is printed in one piece.
-/

namespace Challenges.FindString

open Challenges.Lib

/-- The numbers in an output, which are the offsets of its lines. -/
def printedOffsets (out : List Piece) : List Int :=
  out.filterMap fun
    | .number i => some i.toInt
    | .bytes _ => none

theorem mem_printedOffsets {out : List Piece} {o : Int} :
    o ∈ printedOffsets out ↔ ∃ i, .number i ∈ out ∧ i.toInt = o := by
  rw [printedOffsets, List.mem_filterMap]
  constructor
  · intro h
    obtain ⟨p, hp, hsome⟩ := h
    cases p with
    | number i => exact ⟨i, hp, Option.some.inj hsome⟩
    | bytes s => cases hsome
  · intro h
    obtain ⟨i, hi, rfl⟩ := h
    exact ⟨.number i, hi, rfl⟩

section Blocks

variable {job : Job} {m b p : Nat}

theorem Job.Whole.fits (hwhole : job.Whole m) (hb : b < m) :
    b * 16384 + 16384 ≤ job.content.length := by
  rw [hwhole.length, ← Nat.succ_mul]
  exact Nat.mul_le_mul_right _ hb

theorem Job.Whole.length_block (hwhole : job.Whole m) (hb : b < m) :
    (job.block b).length = 16384 := by
  have hfits := hwhole.fits hb
  rw [Job.block, List.length_take, List.length_drop]
  omega

/-- The block that is searched: all but its last byte, and a NUL. -/
theorem Job.Whole.set_block (hwhole : job.Whole m) (hb : b < m) :
    (job.block b).set 16383 0 = (job.content.drop (b * 16384)).take 16383 ++ [0] := by
  have hlen := hwhole.length_block hb
  have htake : (job.block b).take 16383 = (job.content.drop (b * 16384)).take 16383 := by
    rw [Job.block, List.take_take]
    rfl
  have hdrop : (job.block b).drop (16383 + 1) = [] := by
    apply List.drop_eq_nil_of_le
    rw [hlen]
  rw [List.set_eq_take_append_cons_drop, if_pos (by omega), htake, hdrop]

/-- What is found in a block: the occurrences that end before its last byte. -/
theorem Job.Whole.occursAt_block (hwhole : job.Whole m) (hb : b < m)
    (hne : job.target ≠ []) (hnul : 0 ∉ job.target) :
    OccursAt job.target ((job.block b).set 16383 0) p ↔
      OccursAt job.target job.content (b * 16384 + p) ∧ p + job.target.length < 16384 := by
  have hfits := hwhole.fits hb
  have hwindow : b * 16384 + 16383 ≤ job.content.length := Nat.le_of_succ_le hfits
  have hend : p + job.target.length ≤ 16383 ↔ p + job.target.length < 16384 := by omega
  rw [hwhole.set_block hb, occursAt_snoc hnul hne, occursAt_window hwindow, hend]

theorem Job.offset_mem_lines {i : Int32} :
    .number i ∈ job.lines b ↔
      ∃ p, OccursAt job.target ((job.block b).set 16383 0) p ∧ Int32.ofNat p = i := by
  rw [Job.lines, number_mem_formatOutput]
  simp only [Job.matches_, List.mem_map, mem_positions]
  constructor
  · intro h
    obtain ⟨c, ⟨p, ⟨_, hocc⟩, rfl⟩, hoff⟩ := h
    exact ⟨p, hocc, hoff⟩
  · intro h
    obtain ⟨p, hocc, hoff⟩ := h
    exact ⟨_, ⟨p, ⟨p.zero_le, hocc⟩, rfl⟩, hoff⟩

/-- **What a complete run prints**: the offset in its chunk of every
occurrence that ends before the last byte of its chunk. -/
theorem printedOffsets_of_complete {tr : List (Event × Sys)} {s : Sys} {o : Int}
    (hwhole : job.Whole m) (hne : job.target ≠ []) (hnul : 0 ∉ job.target)
    (hrun : Run job.Step job.start tr s) (hret : s.main = .returned) :
    o ∈ printedOffsets s.stdout ↔ ∃ b p : Nat, b < m ∧ o = p ∧
      OccursAt job.target job.content (b * 16384 + p) ∧ p + job.target.length < 16384 := by
  obtain ⟨blocks, hperm, hout⟩ := stdout_of_complete hwhole hrun hret
  have hbanner (i : Int32) : .number i ∉ job.start.stdout := by
    intro h
    cases List.mem_singleton.mp h
  rw [mem_printedOffsets, hout]
  constructor
  · intro h
    obtain ⟨i, hi, rfl⟩ := h
    rcases List.mem_append.mp hi with hi | hi
    · exact absurd hi (hbanner i)
    · obtain ⟨b, hb, hline⟩ := List.mem_flatMap.mp hi
      have hb := List.mem_range.mp (hperm.subset hb)
      obtain ⟨p, hocc, rfl⟩ := Job.offset_mem_lines.mp hline
      rw [hwhole.occursAt_block hb hne hnul] at hocc
      refine ⟨b, p, hb, ?_, hocc⟩
      exact Int32.toInt_ofNat_of_lt (by omega)
  · intro h
    obtain ⟨b, p, hb, rfl, hocc⟩ := h
    refine ⟨Int32.ofNat p, ?_, Int32.toInt_ofNat_of_lt (by omega)⟩
    apply List.mem_append_right
    apply List.mem_flatMap_of_mem (hperm.symm.subset (List.mem_range.mpr hb))
    exact Job.offset_mem_lines.mpr ⟨p, (hwhole.occursAt_block hb hne hnul).mpr hocc, rfl⟩

end Blocks

/-- **Large-file search** finds what one scan of the file finds exactly when
every occurrence ends before the last byte of the first chunk. -/
theorem whole_file_search {job : Job} {m : Nat} {tr : List (Event × Sys)} {s : Sys}
    (hwhole : job.Whole m) (hne : job.target ≠ []) (hnul : 0 ∉ job.target)
    (hrun : Run job.Step job.start tr s) (hret : s.main = .returned) :
    (∀ o : Int, o ∈ printedOffsets s.stdout ↔
        ∃ p : Nat, o = p ∧ OccursAt job.target job.content p) ↔
      ∀ p, OccursAt job.target job.content p → p + job.target.length < 16384 := by
  have hprinted := fun o : Int => printedOffsets_of_complete (o := o) hwhole hne hnul hrun hret
  constructor
  · intro hsame p hocc
    obtain ⟨b, q, _, hpq, _, hend⟩ := (hprinted p).mp ((hsame p).mpr ⟨p, rfl, hocc⟩)
    rwa [Int.ofNat_inj.mp hpq]
  · intro hfirst o
    rw [hprinted]
    constructor
    · intro h
      obtain ⟨b, p, _, rfl, hocc, _⟩ := h
      have hend := hfirst _ hocc
      have hzero : b = 0 := by omega
      rw [hzero, Nat.zero_mul, Nat.zero_add] at hocc
      exact ⟨p, rfl, hocc⟩
    · intro h
      obtain ⟨p, rfl, hocc⟩ := h
      have hend := hfirst p hocc
      have hpos : 0 < m := by
        have hfit := hocc.fits
        rw [hwhole.length] at hfit
        have := List.length_pos_iff.mpr hne
        omega
      refine ⟨0, p, hpos, rfl, ?_, hend⟩
      rwa [Nat.zero_mul, Nat.zero_add]

/-- Two chunks, with an `a` at each of these offsets. -/
def twoChunks (offsets : List Nat) : Job where
  content := (List.range 32768).map fun p => if p ∈ offsets then 97 else 98
  target := [97]
  path := ascii "f"

theorem twoChunks_whole (offsets : List Nat) : (twoChunks offsets).Whole 2 := by
  have hlength : (twoChunks offsets).content.length = 2 * 16384 := by
    rw [twoChunks, List.length_map, List.length_range]
  exact ⟨hlength, by rw [hlength]; decide⟩

theorem whole_file_search_two : ∃ tr s,
    Run (twoChunks [100]).Step (twoChunks [100]).start tr s ∧ s.main = .returned ∧
    ∀ o : Int, o ∈ printedOffsets s.stdout ↔
      ∃ p : Nat, o = p ∧ OccursAt (twoChunks [100]).target (twoChunks [100]).content p := by
  obtain ⟨tr, s, hrun, hret⟩ := exists_complete (twoChunks_whole [100])
  refine ⟨tr, s, hrun, hret, ?_⟩
  apply (whole_file_search (twoChunks_whole _) (by decide) (by decide) hrun hret).mpr
  intro p hocc
  have hletter := (occursAt_iff.mp hocc).2 0 (by decide)
  have hplace : (List.range 32768)[p]? = some 100 := by simpa [twoChunks] using hletter
  rw [List.getElem?_eq_some_iff] at hplace
  obtain ⟨_, hp⟩ := hplace
  rw [List.getElem_range] at hp
  rw [hp]
  decide

/-- A file of 512 MiB, all `a`. -/
def allA : Job where
  content := List.replicate (2 ^ 29) 97
  target := [97]
  path := ascii "f"

/-- In a file of 512 MiB of `a`, the offset 16384 is not printed. -/
theorem whole_file_search_misses : ∃ tr s, Run allA.Step allA.start tr s ∧
    s.main = .returned ∧ OccursAt allA.target allA.content 16384 ∧
    (16384 : Int) ∉ printedOffsets s.stdout := by
  have hlength : allA.content.length = 2 ^ 29 := List.length_replicate
  have hwhole : allA.Whole (2 ^ 15) := ⟨hlength.trans (by decide), by rw [hlength]; decide⟩
  obtain ⟨tr, s, hrun, hret⟩ := exists_complete hwhole
  refine ⟨tr, s, hrun, hret, ?_, ?_⟩
  · rw [occursAt_iff, hlength]
    refine ⟨by decide, fun i hi => ?_⟩
    have hzero : i = 0 := Nat.lt_one_iff.mp hi
    subst hzero
    exact List.getElem?_replicate_of_lt (by decide)
  · rw [printedOffsets_of_complete hwhole (by decide) (by decide) hrun hret]
    intro h
    obtain ⟨_, p, _, hp, _, hend⟩ := h
    omega

/-! ## Schedules -/

section Scheduling

variable {job : Job} {m : Nat}

/-- At most one thread is inside `format_output`. -/
theorem Inv.printing_unique {g : Ghost} {s : Sys} {i j : Nat} {out out' : List Piece}
    (h : Inv job m g s) (hi : s.phase i = some (.printing out))
    (hj : s.phase j = some (.printing out')) : i = j := by
  have hi := (h.stands i _ hi).format.mpr rfl
  have hj := (h.stands j _ hj).format.mpr rfl
  rw [hi] at hj
  exact Option.some.inj hj

theorem lines_flatMap (blocks : List Nat) :
    blocks.flatMap job.lines = formatOutput (blocks.flatMap job.matches_) job.target := by
  rw [formatOutput, List.flatMap_assoc]
  rfl

/-- **Scheduling** does not show in the output: two complete runs print the
same lines, in one order or another, and a thread has `format_output` for
itself as long as it prints. -/
theorem schedule_independent {tr tr' : List (Event × Sys)} {s s' : Sys}
    (hwhole : job.Whole m) (hrun : Run job.Step job.start tr s) (hret : s.main = .returned)
    (hrun' : Run job.Step job.start tr' s') (hret' : s'.main = .returned) :
    (∃ v v' : List MatchInfo, v.Perm v' ∧
      s.stdout = job.start.stdout ++ v.flatMap (formatMatch job.target) ∧
      s'.stdout = job.start.stdout ++ v'.flatMap (formatMatch job.target)) ∧
    ∀ a ∈ visited job.start tr, ∀ i j out out', a.phase i = some (.printing out) →
      a.phase j = some (.printing out') → i = j := by
  constructor
  · obtain ⟨blocks, hperm, hout⟩ := stdout_of_complete hwhole hrun hret
    obtain ⟨blocks', hperm', hout'⟩ := stdout_of_complete hwhole hrun' hret'
    rw [lines_flatMap] at hout hout'
    exact ⟨_, _, (hperm.trans hperm'.symm).flatMap_right _, hout, hout'⟩
  · intro a ha i j out out' hi hj
    obtain ⟨g, h⟩ := hrun.forall_visited (I := fun a => ∃ g, Inv job m g a)
      ⟨_, Inv.start hwhole⟩ (fun _ _ _ h hs => h.elim fun _ h => h.step hs) a ha
    exact h.printing_unique hi hj

end Scheduling

section TwoOrders

variable {job : Job} {first second : Nat}

/-- Two threads that have still to be joined. -/
def Job.pair (job : Job) (ph ph' : Phase) (chunks : Nat) (stdout : List Piece) : Sys :=
  { job.start with
    main := .leaving [0, 1], leftSoFar := 0, threadPool := [0, 1],
    threads := [⟨16384, ph⟩, ⟨16384, ph'⟩], stream := chunks * 16384, stdout := stdout }

theorem pair_returns {c : Nat} {out : List Piece} :
    Leads job (job.pair .finished .finished c out) []
      { job.pair .finished .finished c out with main := .returned } := by
  have h0 : Leads job (job.pair .finished .finished c out) []
      { job.pair .finished .finished c out with main := .leaving [1] } :=
    .main (.joinLeft (i := 0) rfl rfl)
  have h1 : Leads job { job.pair .finished .finished c out with main := .leaving [1] } []
      { job.pair .finished .finished c out with main := .leaving [] } :=
    .main (.joinLeft (i := 1) rfl rfl)
  have hdone : Leads job { job.pair .finished .finished c out with main := .leaving [] } []
      { job.pair .finished .finished c out with main := .returned } :=
    .main (.done rfl)
  exact (h0.trans h1).trans hdone

/-- The chunk loop of a file of two chunks. -/
theorem leads_pair (hwhole : job.Whole 2) :
    Leads job job.start [] (job.pair .waiting .waiting 0 job.start.stdout) := by
  have hsize : job.start.leftSoFar = 32768 := by
    rw [Job.start, hwhole.length]
    rfl
  have hfirst : Leads job job.start [] (Job.spawn job.start) := by
    apply Leads.main
    apply MainStep.spawn rfl
    rw [hsize]
    decide
  have hleft : (Job.spawn job.start).leftSoFar = 16384 := by
    rw [Job.spawn, hsize]
    rfl
  have hsecond : Leads job (Job.spawn job.start) [] (Job.spawn (Job.spawn job.start)) := by
    apply Leads.main
    apply MainStep.spawn rfl
    rw [hleft]
    decide
  have hnone : (Job.spawn (Job.spawn job.start)).leftSoFar = 0 := by
    rw [Job.spawn, hleft]
    rfl
  have hleave : Leads job (Job.spawn (Job.spawn job.start)) []
      (job.pair .waiting .waiting 0 job.start.stdout) := by
    have hpair : { Job.spawn (Job.spawn job.start) with main := .leaving [0, 1] }
        = job.pair .waiting .waiting 0 job.start.stdout := by
      simp only [Job.spawn, currChunkSize_eq, hsize, Job.pair]
      rfl
    rw [← hpair]
    apply Leads.main
    apply MainStep.leave rfl
    rw [hnone]
    rfl
  exact (hfirst.trans hsecond).trans hleave

/-- Two threads read in either order; thread 0 prints before thread 1. -/
theorem exists_complete_two (hwhole : job.Whole 2)
    (horder : first = 0 ∧ second = 1 ∨ first = 1 ∧ second = 0) :
    ∃ tr s, Run job.Step job.start tr s ∧ s.main = .returned ∧ readers tr = [first, second] ∧
      s.stdout = job.start.stdout ++ job.lines first ++ job.lines second := by
  have hfirst : 0 * 16384 + 16384 ≤ job.content.length := hwhole.fits (by decide)
  have hsecond : 1 * 16384 + 16384 ≤ job.content.length := hwhole.fits (by decide)
  have hread : Leads job (job.pair .waiting .waiting 0 job.start.stdout) [first, second]
      (job.pair (.found (job.lines first)) (.found (job.lines second)) 2 job.start.stdout) := by
    rcases horder with ⟨rfl, rfl⟩ | ⟨rfl, rfl⟩
    · have hzero : Leads job (job.pair .waiting .waiting 0 job.start.stdout) [0]
          (job.pair (.found (job.lines 0)) .waiting 1 job.start.stdout) :=
        leads_read rfl rfl rfl hfirst
      have hone : Leads job (job.pair (.found (job.lines 0)) .waiting 1 job.start.stdout) [1]
          (job.pair (.found (job.lines 0)) (.found (job.lines 1)) 2 job.start.stdout) :=
        leads_read rfl rfl rfl hsecond
      exact hzero.trans hone
    · have hone : Leads job (job.pair .waiting .waiting 0 job.start.stdout) [1]
          (job.pair .waiting (.found (job.lines 0)) 1 job.start.stdout) :=
        leads_read rfl rfl rfl hfirst
      have hzero : Leads job (job.pair .waiting (.found (job.lines 0)) 1 job.start.stdout) [0]
          (job.pair (.found (job.lines 1)) (.found (job.lines 0)) 2 job.start.stdout) :=
        leads_read rfl rfl rfl hsecond
      exact hone.trans hzero
  have hzero : Leads job
      (job.pair (.found (job.lines first)) (.found (job.lines second)) 2 job.start.stdout) []
      (job.pair .finished (.found (job.lines second)) 2
        (job.start.stdout ++ job.lines first)) := leads_print (i := 0) rfl rfl
  have hone : Leads job (job.pair .finished (.found (job.lines second)) 2
        (job.start.stdout ++ job.lines first)) []
      (job.pair .finished .finished 2
        (job.start.stdout ++ job.lines first ++ job.lines second)) := leads_print (i := 1) rfl rfl
  have hend := (hzero.trans hone).trans pair_returns
  obtain ⟨tr, hrun, horder⟩ := ((leads_pair hwhole).trans hread).trans hend
  exact ⟨tr, _, hrun, rfl, horder, rfl⟩

/-- One match in each chunk. -/
def twoMatches : Job := twoChunks [100, 16391]

theorem schedule_independent_two : ∃ tr s tr' s',
    Run twoMatches.Step twoMatches.start tr s ∧ Run twoMatches.Step twoMatches.start tr' s' ∧
    readers tr = [0, 1] ∧ readers tr' = [1, 0] ∧
    s.stdout = twoMatches.start.stdout ++ twoMatches.lines 0 ++ twoMatches.lines 1 ∧
    s'.stdout = twoMatches.start.stdout ++ twoMatches.lines 1 ++ twoMatches.lines 0 ∧
    (∃ v v' : List MatchInfo, v.Perm v' ∧
      s.stdout = twoMatches.start.stdout ++ v.flatMap (formatMatch twoMatches.target) ∧
      s'.stdout = twoMatches.start.stdout ++ v'.flatMap (formatMatch twoMatches.target)) ∧
    ∀ a ∈ visited twoMatches.start tr, ∀ i j out out', a.phase i = some (.printing out) →
      a.phase j = some (.printing out') → i = j := by
  have hwhole : twoMatches.Whole 2 := twoChunks_whole _
  obtain ⟨tr, s, hrun, hret, horder, hout⟩ := exists_complete_two hwhole (.inl ⟨rfl, rfl⟩)
  obtain ⟨tr', s', hrun', hret', horder', hout'⟩ := exists_complete_two hwhole (.inr ⟨rfl, rfl⟩)
  exact ⟨tr, s, tr', s', hrun, hrun', horder, horder', hout, hout',
    schedule_independent hwhole hrun hret hrun' hret'⟩

end TwoOrders

end Challenges.FindString

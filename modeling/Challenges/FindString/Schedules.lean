import Mathlib.Data.List.Nodup
import Mathlib.Algebra.Order.BigOperators.Group.List
import Mathlib.Algebra.Order.Ring.Int
import Challenges.FindString.Threads

/-!
# Schedules — what a complete run prints, and that there is one

When `process_large_file` returns, every chunk has been read by one thread
and the lines of the blocks stand in the output one block after another, in
the order in which the threads got `format_mutex`. No schedule can block for
good: as long as it has not returned, some thread can move, and each move
leaves less to do. And a thread that has the mutexes to itself can read, search
and print in one go.
-/

namespace Challenges.FindString

open Challenges.Lib

/-! ## A complete run -/

section Complete

variable {job : Job} {m : Nat} {g : Ghost} {s : Sys} {i : Nat}

theorem Inv.all_finished (h : Inv job m g s) (hret : s.main = .returned) (hi : i < m) :
    s.phase i = some .finished := by
  have hlen : s.threads.length = m := h.covered (by rw [Sys.spawned, hret]; trivial)
  rcases h.joined i (by omega) with hin | hfin
  · rw [Sys.unjoined, hret] at hin
    cases hin
  · exact hfin

theorem Inv.order_perm (h : Inv job m g s) (hret : s.main = .returned) :
    g.order.Perm (List.range m) := by
  have hlen : s.threads.length = m := h.covered (by rw [Sys.spawned, hret]; trivial)
  apply perm_range h.order_nodup
  intro i
  constructor
  · intro hi
    rw [← hlen]
    exact h.order_lt i hi
  · intro hi
    exact (h.stands i _ (h.all_finished hret hi)).read.mpr rfl

theorem Inv.printed_perm (h : Inv job m g s) (hret : s.main = .returned) :
    g.printed.Perm (List.range m) := by
  have hlen : s.threads.length = m := h.covered (by rw [Sys.spawned, hret]; trivial)
  apply perm_range h.printed_nodup
  intro i
  constructor
  · intro hi
    rw [← hlen]
    exact h.printed_lt i hi
  · intro hi
    exact (h.stands i _ (h.all_finished hret hi)).print.mpr rfl

/-- Nobody holds `format_mutex` any more, so nothing is half printed. -/
theorem Inv.nothing_pending (h : Inv job m g s) (hret : s.main = .returned) :
    g.pending = [] := by
  have hlen : s.threads.length = m := h.covered (by rw [Sys.spawned, hret]; trivial)
  apply h.idle
  cases hformat : s.formatMutex with
  | none => rfl
  | some i =>
      have hi := h.format_lt i hformat
      have hst := h.stands i _ (h.all_finished hret (by omega))
      exact absurd (hst.format.mp hformat) (by decide)

/-- **A complete run** prints the banner, and then the lines of all blocks,
one block after another in some order. -/
theorem stdout_of_complete {tr : List (Event × Sys)} (hwhole : job.Whole m)
    (hrun : Run job.Step job.start tr s) (hret : s.main = .returned) :
    ∃ blocks : List Nat, blocks.Perm (List.range m) ∧
      s.stdout = job.start.stdout ++ blocks.flatMap job.lines := by
  obtain ⟨g, h⟩ := inv_of_run hwhole hrun
  have horder := h.order_perm hret
  have hprinted := h.printed_perm hret
  refine ⟨g.printed.map (g.order.idxOf ·), ?_, ?_⟩
  · have hplaces := places_perm h.order_nodup (hprinted.trans horder.symm)
    rwa [horder.length_eq, List.length_range] at hplaces
  · have htext := h.text
    rw [h.nothing_pending hret, List.append_nil] at htext
    rw [htext, List.flatMap_map]

end Complete

/-! ## Progress -/

/-- What a thread has left to do, where no block has more than `bound` pieces
to print. -/
def Phase.work (bound : Nat) : Phase → Nat
  | .waiting => bound + 6
  | .reading => bound + 5
  | .filled _ => bound + 4
  | .searching _ => bound + 3
  | .found out => out.length + 2
  | .printing out => out.length + 1
  | .finished => 0

/-- What `process_large_file` has left to join. -/
def Sys.joinWork (s : Sys) : Nat :=
  match s.main with
  | .looping => s.threadPool.length + 3
  | .joining rest => rest.length + 4
  | .leaving rest => rest.length + 1
  | .returned => 0

/-- What is left to do: the threads to start, the threads, the joins. -/
def Sys.work (bound m : Nat) (s : Sys) : Nat :=
  (m - s.threads.length) * (bound + 9) + (s.threads.map fun th => th.phase.work bound).sum
    + s.joinWork

/-- Some step leaves less to do. -/
def Moves (job : Job) (bound m : Nat) (s : Sys) : Prop :=
  ∃ e s', job.Step s e s' ∧ s'.work bound m < s.work bound m

section Progress

variable {job : Job} {m bound : Nat} {g : Ghost} {s s' : Sys} {i : Nat} {old ph : Phase}

theorem work_goto (hold : s.phase i = some old) (hthreads : s'.threads = (s.goto i ph).threads)
    (hjoin : s'.joinWork = s.joinWork) (hlt : ph.work bound < old.work bound) :
    s'.work bound m < s.work bound m := by
  rw [Sys.phase, Option.map_eq_some_iff] at hold
  obtain ⟨th, hth, rfl⟩ := hold
  have hsum := sum_map_modify hth (fun th => { th with phase := ph })
    fun th => th.phase.work bound
  have hlen : s'.threads.length = s.threads.length := by rw [hthreads, goto_length]
  rw [Sys.work, Sys.work, hlen, hjoin, hthreads]
  dsimp only [Sys.goto] at hsum ⊢
  omega

theorem thread_of_phase (hold : s.phase i = some old) :
    ∃ th, s.threads[i]? = some th ∧ th.phase = old := by
  rwa [Sys.phase, Option.map_eq_some_iff] at hold

theorem step_thread {th : Thread} (hth : s.threads[i]? = some th)
    (hs : ThreadStep job s i th s') : job.Step s (.thread i) s' := by
  constructor
  · rw [Job.next, hth]
    exact nextThread_iff.mpr hs
  · intro _ _ heq
    cases heq

theorem moves_thread (hold : s.phase i = some old)
    (hs : ∀ th, s.threads[i]? = some th → th.phase = old → ThreadStep job s i th s')
    (hthreads : s'.threads = (s.goto i ph).threads) (hjoin : s'.joinWork = s.joinWork)
    (hlt : ph.work bound < old.work bound) : Moves job bound m s := by
  obtain ⟨th, hth, hphase⟩ := thread_of_phase hold
  exact ⟨.thread i, s', step_thread hth (hs th hth hphase), work_goto hold hthreads hjoin hlt⟩

theorem step_main (hs : Job.nextMain s = some s') : job.Step s .main s' := by
  constructor
  · exact hs
  · intro _ _ heq
    cases heq

/-- A thread that still waits for its turn to read leaves a chunk unread. -/
theorem Inv.room_to_read (h : Inv job m g s) (hwhole : job.Whole m)
    (hold : s.phase i = some .reading) : s.stream + 16384 ≤ job.content.length := by
  have hnew : i ∉ g.order := by
    rw [(h.stands i _ hold).read]
    decide
  have hsub : (i :: g.order).Subperm (List.range s.threads.length) := by
    apply List.Nodup.subperm (List.nodup_cons.mpr ⟨hnew, h.order_nodup⟩)
    intro j hj
    rw [List.mem_range]
    rcases List.mem_cons.mp hj with rfl | hj
    · exact phase_lt hold
    · exact h.order_lt j hj
  have hle := hsub.length_le
  rw [List.length_cons, List.length_range] at hle
  have hcount := h.count
  rw [h.stream, hwhole.length]
  omega

theorem Inv.reading_moves (h : Inv job m g s) (hwhole : job.Whole m)
    (hold : s.phase i = some .reading) : Moves job bound m s := by
  obtain ⟨th, hth, hphase⟩ := thread_of_phase hold
  have hclamp : th.size.toNatClampNeg = 16384 := by
    rw [h.size_of_thread hth]
    rfl
  have hroom := h.room_to_read hwhole hold
  have hnext : job.next s (.read i 16384) = some
      { s.goto i (.filled (job.block g.order.length)) with stream := s.stream + 16384 } := by
    rw [Job.next, hth, Option.bind_some, Job.nextRead, hclamp,
      if_pos ⟨hphase, le_rfl, hroom⟩, h.chunk_read]
  refine ⟨.read i 16384, _, ⟨hnext, ?_⟩, work_goto hold rfl rfl (Nat.lt_succ_self _)⟩
  intro j k heq th' hth'
  cases heq
  rw [hth] at hth'
  rw [← Option.some.inj hth', hclamp]

theorem filled_moves {chunk : Bytes} (hold : s.phase i = some (.filled chunk)) :
    Moves job bound m s := by
  apply moves_thread hold
  · exact fun _ _ hphase => .unlock hphase
  · rfl
  · rfl
  · exact Nat.lt_succ_self _

theorem Inv.searching_moves {chunk : Bytes} (h : Inv job m g s)
    (hbound : ∀ b < m, (job.lines b).length ≤ bound)
    (hold : s.phase i = some (.searching chunk)) : Moves job bound m s := by
  have hst := h.stands i _ hold
  have hchunk : chunk = job.block (g.order.idxOf i) := hst.carries
  have hplace : g.order.idxOf i < m := by
    have hlt := List.idxOf_lt_length_of_mem (hst.read.mpr rfl)
    have hle := (h.order_nodup.subperm fun j hj => List.mem_range.mpr (h.order_lt j hj)).length_le
    have := h.count
    rw [List.length_range] at hle
    omega
  have hwork : (Phase.found (job.lines (g.order.idxOf i))).work bound
      < (Phase.searching chunk).work bound := by
    have := hbound _ hplace
    simp only [Phase.work]
    omega
  apply moves_thread hold
  · intro th hth hphase
    apply ThreadStep.search hphase
    rw [h.size_of_thread hth, hchunk, job.search_block]
  · rfl
  · rfl
  · exact hwork

theorem printing_moves {out : List Piece} (hold : s.phase i = some (.printing out)) :
    Moves job bound m s := by
  cases out with
  | nil =>
      apply moves_thread hold
      · exact fun _ _ hphase => .unlockFormat hphase
      · rfl
      · rfl
      · exact Nat.lt_succ_self _
  | cons p rest =>
      apply moves_thread hold
      · exact fun _ _ hphase => .print hphase
      · rfl
      · rfl
      · exact Nat.lt_succ_self _

/-- Whoever waits for `fread_mutex` waits for a thread that can move. -/
theorem Inv.waiting_moves (h : Inv job m g s) (hwhole : job.Whole m)
    (hold : s.phase i = some .waiting) : Moves job bound m s := by
  cases hfree : s.freadMutex with
  | none =>
      apply moves_thread hold
      · intro th hth hphase
        apply ThreadStep.lock hphase _ hfree
        rw [h.size_of_thread hth]
        decide
      · rfl
      · rfl
      · exact Nat.lt_succ_self _
  | some j =>
      obtain ⟨ph, hph⟩ := h.exists_phase (h.fread_lt j hfree)
      have hholds := (h.stands j ph hph).fread.mp hfree
      cases ph with
      | reading => exact h.reading_moves hwhole hph
      | filled chunk => exact filled_moves hph
      | waiting | searching _ | found _ | printing _ | finished => cases hholds

/-- Whoever waits for `format_mutex` waits for a thread that prints. -/
theorem Inv.found_moves {out : List Piece} (h : Inv job m g s)
    (hold : s.phase i = some (.found out)) : Moves job bound m s := by
  cases hfree : s.formatMutex with
  | none =>
      apply moves_thread hold
      · exact fun _ _ hphase => .lockFormat hphase hfree
      · rfl
      · rfl
      · exact Nat.lt_succ_self _
  | some j =>
      obtain ⟨ph, hph⟩ := h.exists_phase (h.format_lt j hfree)
      have hholds := (h.stands j ph hph).format.mp hfree
      cases ph with
      | printing out => exact printing_moves hph
      | waiting | reading | filled _ | searching _ | found _ | finished => cases hholds

/-- No thread is in the way of the end for good. -/
theorem Inv.thread_moves (h : Inv job m g s) (hwhole : job.Whole m)
    (hbound : ∀ b < m, (job.lines b).length ≤ bound) (hi : i < s.threads.length)
    (hne : s.phase i ≠ some .finished) : Moves job bound m s := by
  obtain ⟨ph, hph⟩ := h.exists_phase hi
  cases ph with
  | waiting => exact h.waiting_moves hwhole hph
  | reading => exact h.reading_moves hwhole hph
  | filled chunk => exact filled_moves hph
  | searching chunk => exact h.searching_moves hbound hph
  | found out => exact h.found_moves hph
  | printing out => exact printing_moves hph
  | finished => exact absurd hph hne

theorem Inv.spawn_work (h : Inv job m g s) (hmain : s.main = .looping)
    (hleft : s.leftSoFar > 0) : (Job.spawn s).work bound m < s.work bound m := by
  have hlt := h.left_pos hleft
  obtain ⟨k, hk⟩ : ∃ k, m - s.threads.length = k + 1 := ⟨m - s.threads.length - 1, by omega⟩
  have hk' : m - (s.threads.length + 1) = k := by omega
  have hjoin : (Job.spawn s).joinWork ≤ s.threadPool.length + 5 := by
    simp only [Sys.joinWork, Job.spawn]
    split <;> rename_i heq <;> split at heq <;> cases heq <;> simp
  have hmainWork : s.joinWork = s.threadPool.length + 3 := by rw [Sys.joinWork, hmain]
  have hsum : ((Job.spawn s).threads.map fun th => th.phase.work bound).sum
      = (s.threads.map fun th => th.phase.work bound).sum + (bound + 6) := by
    simp [Job.spawn, Phase.work]
  rw [Sys.work, Sys.work, spawn_length, hk, hk', hsum, hmainWork, Nat.succ_mul]
  omega

theorem Inv.main_moves (h : Inv job m g s) (hs : MainStep s s') : Moves job bound m s := by
  refine ⟨.main, s', step_main (nextMain_iff.mpr hs), ?_⟩
  cases hs with
  | spawn hmain hleft => exact h.spawn_work hmain hleft
  | leave hmain _ | join hmain _ | clear hmain | joinLeft hmain _ | done hmain =>
      simp [Sys.work, Sys.joinWork, hmain]

/-- **No deadlock**: until `process_large_file` has returned, some step leads
on. -/
theorem Inv.moves (h : Inv job m g s) (hwhole : job.Whole m)
    (hbound : ∀ b < m, (job.lines b).length ≤ bound) (hret : s.main ≠ .returned) :
    Moves job bound m s := by
  rcases mainStep_or_waits hret with ⟨s', hs⟩ | ⟨i, hi, hne⟩
  · exact h.main_moves hs
  · exact h.thread_moves hwhole hbound (h.unjoined_lt i hi) hne

/-- Some schedule runs to the end. -/
theorem exists_complete (hwhole : job.Whole m) :
    ∃ tr s, Run job.Step job.start tr s ∧ s.main = .returned := by
  obtain ⟨bound, hbound⟩ : ∃ bound, ∀ b < m, (job.lines b).length ≤ bound := by
    refine ⟨((List.range m).map fun b => (job.lines b).length).sum, fun b hb => ?_⟩
    exact List.le_sum_of_mem (List.mem_map.mpr ⟨b, List.mem_range.mpr hb, rfl⟩)
  have hstep : ∀ a, (∃ g, Inv job m g a) → ¬ a.main = .returned →
      ∃ e b, job.Step a e b ∧ (∃ g, Inv job m g b) ∧ b.work bound m < a.work bound m := by
    intro a h hret
    obtain ⟨g, h⟩ := h
    obtain ⟨e, b, hs, hlt⟩ := h.moves hwhole hbound hret
    exact ⟨e, b, hs, h.step hs, hlt⟩
  obtain ⟨tr, s, hrun, _, hret⟩ := Run.exists_of_progress hstep ⟨_, Inv.start hwhole⟩
  exact ⟨tr, s, hrun, hret⟩

end Progress

/-! ## A thread from its start to its end -/

/-- The threads in the order in which they read. -/
def readers (tr : List (Event × Sys)) : List Nat :=
  (labels tr).filterMap fun
    | .read i _ => some i
    | _ => none

theorem readers_append (tr tr' : List (Event × Sys)) :
    readers (tr ++ tr') = readers tr ++ readers tr' := by
  rw [readers, labels, List.map_append, List.filterMap_append]
  rfl

/-- Some run goes from `s` to `t`, and these threads read on the way. -/
def Leads (job : Job) (s : Sys) (order : List Nat) (t : Sys) : Prop :=
  ∃ tr, Run job.Step s tr t ∧ readers tr = order

section Leads

variable {job : Job} {s t u : Sys} {order order' : List Nat} {i b : Nat} {old ph : Phase}

theorem Leads.trans (h : Leads job s order t) (h' : Leads job t order' u) :
    Leads job s (order ++ order') u := by
  obtain ⟨tr, hrun, rfl⟩ := h
  obtain ⟨tr', hrun', rfl⟩ := h'
  exact ⟨tr ++ tr', hrun.append hrun', readers_append tr tr'⟩

theorem Leads.main (hs : MainStep s t) : Leads job s [] t :=
  ⟨_, .snoc .nil (step_main (nextMain_iff.mpr hs)), rfl⟩

theorem Leads.thread {th : Thread} (hth : s.threads[i]? = some th)
    (hs : ThreadStep job s i th t) (heq : t = u) : Leads job s [] u :=
  ⟨_, .snoc .nil (step_thread hth (heq ▸ hs)), rfl⟩

theorem modify_phase (l : List Thread) :
    (l.modify i fun th => { th with phase := old }).modify i (fun th => { th with phase := ph })
      = l.modify i fun th => { th with phase := ph } := by
  rw [List.modify_modify_eq]
  rfl

theorem goto_thread {th : Thread} (hth : s.threads[i]? = some th) :
    (s.goto i ph).threads[i]? = some { th with phase := ph } := by
  simp [Sys.goto, hth]

/-- Thread `i` gets `fread_mutex`, reads the next block and searches it. -/
theorem leads_read (hth : s.threads[i]? = some ⟨16384, .waiting⟩) (hfree : s.freadMutex = none)
    (hstream : s.stream = b * 16384) (hroom : s.stream + 16384 ≤ job.content.length) :
    Leads job s [i] { s.goto i (.found (job.lines b)) with stream := (b + 1) * 16384 } := by
  have hclamp : (16384 : Int64).toNatClampNeg = 16384 := by decide
  have hchunk : (job.content.drop s.stream).take 16384 ++ List.replicate (16384 - 16384) 0
      = job.block b := by
    rw [hstream, Nat.sub_self, List.replicate_zero, List.append_nil, Job.block]
  have hlock : Leads job s [] { s.goto i .reading with freadMutex := some i } :=
    .thread hth (.lock rfl (by decide) hfree) rfl
  have hread : Leads job { s.goto i .reading with freadMutex := some i } [i]
      { s.goto i (.filled (job.block b)) with
        stream := s.stream + 16384, freadMutex := some i } := by
    refine ⟨[(.read i 16384, _)], .snoc .nil ⟨?_, ?_⟩, rfl⟩
    · have hreading : ({ s.goto i .reading with freadMutex := some i } : Sys).threads[i]?
          = some ⟨16384, .reading⟩ := goto_thread hth
      rw [Job.next, hreading, Option.bind_some, Job.nextRead, hclamp, if_pos ⟨rfl, le_rfl, hroom⟩,
        ← hchunk]
      simp only [Sys.goto, modify_phase]
    · intro j k heq th hmem
      cases heq
      rw [goto_thread hth] at hmem
      cases hmem
      exact hclamp.symm
  have hunlock : Leads job { s.goto i (.filled (job.block b)) with
      stream := s.stream + 16384, freadMutex := some i } []
      { s.goto i (.searching (job.block b)) with
        stream := s.stream + 16384, freadMutex := none } := by
    apply Leads.thread
    · exact goto_thread hth
    · exact .unlock rfl
    · simp only [Sys.goto, modify_phase]
  have hsearch : Leads job { s.goto i (.searching (job.block b)) with
      stream := s.stream + 16384, freadMutex := none } []
      { s.goto i (.found (job.lines b)) with stream := (b + 1) * 16384 } := by
    apply Leads.thread
    · exact goto_thread hth
    · exact .search rfl (job.search_block b)
    · simp only [Sys.goto, modify_phase, hfree, hstream, Nat.succ_mul]
  exact ((hlock.trans hread).trans hunlock).trans hsearch

/-- Thread `i` prints the rest of what it has found. -/
theorem leads_printing {out : List Piece} (hth : s.threads[i]? = some ⟨16384, .printing out⟩) :
    Leads job s [] { s.goto i .finished with stdout := s.stdout ++ out, formatMutex := none } := by
  induction out generalizing s with
  | nil =>
      rw [List.append_nil]
      exact Leads.thread hth (.unlockFormat rfl) rfl
  | cons p rest ih =>
      have hprint : Leads job s [] { s.goto i (.printing rest) with stdout := s.stdout ++ [p] } :=
        .thread hth (.print rfl) rfl
      have hrest := hprint.trans (ih (goto_thread hth))
      simp only [Sys.goto, modify_phase, List.append_assoc] at hrest
      exact hrest

/-- Thread `i` prints what it has found, in one go. -/
theorem leads_print {out : List Piece} (hth : s.threads[i]? = some ⟨16384, .found out⟩)
    (hfree : s.formatMutex = none) :
    Leads job s [] { s.goto i .finished with stdout := s.stdout ++ out } := by
  have hlock : Leads job s [] { s.goto i (.printing out) with formatMutex := some i } :=
    .thread hth (.lockFormat rfl hfree) rfl
  have hprint := hlock.trans (leads_printing (goto_thread hth))
  simp only [Sys.goto, modify_phase] at hprint ⊢
  rwa [← hfree] at hprint

end Leads

end Challenges.FindString

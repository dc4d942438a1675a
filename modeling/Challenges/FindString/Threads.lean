import Challenges.Lib.Arrival
import Challenges.Lib.Run
import Challenges.FindString.Search

/-!
# Threads — every schedule of the large-file path

The invariant of the process, for a file of `m` whole chunks. The order in
which the threads get `fread_mutex` decides which block each one reads, and
the order in which they get `format_mutex` is the order of the output; both
are kept beside the process (`Ghost`). When `process_large_file` returns,
each block was searched once and its lines were printed in one piece. No
schedule deadlocks.
-/

namespace Challenges.FindString

open Challenges.Lib

/-! ## The blocks of the file -/

namespace Job

variable (job : Job)

/-- The `b`-th chunk of the file. -/
def block (b : Nat) : Bytes := (job.content.drop (b * 16384)).take 16384

/-- The matches of a block, its last byte overwritten. -/
def matches_ (b : Nat) : List MatchInfo :=
  let chunk := (job.block b).set 16383 0
  (positions job.target chunk 0).map (matchAt chunk job.target job.path)

/-- What the thread that reads a block prints. -/
def lines (b : Nat) : List Piece := formatOutput (job.matches_ b) job.target

/-- The file is `m` whole chunks, of a size that a file can have. -/
structure Whole (m : Nat) : Prop where
  length : job.content.length = m * 16384
  bound : job.content.length < 2 ^ 64

theorem block_length_le (b : Nat) : (job.block b).length ≤ 16384 := List.length_take_le ..

theorem search_block (b : Nat) : job.search (job.block b) 16384 = .ok (job.lines b) := by
  have hlen : ((job.block b).set 16383 0).length < 2 ^ 31 - 1 := by
    have := job.block_length_le b
    rw [List.length_set]
    omega
  have hlast : (16384 - 1 : Int64).toNatClampNeg = 16383 := by decide
  rw [search, if_neg (by decide), hlast, processChunk_eq (by omega) fun _ => hlen]
  rfl

end Job

/-! ## The invariant -/

/-- What the state does not record. -/
structure Ghost where
  /-- the threads that have read, in order -/
  order : List Nat
  /-- the threads that have locked `format_mutex`, in order -/
  printed : List Nat
  /-- what the holder of `format_mutex` has left to print -/
  pending : List Piece

namespace Phase

def hasRead : Phase → Bool
  | .waiting | .reading => false
  | _ => true

def hasPrinted : Phase → Bool
  | .printing _ | .finished => true
  | _ => false

def holdsFread : Phase → Bool
  | .reading | .filled _ => true
  | _ => false

def holdsFormat : Phase → Bool
  | .printing _ => true
  | _ => false

/-- A phase carries the data of the block that was read. -/
def Carries (job : Job) (g : Ghost) (i : Nat) : Phase → Prop
  | .filled chunk | .searching chunk => chunk = job.block (g.order.idxOf i)
  | .found out => out = job.lines (g.order.idxOf i)
  | .printing out => out = g.pending
  | _ => True

theorem hasRead_of_hasPrinted {ph : Phase} (h : ph.hasPrinted) : ph.hasRead := by
  cases ph <;> first | rfl | cases h

end Phase

/-- Thread `i` stands where the two orders and the holders of the two
mutexes say. -/
structure Stands (job : Job) (g : Ghost) (fread format : Option Nat) (i : Nat)
    (ph : Phase) : Prop where
  read : i ∈ g.order ↔ ph.hasRead
  print : i ∈ g.printed ↔ ph.hasPrinted
  fread : fread = some i ↔ ph.holdsFread
  format : format = some i ↔ ph.holdsFormat
  carries : ph.Carries job g i

/-- The threads that `process_large_file` has still to join. -/
def Sys.unjoined (s : Sys) : List Nat :=
  match s.main with
  | .looping => s.threadPool
  | .joining rest | .leaving rest => rest
  | .returned => []

/-- The chunk loop is over. -/
def Sys.spawned (s : Sys) : Prop :=
  match s.main with
  | .looping | .joining _ => False
  | .leaving _ | .returned => True

/-- The invariant, for a file of `m` chunks. -/
structure Inv (job : Job) (m : Nat) (g : Ghost) (s : Sys) : Prop where
  size : ∀ th ∈ s.threads, th.size = 16384
  stands : ∀ i ph, s.phase i = some ph → Stands job g s.freadMutex s.formatMutex i ph
  order_lt : ∀ i ∈ g.order, i < s.threads.length
  printed_lt : ∀ i ∈ g.printed, i < s.threads.length
  fread_lt : ∀ i, s.freadMutex = some i → i < s.threads.length
  format_lt : ∀ i, s.formatMutex = some i → i < s.threads.length
  order_nodup : g.order.Nodup
  printed_nodup : g.printed.Nodup
  stream : s.stream = g.order.length * 16384
  /-- printed so far: the banner, and the lines of the blocks in order -/
  text : s.stdout ++ g.pending
    = job.start.stdout ++ g.printed.flatMap fun i => job.lines (g.order.idxOf i)
  idle : s.formatMutex = none → g.pending = []
  count : s.threads.length ≤ m
  left : s.leftSoFar.toNat = (m - s.threads.length) * 16384
  joined : ∀ i < s.threads.length, i ∈ s.unjoined ∨ s.phase i = some .finished
  unjoined_lt : ∀ i ∈ s.unjoined, i < s.threads.length
  covered : s.spawned → s.threads.length = m

theorem Inv.start {job : Job} {m : Nat} (hwhole : job.Whole m) :
    Inv job m ⟨[], [], []⟩ job.start where
  size := by simp [Job.start]
  stands := by simp [Sys.phase, Job.start]
  order_lt := by simp
  printed_lt := by simp
  fread_lt := by simp [Job.start]
  format_lt := by simp [Job.start]
  order_nodup := .nil
  printed_nodup := .nil
  stream := by simp [Job.start]
  text := by simp [Job.start]
  idle := fun _ => rfl
  count := by simp [Job.start]
  left := by
    have hsize : (UInt64.ofNat job.content.length).toNat = job.content.length :=
      toNat_ofNat hwhole.bound
    rw [Job.start, hsize, hwhole.length]
    rfl
  joined := by simp [Job.start]
  unjoined_lt := by simp [Sys.unjoined, Job.start]
  covered := False.elim

section Goto

variable {s : Sys} {i j : Nat} {ph old : Phase}

theorem goto_phase_self (h : s.phase i = some old) : (s.goto i ph).phase i = some ph := by
  rw [Sys.phase, Option.map_eq_some_iff] at h
  obtain ⟨th, hth, _⟩ := h
  simp [Sys.phase, Sys.goto, hth]

theorem goto_phase_ne (h : j ≠ i) : (s.goto i ph).phase j = s.phase j := by
  simp only [Sys.phase, Sys.goto, List.getElem?_modify, if_neg (Ne.symm h)]
  simp

theorem goto_length : (s.goto i ph).threads.length = s.threads.length :=
  List.length_modify ..

theorem goto_size {n : Int64} (h : ∀ th ∈ s.threads, th.size = n) :
    ∀ th ∈ (s.goto i ph).threads, th.size = n := by
  intro th hth
  obtain ⟨k, hk⟩ := List.mem_iff_getElem?.mp hth
  simp only [Sys.goto, List.getElem?_modify, Option.map_eq_map, Option.map_eq_some_iff] at hk
  obtain ⟨old, hold, rfl⟩ := hk
  have := h old (List.mem_of_getElem? hold)
  split <;> exact this

theorem phase_lt (h : s.phase i = some old) : i < s.threads.length := by
  rw [Sys.phase, Option.map_eq_some_iff] at h
  obtain ⟨th, hth, _⟩ := h
  exact (List.getElem?_eq_some_iff.mp hth).1

end Goto

/-! ## A step of a `read_chunk` -/

theorem Phase.Carries.frame {job : Job} {g g' : Ghost} {j : Nat} {ph : Phase}
    (h : ph.Carries job g j) (horder : ph.hasRead → g'.order.idxOf j = g.order.idxOf j)
    (hpending : ph.holdsFormat → g'.pending = g.pending) : ph.Carries job g' j := by
  cases ph with
  | waiting | reading | finished => trivial
  | filled chunk | searching chunk | found out =>
      rw [Phase.Carries] at h ⊢
      rw [h, horder rfl]
  | printing out =>
      rw [Phase.Carries] at h ⊢
      rw [h, hpending rfl]

/-- Thread `i` moves on to `ph`, and of the rest changes only what is its own:
its places in the two orders, and the mutexes it holds or takes. -/
structure Move (job : Job) (g : Ghost) (s : Sys) (i : Nat) (ph : Phase) (g' : Ghost)
    (s' : Sys) : Prop where
  only : s' = { s.goto i ph with
    stream := s'.stream, freadMutex := s'.freadMutex, formatMutex := s'.formatMutex,
    stdout := s'.stdout }
  order : Arrives i g.order g'.order
  printed : Arrives i g.printed g'.printed
  fread : ∀ j ≠ i, s'.freadMutex = some j ↔ s.freadMutex = some j
  format : ∀ j ≠ i, s'.formatMutex = some j ↔ s.formatMutex = some j
  pending : ∀ j ≠ i, s.formatMutex = some j → g'.pending = g.pending
  stands : Stands job g' s'.freadMutex s'.formatMutex i ph
  stream : s'.stream = g'.order.length * 16384
  text : s'.stdout ++ g'.pending
    = job.start.stdout ++ g'.printed.flatMap fun i => job.lines (g'.order.idxOf i)
  idle : s'.formatMutex = none → g'.pending = []

section Move

variable {job : Job} {m : Nat} {g g' : Ghost} {s s' : Sys} {i : Nat} {old ph : Phase}

theorem Inv.exists_phase (_ : Inv job m g s) (hi : i < s.threads.length) :
    ∃ ph, s.phase i = some ph := by
  refine ⟨s.threads[i].phase, ?_⟩
  rw [Sys.phase, List.getElem?_eq_getElem hi]
  rfl

/-- Who has printed has read. -/
theorem Inv.order_of_printed (h : Inv job m g s) (hi : i ∈ g.printed) : i ∈ g.order := by
  obtain ⟨ph, hph⟩ := h.exists_phase (h.printed_lt i hi)
  have hst := h.stands i ph hph
  exact hst.read.mpr (Phase.hasRead_of_hasPrinted (hst.print.mp hi))

theorem Inv.move (h : Inv job m g s) (hold : s.phase i = some old) (hne : old ≠ .finished)
    (hmove : Move job g s i ph g' s') : Inv job m g' s' := by
  have hlt : i < s.threads.length := phase_lt hold
  have hthreads : s'.threads = (s.goto i ph).threads := by rw [hmove.only]
  have hlen : s'.threads.length = s.threads.length := by rw [hthreads, goto_length]
  have hself : s'.phase i = some ph := by
    rw [Sys.phase, hthreads]
    exact goto_phase_self hold
  have hothers (j : Nat) (hj : j ≠ i) : s'.phase j = s.phase j := by
    rw [Sys.phase, hthreads]
    exact goto_phase_ne hj
  have hunjoined : s'.unjoined = s.unjoined := by rw [hmove.only]; rfl
  have hspawned : s'.spawned = s.spawned := by rw [hmove.only]; rfl
  have hleft : s'.leftSoFar = s.leftSoFar := by rw [hmove.only]; rfl
  constructor
  case size =>
    rw [hthreads]
    exact goto_size h.size
  case stands =>
    -- another thread keeps its places in the orders and what it carries
    intro j ph' hph'
    by_cases hj : j = i
    · rw [hj, hself] at hph'
      rw [hj, ← Option.some.inj hph']
      exact hmove.stands
    · rw [hothers j hj] at hph'
      have hst := h.stands j ph' hph'
      constructor
      case read => rw [hmove.order.mem_iff hj, hst.read]
      case print => rw [hmove.printed.mem_iff hj, hst.print]
      case fread => rw [hmove.fread j hj, hst.fread]
      case format => rw [hmove.format j hj, hst.format]
      case carries =>
        apply hst.carries.frame
        · intro hread
          exact hmove.order.idxOf_eq (hst.read.mpr hread)
        · intro hholds
          exact hmove.pending j hj (hst.format.mpr hholds)
  case order_lt =>
    intro j hj
    rw [hlen]
    rcases hmove.order.mem_or hj with hj | rfl
    · exact h.order_lt j hj
    · exact hlt
  case printed_lt =>
    intro j hj
    rw [hlen]
    rcases hmove.printed.mem_or hj with hj | rfl
    · exact h.printed_lt j hj
    · exact hlt
  case fread_lt =>
    intro j hj
    rw [hlen]
    by_cases hji : j = i
    · rwa [hji]
    · exact h.fread_lt j ((hmove.fread j hji).mp hj)
  case format_lt =>
    intro j hj
    rw [hlen]
    by_cases hji : j = i
    · rwa [hji]
    · exact h.format_lt j ((hmove.format j hji).mp hj)
  case order_nodup => exact hmove.order.nodup h.order_nodup
  case printed_nodup => exact hmove.printed.nodup h.printed_nodup
  case stream => exact hmove.stream
  case text => exact hmove.text
  case idle => exact hmove.idle
  case count => rw [hlen]; exact h.count
  case left => rw [hlen, hleft]; exact h.left
  case joined =>
    intro j hj
    rw [hlen] at hj
    rw [hunjoined]
    by_cases hji : j = i
    · -- thread `i` had not finished, so it is still to be joined
      rcases h.joined j hj with hin | hfin
      · exact .inl hin
      · rw [hji, hold] at hfin
        exact absurd (Option.some.inj hfin) hne
    · rw [hothers j hji]
      exact h.joined j hj
  case unjoined_lt =>
    rw [hunjoined, hlen]
    exact h.unjoined_lt
  case covered =>
    rw [hspawned, hlen]
    exact h.covered

variable (h : Inv job m g s)

include h in
/-- A step that reads and prints nothing; what happens to `fread_mutex` is
no matter to the other threads. -/
theorem Inv.quiet {fread : Option Nat} (hne : ∀ j ≠ i, fread = some j ↔ s.freadMutex = some j)
    (hstands : Stands job g fread s.formatMutex i ph) :
    Move job g s i ph g { s.goto i ph with freadMutex := fread } where
  only := rfl
  order := .none
  printed := .none
  fread := hne
  format _ _ := .rfl
  pending _ _ _ := rfl
  stands := hstands
  stream := h.stream
  text := h.text
  idle := h.idle

variable (hph : s.phase i = some old)

include h hph

theorem Inv.lock_fread (hold : old = .waiting) (hfree : s.freadMutex = none) :
    Move job g s i .reading g { s.goto i .reading with freadMutex := some i } := by
  subst hold
  have hst := h.stands i _ hph
  apply h.quiet
  · intro j hj
    simp [hfree, Ne.symm hj]
  · exact ⟨hst.read, hst.print, by simp [Phase.holdsFread], hst.format, trivial⟩

theorem Inv.readsome (hold : old = .reading) :
    Move job g s i (.filled (job.block g.order.length)) { g with order := g.order ++ [i] }
      { s.goto i (.filled (job.block g.order.length)) with stream := s.stream + 16384 } := by
  subst hold
  have hst := h.stands i _ hph
  have hnew : i ∉ g.order := by simp [hst.read, Phase.hasRead]
  have harrives : Arrives i g.order (g.order ++ [i]) := .last hnew
  constructor
  case only => rfl
  case order => exact harrives
  case printed => exact .none
  case fread => exact fun _ _ => .rfl
  case format => exact fun _ _ => .rfl
  case pending => exact fun _ _ _ => rfl
  case stands =>
    refine ⟨by simp [Phase.hasRead], hst.print, hst.fread, hst.format, ?_⟩
    rw [Phase.Carries, idxOf_newcomer hnew]
  case stream =>
    show s.stream + 16384 = (g.order ++ [i]).length * 16384
    rw [h.stream, List.length_append, List.length_singleton]
    omega
  case text =>
    -- the places of those that have printed stay what they were
    have hplaces : g.printed.flatMap (fun j => job.lines ((g.order ++ [i]).idxOf j))
        = g.printed.flatMap fun j => job.lines (g.order.idxOf j) := by
      apply List.flatMap_congr
      intro j hj
      rw [harrives.idxOf_eq (h.order_of_printed hj)]
    show s.stdout ++ g.pending = _
    rw [h.text, hplaces]
  case idle => exact h.idle

theorem Inv.unlock_fread {chunk : Bytes} (hold : old = .filled chunk) :
    Move job g s i (.searching chunk) g { s.goto i (.searching chunk) with freadMutex := none } := by
  subst hold
  have hst := h.stands i _ hph
  have hheld : s.freadMutex = some i := hst.fread.mpr rfl
  apply h.quiet
  · intro j hj
    simp [hheld, Ne.symm hj]
  · exact ⟨hst.read, hst.print, by simp [Phase.holdsFread], hst.format, hst.carries⟩

theorem Inv.searched {chunk : Bytes} (hold : old = .searching chunk) :
    Move job g s i (.found (job.lines (g.order.idxOf i))) g
      (s.goto i (.found (job.lines (g.order.idxOf i)))) := by
  subst hold
  have hst := h.stands i _ hph
  apply h.quiet
  · exact fun _ _ => .rfl
  · exact ⟨hst.read, hst.print, hst.fread, hst.format, rfl⟩

theorem Inv.lock_format {out : List Piece} (hold : old = .found out)
    (hfree : s.formatMutex = none) :
    Move job g s i (.printing out) { g with printed := g.printed ++ [i], pending := out }
      { s.goto i (.printing out) with formatMutex := some i } := by
  subst hold
  have hst := h.stands i _ hph
  have hnew : i ∉ g.printed := by simp [hst.print, Phase.hasPrinted]
  have hout : out = job.lines (g.order.idxOf i) := hst.carries
  constructor
  case only => rfl
  case order => exact .none
  case printed => exact .last hnew
  case fread => exact fun _ _ => .rfl
  case format =>
    intro j hj
    simp [hfree, Ne.symm hj]
  case pending =>
    intro j _ hj
    rw [hfree] at hj
    cases hj
  case stands =>
    exact ⟨hst.read, by simp [Phase.hasPrinted], hst.fread, by simp [Phase.holdsFormat], rfl⟩
  case stream => exact h.stream
  case text =>
    have htext := h.text
    rw [h.idle hfree, List.append_nil] at htext
    show s.stdout ++ out = _
    rw [htext, List.flatMap_append, List.flatMap_singleton, ← hout, List.append_assoc]
  case idle => exact fun hnone => nomatch hnone

theorem Inv.print {p : Piece} {rest : List Piece} (hold : old = .printing (p :: rest)) :
    Move job g s i (.printing rest) { g with pending := rest }
      { s.goto i (.printing rest) with stdout := s.stdout ++ [p] } := by
  subst hold
  have hst := h.stands i _ hph
  have hheld : s.formatMutex = some i := hst.format.mpr rfl
  have hpending : p :: rest = g.pending := hst.carries
  constructor
  case only => rfl
  case order => exact .none
  case printed => exact .none
  case fread => exact fun _ _ => .rfl
  case format => exact fun _ _ => .rfl
  case pending =>
    intro j hj hheld'
    rw [hheld] at hheld'
    exact absurd (Option.some.inj hheld').symm hj
  case stands => exact ⟨hst.read, hst.print, hst.fread, hst.format, rfl⟩
  case stream => exact h.stream
  case text =>
    show (s.stdout ++ [p]) ++ rest = _
    rw [List.append_assoc, List.singleton_append, hpending, h.text]
  case idle =>
    intro hnone
    rw [show s.formatMutex = none from hnone] at hheld
    cases hheld

theorem Inv.unlock_format (hold : old = .printing []) :
    Move job g s i .finished g { s.goto i .finished with formatMutex := none } := by
  subst hold
  have hst := h.stands i _ hph
  have hheld : s.formatMutex = some i := hst.format.mpr rfl
  constructor
  case only => rfl
  case order => exact .none
  case printed => exact .none
  case fread => exact fun _ _ => .rfl
  case format =>
    intro j hj
    simp [hheld, Ne.symm hj]
  case pending => exact fun _ _ _ => rfl
  case stands => exact ⟨hst.read, hst.print, hst.fread, by simp [Phase.holdsFormat], trivial⟩
  case stream => exact h.stream
  case text => exact h.text
  case idle => exact fun _ => Eq.symm hst.carries

end Move

section Step

variable {job : Job} {m : Nat} {g : Ghost} {s s' : Sys} {i : Nat} {th : Thread}

theorem phase_of_thread (hth : s.threads[i]? = some th) : s.phase i = some th.phase := by
  rw [Sys.phase, hth]
  rfl

theorem Inv.size_of_thread (h : Inv job m g s) (hth : s.threads[i]? = some th) :
    th.size = 16384 := h.size th (List.mem_of_getElem? hth)

/-- The steps of a thread, `readsome` apart, one for each branch that can be
taken. -/
inductive ThreadStep (job : Job) (s : Sys) (i : Nat) (th : Thread) : Sys → Prop where
  | skip (hphase : th.phase = .waiting) (hsize : th.size < 0) :
      ThreadStep job s i th (s.goto i .finished)
  | lock (hphase : th.phase = .waiting) (hsize : ¬ th.size < 0) (hfree : s.freadMutex = none) :
      ThreadStep job s i th { s.goto i .reading with freadMutex := some i }
  | unlock {chunk : Bytes} (hphase : th.phase = .filled chunk) :
      ThreadStep job s i th { s.goto i (.searching chunk) with freadMutex := none }
  | search {chunk : Bytes} {out : List Piece} (hphase : th.phase = .searching chunk)
      (hout : job.search chunk th.size = .ok out) : ThreadStep job s i th (s.goto i (.found out))
  | lockFormat {out : List Piece} (hphase : th.phase = .found out)
      (hfree : s.formatMutex = none) :
      ThreadStep job s i th { s.goto i (.printing out) with formatMutex := some i }
  | print {p : Piece} {rest : List Piece} (hphase : th.phase = .printing (p :: rest)) :
      ThreadStep job s i th { s.goto i (.printing rest) with stdout := s.stdout ++ [p] }
  | unlockFormat (hphase : th.phase = .printing []) :
      ThreadStep job s i th { s.goto i .finished with formatMutex := none }

theorem nextThread_iff : job.nextThread s i th = some s' ↔ ThreadStep job s i th s' := by
  constructor
  · intro hs
    cases hphase : th.phase with
    | waiting =>
        rw [Job.nextThread, hphase] at hs
        dsimp only at hs
        split at hs
        · rename_i hsize
          cases hs
          exact .skip hphase hsize
        · rename_i hsize
          split at hs
          · rename_i hfree
            cases hs
            exact .lock hphase hsize hfree
          · cases hs
    | reading =>
        -- the step out of the read is `nextRead`
        rw [Job.nextThread, hphase] at hs
        cases hs
    | filled chunk =>
        rw [Job.nextThread, hphase] at hs
        cases hs
        exact .unlock hphase
    | searching chunk =>
        rw [Job.nextThread, hphase] at hs
        dsimp only at hs
        cases hout : job.search chunk th.size with
        | ok out =>
            rw [hout] at hs
            cases hs
            exact .search hphase hout
        | error e =>
            rw [hout] at hs
            cases hs
    | found out =>
        rw [Job.nextThread, hphase] at hs
        dsimp only at hs
        split at hs
        · rename_i hfree
          cases hs
          exact .lockFormat hphase hfree
        · cases hs
    | printing out =>
        rw [Job.nextThread, hphase] at hs
        cases out with
        | nil =>
            cases hs
            exact .unlockFormat hphase
        | cons p rest =>
            cases hs
            exact .print hphase
    | finished =>
        rw [Job.nextThread, hphase] at hs
        cases hs
  · intro hs
    cases hs with
    | skip hphase hsize => rw [Job.nextThread, hphase]; exact if_pos hsize
    | lock hphase hsize hfree =>
        rw [Job.nextThread, hphase]
        dsimp only
        rw [if_neg hsize, if_pos hfree]
    | unlock hphase => rw [Job.nextThread, hphase]
    | search hphase hout =>
        rw [Job.nextThread, hphase]
        dsimp only
        rw [hout]
    | lockFormat hphase hfree => rw [Job.nextThread, hphase]; exact if_pos hfree
    | print hphase => rw [Job.nextThread, hphase]
    | unlockFormat hphase => rw [Job.nextThread, hphase]

theorem Inv.nextThread (h : Inv job m g s) (hth : s.threads[i]? = some th)
    (hs : job.nextThread s i th = some s') : ∃ g', Inv job m g' s' := by
  have hph := phase_of_thread hth
  have hsize := h.size_of_thread hth
  cases nextThread_iff.mp hs with
  | skip _ hneg =>
      -- no thread is given a negative size
      rw [hsize] at hneg
      exact absurd hneg (by decide)
  | lock hphase _ hfree =>
      rw [hphase] at hph
      exact ⟨_, h.move hph nofun (h.lock_fread hph rfl hfree)⟩
  | unlock hphase =>
      rw [hphase] at hph
      exact ⟨_, h.move hph nofun (h.unlock_fread hph rfl)⟩
  | search hphase hout =>
      rw [hphase] at hph
      rw [hsize, (h.stands i _ hph).carries, job.search_block] at hout
      cases hout
      exact ⟨_, h.move hph nofun (h.searched hph rfl)⟩
  | lockFormat hphase hfree =>
      rw [hphase] at hph
      exact ⟨_, h.move hph nofun (h.lock_format hph rfl hfree)⟩
  | print hphase =>
      rw [hphase] at hph
      exact ⟨_, h.move hph nofun (h.print hph rfl)⟩
  | unlockFormat hphase =>
      rw [hphase] at hph
      exact ⟨_, h.move hph nofun (h.unlock_format hph rfl)⟩

/-- The chunk that a full `readsome` fills. -/
theorem Inv.chunk_read (h : Inv job m g s) :
    (job.content.drop s.stream).take 16384 ++ List.replicate (16384 - 16384) 0
      = job.block g.order.length := by
  rw [h.stream, Nat.sub_self, List.replicate_zero, List.append_nil, Job.block]

theorem Inv.nextRead (h : Inv job m g s) (hth : s.threads[i]? = some th)
    (hs : job.nextRead s i 16384 th = some s') : ∃ g', Inv job m g' s' := by
  have hph := phase_of_thread hth
  rw [Job.nextRead] at hs
  split at hs
  · rename_i hread
    rw [hread.1] at hph
    rw [h.size_of_thread hth] at hs
    have hclamp : (16384 : Int64).toNatClampNeg = 16384 := by decide
    rw [hclamp, h.chunk_read] at hs
    cases hs
    exact ⟨_, h.move hph nofun (h.readsome hph rfl)⟩
  · cases hs

/-! ## A step of `process_large_file` -/

theorem Inv.left_pos (h : Inv job m g s) (hleft : s.leftSoFar > 0) :
    s.threads.length < m := by
  have hpos : 0 < s.leftSoFar.toNat := UInt64.lt_iff_toNat_lt.mp hleft
  rw [h.left] at hpos
  by_contra hle
  rw [Nat.sub_eq_zero_of_le (by omega), Nat.zero_mul] at hpos
  cases hpos

/-- Every thread is started with a whole chunk: no unsigned number is less
than zero. -/
theorem currChunkSize_eq (left : UInt64) : Job.currChunkSize left = 16384 := by
  rw [Job.currChunkSize, if_neg (UInt64.not_lt_zero)]
  rfl

theorem spawn_phase_of_lt (hi : i < s.threads.length) : (Job.spawn s).phase i = s.phase i := by
  rw [Sys.phase, Sys.phase, Job.spawn]
  rw [List.getElem?_append_left hi]

theorem spawn_phase_new : (Job.spawn s).phase s.threads.length = some .waiting := by
  rw [Sys.phase, Job.spawn]
  rw [List.getElem?_concat_length]
  rfl

theorem spawn_length : (Job.spawn s).threads.length = s.threads.length + 1 :=
  List.length_append ..

theorem spawn_unjoined (hmain : s.main = .looping) :
    (Job.spawn s).unjoined = s.unjoined ++ [s.threads.length] := by
  simp only [Sys.unjoined, hmain, Job.spawn]
  split <;> rename_i heq <;> split at heq <;> cases heq <;> rfl

theorem spawn_unjoined_lt (hmain : s.main = .looping)
    (hlt : ∀ i ∈ s.unjoined, i < s.threads.length) :
    ∀ i ∈ (Job.spawn s).unjoined, i < (Job.spawn s).threads.length := by
  intro i hi
  rw [spawn_unjoined hmain, List.mem_append, List.mem_singleton] at hi
  rw [spawn_length]
  rcases hi with hi | rfl
  · exact Nat.lt_succ_of_lt (hlt i hi)
  · exact Nat.lt_succ_self _

theorem not_spawned_spawn : ¬ (Job.spawn s).spawned := by
  simp only [Sys.spawned, Job.spawn]
  intro hspawned
  split at hspawned <;> rename_i heq
  · exact hspawned
  · exact hspawned
  · split at heq <;> cases heq
  · split at heq <;> cases heq

/-- A new thread has been nowhere yet. -/
theorem Inv.stands_new (h : Inv job m g s) :
    Stands job g s.freadMutex s.formatMutex s.threads.length .waiting := by
  constructor
  case read =>
    have := h.order_lt s.threads.length
    simpa [Phase.hasRead] using this
  case print =>
    have := h.printed_lt s.threads.length
    simpa [Phase.hasPrinted] using this
  case fread =>
    have := h.fread_lt s.threads.length
    simpa [Phase.holdsFread] using this
  case format =>
    have := h.format_lt s.threads.length
    simpa [Phase.holdsFormat] using this
  case carries => trivial

theorem Inv.spawn (h : Inv job m g s) (hmain : s.main = .looping) (hleft : s.leftSoFar > 0) :
    Inv job m g (Job.spawn s) := by
  have hlt := h.left_pos hleft
  constructor
  case size =>
    intro th hth
    rw [Job.spawn] at hth
    rcases List.mem_append.mp hth with hth | hth
    · exact h.size th hth
    · rw [List.mem_singleton.mp hth]
      exact currChunkSize_eq s.leftSoFar
  case stands =>
    intro i ph hph
    have hi := phase_lt hph
    rw [spawn_length] at hi
    rcases Nat.lt_succ_iff_lt_or_eq.mp hi with hi | rfl
    · rw [spawn_phase_of_lt hi] at hph
      exact h.stands i ph hph
    · rw [spawn_phase_new] at hph
      rw [← Option.some.inj hph]
      exact h.stands_new
  case order_lt =>
    intro i hi
    rw [spawn_length]
    exact Nat.lt_succ_of_lt (h.order_lt i hi)
  case printed_lt =>
    intro i hi
    rw [spawn_length]
    exact Nat.lt_succ_of_lt (h.printed_lt i hi)
  case fread_lt =>
    intro i hi
    rw [spawn_length]
    exact Nat.lt_succ_of_lt (h.fread_lt i hi)
  case format_lt =>
    intro i hi
    rw [spawn_length]
    exact Nat.lt_succ_of_lt (h.format_lt i hi)
  case order_nodup => exact h.order_nodup
  case printed_nodup => exact h.printed_nodup
  case stream => exact h.stream
  case text => exact h.text
  case idle => exact h.idle
  case count =>
    rw [spawn_length]
    exact hlt
  case left =>
    -- a whole chunk is left, so the unsigned counter does not wrap
    have hchunk : chunkSize.toNat = 16384 := rfl
    have hge : chunkSize ≤ s.leftSoFar := by
      rw [UInt64.le_iff_toNat_le, h.left, hchunk]
      exact Nat.le_mul_of_pos_left _ (by omega)
    rw [spawn_length]
    show (s.leftSoFar - chunkSize).toNat = _
    rw [UInt64.toNat_sub_of_le _ _ hge, h.left, hchunk, Nat.sub_add_eq, Nat.sub_one_mul]
  case joined =>
    intro i hi
    rw [spawn_unjoined hmain, List.mem_append, List.mem_singleton]
    rw [spawn_length] at hi
    rcases Nat.lt_succ_iff_lt_or_eq.mp hi with hi | rfl
    · rw [spawn_phase_of_lt hi]
      exact (h.joined i hi).imp_left .inl
    · exact .inl (.inr rfl)
  case unjoined_lt => exact spawn_unjoined_lt hmain h.unjoined_lt
  case covered => exact fun hspawned => absurd hspawned not_spawned_spawn

/-- `process_large_file` moves on without a new thread. -/
theorem Inv.advance (h : Inv job m g s) (main : Main) (pool : List Nat)
    (hjoined : ∀ i < s.threads.length,
      i ∈ ({ s with main := main, threadPool := pool } : Sys).unjoined ∨
        s.phase i = some .finished)
    (hlt : ∀ i ∈ ({ s with main := main, threadPool := pool } : Sys).unjoined,
      i < s.threads.length)
    (hcovered : ({ s with main := main, threadPool := pool } : Sys).spawned →
      s.threads.length = m) :
    Inv job m g { s with main := main, threadPool := pool } where
  size := h.size
  stands := h.stands
  order_lt := h.order_lt
  printed_lt := h.printed_lt
  fread_lt := h.fread_lt
  format_lt := h.format_lt
  order_nodup := h.order_nodup
  printed_nodup := h.printed_nodup
  stream := h.stream
  text := h.text
  idle := h.idle
  count := h.count
  left := h.left
  joined := hjoined
  unjoined_lt := hlt
  covered := hcovered

/-- The first thread to be joined has finished. -/
theorem Inv.join {rest : List Nat} (h : Inv job m g s) (hunjoined : s.unjoined = i :: rest)
    (hfin : s.phase i = some .finished) :
    (∀ j < s.threads.length, j ∈ rest ∨ s.phase j = some .finished) ∧
      ∀ j ∈ rest, j < s.threads.length := by
  constructor
  · intro j hj
    have := h.joined j hj
    rw [hunjoined, List.mem_cons] at this
    rcases this with (rfl | hin) | hfin'
    · exact .inr hfin
    · exact .inl hin
    · exact .inr hfin'
  · intro j hj
    apply h.unjoined_lt j
    rw [hunjoined]
    exact List.mem_cons_of_mem _ hj

/-- The steps of `process_large_file`, one for each branch that can be taken. -/
inductive MainStep (s : Sys) : Sys → Prop where
  | spawn (hmain : s.main = .looping) (hleft : s.leftSoFar > 0) : MainStep s (Job.spawn s)
  | leave (hmain : s.main = .looping) (hleft : s.leftSoFar.toNat = 0) :
      MainStep s { s with main := .leaving s.threadPool }
  | join {i : Nat} {rest : List Nat} (hmain : s.main = .joining (i :: rest))
      (hfin : s.phase i = some .finished) : MainStep s { s with main := .joining rest }
  | clear (hmain : s.main = .joining []) :
      MainStep s { s with threadPool := [], main := .looping }
  | joinLeft {i : Nat} {rest : List Nat} (hmain : s.main = .leaving (i :: rest))
      (hfin : s.phase i = some .finished) : MainStep s { s with main := .leaving rest }
  | done (hmain : s.main = .leaving []) : MainStep s { s with main := .returned }

theorem nextMain_iff : Job.nextMain s = some s' ↔ MainStep s s' := by
  constructor
  · intro hs
    cases hmain : s.main with
    | looping =>
        rw [Job.nextMain, hmain] at hs
        dsimp only at hs
        split at hs
        · rename_i hleft
          cases hs
          exact .spawn hmain hleft
        · rename_i hleft
          cases hs
          rw [gt_iff_lt, UInt64.lt_iff_toNat_lt] at hleft
          exact .leave hmain (Nat.eq_zero_of_not_pos hleft)
    | joining rest =>
        rw [Job.nextMain, hmain] at hs
        cases rest with
        | nil =>
            cases hs
            exact .clear hmain
        | cons i rest =>
            dsimp only at hs
            split at hs
            · rename_i hfin
              cases hs
              exact .join hmain hfin
            · cases hs
    | leaving rest =>
        rw [Job.nextMain, hmain] at hs
        cases rest with
        | nil =>
            cases hs
            exact .done hmain
        | cons i rest =>
            dsimp only at hs
            split at hs
            · rename_i hfin
              cases hs
              exact .joinLeft hmain hfin
            · cases hs
    | returned =>
        rw [Job.nextMain, hmain] at hs
        cases hs
  · intro hs
    cases hs with
    | spawn hmain hleft => rw [Job.nextMain, hmain]; exact if_pos hleft
    | leave hmain hleft =>
        have hzero : ¬ s.leftSoFar > 0 := by
          rw [gt_iff_lt, UInt64.lt_iff_toNat_lt, hleft]
          exact Nat.lt_irrefl 0
        rw [Job.nextMain, hmain]
        exact if_neg hzero
    | join hmain hfin => rw [Job.nextMain, hmain]; exact if_pos hfin
    | clear hmain => rw [Job.nextMain, hmain]
    | joinLeft hmain hfin => rw [Job.nextMain, hmain]; exact if_pos hfin
    | done hmain => rw [Job.nextMain, hmain]

/-- Until it returns, `process_large_file` has a step or waits for a thread. -/
theorem mainStep_or_waits (hret : s.main ≠ .returned) :
    (∃ s', MainStep s s') ∨ ∃ i ∈ s.unjoined, s.phase i ≠ some .finished := by
  cases hmain : s.main with
  | looping =>
      by_cases hleft : s.leftSoFar > 0
      · exact .inl ⟨_, .spawn hmain hleft⟩
      · rw [gt_iff_lt, UInt64.lt_iff_toNat_lt] at hleft
        exact .inl ⟨_, .leave hmain (Nat.eq_zero_of_not_pos hleft)⟩
  | joining rest =>
      rw [Sys.unjoined, hmain]
      cases rest with
      | nil => exact .inl ⟨_, .clear hmain⟩
      | cons i rest =>
          by_cases hfin : s.phase i = some .finished
          · exact .inl ⟨_, .join hmain hfin⟩
          · exact .inr ⟨i, List.mem_cons_self, hfin⟩
  | leaving rest =>
      rw [Sys.unjoined, hmain]
      cases rest with
      | nil => exact .inl ⟨_, .done hmain⟩
      | cons i rest =>
          by_cases hfin : s.phase i = some .finished
          · exact .inl ⟨_, .joinLeft hmain hfin⟩
          · exact .inr ⟨i, List.mem_cons_self, hfin⟩
  | returned => exact absurd hmain hret

theorem Inv.nextMain (h : Inv job m g s) (hs : Job.nextMain s = some s') : Inv job m g s' := by
  have hjoined := h.joined
  have hlt := h.unjoined_lt
  have hcovered := h.covered
  cases nextMain_iff.mp hs with
  | spawn hmain hleft => exact h.spawn hmain hleft
  | leave hmain hleft =>
      rw [Sys.unjoined, hmain] at hjoined hlt
      apply h.advance (.leaving s.threadPool) s.threadPool hjoined hlt
      -- nothing is left, so every chunk has its thread
      intro _
      have := h.left
      have := h.count
      omega
  | @join i rest hmain hfin =>
      obtain ⟨hjoined', hlt'⟩ := h.join (by rw [Sys.unjoined, hmain]) hfin
      exact h.advance (.joining rest) s.threadPool hjoined' hlt' False.elim
  | clear hmain =>
      rw [Sys.unjoined, hmain] at hjoined hlt
      exact h.advance .looping [] hjoined hlt False.elim
  | @joinLeft i rest hmain hfin =>
      rw [Sys.spawned, hmain] at hcovered
      obtain ⟨hjoined', hlt'⟩ := h.join (by rw [Sys.unjoined, hmain]) hfin
      exact h.advance (.leaving rest) s.threadPool hjoined' hlt' hcovered
  | done hmain =>
      rw [Sys.unjoined, hmain] at hjoined hlt
      rw [Sys.spawned, hmain] at hcovered
      exact h.advance .returned s.threadPool hjoined hlt hcovered

/-- **Every step keeps the invariant**, whoever takes it. -/
theorem Inv.step {e : Event} (h : Inv job m g s) (hs : job.Step s e s') :
    ∃ g', Inv job m g' s' := by
  obtain ⟨hnext, hfull⟩ := hs
  cases e with
  | main => exact ⟨g, h.nextMain hnext⟩
  | thread i =>
      obtain ⟨th, hth, hs⟩ := Option.bind_eq_some_iff.mp hnext
      exact h.nextThread hth hs
  | read i k =>
      obtain ⟨th, hth, hs⟩ := Option.bind_eq_some_iff.mp hnext
      have hk : k = 16384 := by
        rw [hfull i k rfl th hth, h.size_of_thread hth]
        rfl
      rw [hk] at hs
      exact h.nextRead hth hs

/-- **Every schedule** keeps the invariant. -/
theorem inv_of_run {tr : List (Event × Sys)} (hwhole : job.Whole m)
    (hrun : Run job.Step job.start tr s) : ∃ g, Inv job m g s := by
  apply hrun.invariant (I := fun s => ∃ g, Inv job m g s) ⟨_, Inv.start hwhole⟩
  intro a e b h hs
  obtain ⟨g, h⟩ := h
  exact h.step hs

end Step

end Challenges.FindString

import Challenges.FindString.Schedules

/-!
# ChunkLoop — whether the chunk loop ends

`left_so_far` is unsigned, so the test for a short last chunk never succeeds:
every `read_chunk` is given a whole chunk, and the counter steps over zero
unless `CHUNK_SIZE` divides the size of the file. Then the loop goes on for
ever, under every schedule and whatever `readsome` returns.
-/

namespace Challenges.FindString

open Challenges.Lib

/-- A step, whatever `readsome` returns. -/
def Job.AnyStep (job : Job) (a : Sys) (e : Event) (b : Sys) : Prop := job.next a e = some b

/-- `curr_chunk_size` in a round of the loop. -/
def rounds (a : Sys) (e : Event) (_ : Sys) : List Int64 :=
  match e, a.main with
  | .main, .looping => if a.leftSoFar > 0 then [Job.currChunkSize a.leftSoFar] else []
  | _, _ => []

/-- The thread that a step joins. -/
def joins (a : Sys) (e : Event) (_ : Sys) : List Nat :=
  match e, a.main with
  | .main, .joining (i :: _) => [i]
  | .main, .leaving (i :: _) => [i]
  | _, _ => []

/-- The loop ends and covers the file. -/
structure Covers (job : Job) : Prop where
  /-- no schedule goes on for ever -/
  ends : ¬ Endless job.AnyStep job.start
  /-- and none is stuck before the function returns -/
  returns : ∀ tr s, Run job.AnyStep job.start tr s → (∀ e b, ¬ job.AnyStep s e b) →
    s.main = .returned
  /-- there is a round for each chunk, a short one at the end included -/
  count : ∀ tr s, Run job.AnyStep job.start tr s → s.main = .returned →
    (observed rounds job.start tr).length = (job.content.length + 16383) / 16384
  sizes : ∀ tr s, Run job.AnyStep job.start tr s →
    ∀ th ∈ s.threads, 1 ≤ th.size ∧ th.size ≤ chunkSize.toInt64
  total : ∀ tr s, Run job.AnyStep job.start tr s → s.main = .returned →
    (s.threads.map fun th => th.size.toInt).sum = job.content.length
  /-- each thread is joined once -/
  joined : ∀ tr s, Run job.AnyStep job.start tr s → s.main = .returned →
    (observed joins job.start tr).Perm (List.range s.threads.length)

/-! ## The invariant -/

namespace Phase

/-- A chunk is as long as `curr_chunk_size`, however much of it was read. -/
def Full : Phase → Prop
  | .filled chunk | .searching chunk => chunk.length = 16384
  | _ => True

/-- How far a thread is from its end, what it prints apart. -/
def stage : Phase → Nat
  | .waiting => 6
  | .reading => 5
  | .filled _ => 4
  | .searching _ => 3
  | .found _ => 2
  | .printing _ => 1
  | .finished => 0

/-- How much it has to print, as far as that is known. -/
def unprinted : Phase → Nat
  | .found out | .printing out => out.length
  | _ => 0

end Phase

/-- What holds whatever `readsome` returns. -/
structure Orderly (job : Job) (s : Sys) : Prop where
  size : ∀ th ∈ s.threads, th.size = 16384
  full : ∀ i ph, s.phase i = some ph → ph.Full
  fread : ∀ i, s.freadMutex = some i ↔ ∃ ph, s.phase i = some ph ∧ ph.holdsFread
  format : ∀ i, s.formatMutex = some i ↔ ∃ ph, s.phase i = some ph ∧ ph.holdsFormat
  stream : s.stream ≤ job.content.length
  unjoined_lt : ∀ i ∈ s.unjoined, i < s.threads.length
  /-- whole chunks have been taken off the counter -/
  left : s.leftSoFar.toNat % 16384 = job.content.length % 16384
  /-- and it has not stepped over zero -/
  count : 16384 ∣ job.content.length →
    s.leftSoFar.toNat + s.threads.length * 16384 = job.content.length
  spawned : s.spawned → s.leftSoFar.toNat = 0

theorem Orderly.start {job : Job} (hsize : job.content.length < 2 ^ 64) :
    Orderly job job.start where
  size := by simp [Job.start]
  full := by simp [Sys.phase, Job.start]
  fread := by simp [Sys.phase, Job.start]
  format := by simp [Sys.phase, Job.start]
  stream := by simp [Job.start]
  unjoined_lt := by simp [Sys.unjoined, Job.start]
  left := by rw [Job.start, toNat_ofNat hsize]
  count := by simp [Job.start, toNat_ofNat hsize]
  spawned := False.elim

/-! ## A step of a `read_chunk` -/

/-- Thread `i` takes or gives back a mutex, or leaves it alone: afterwards it
holds it or not. -/
def Passes (held held' : Option Nat) (i : Nat) (holds : Bool) : Prop :=
  (held' = some i ↔ holds) ∧ ∀ j ≠ i, held' = some j ↔ held = some j

section Passes

variable {held : Option Nat} {i : Nat} {holds : Bool}

theorem Passes.keep (h : held = some i ↔ holds) : Passes held held i holds :=
  ⟨h, fun _ _ => .rfl⟩

theorem Passes.lock (h : held = none) : Passes held (some i) i true := by
  constructor
  · simp
  · intro j hj
    simp [h, Ne.symm hj]

theorem Passes.unlock (h : held = some i) : Passes held none i false := by
  constructor
  · simp
  · intro j hj
    simp [h, Ne.symm hj]

end Passes

/-- Thread `i` goes from `old` to `ph`, and the rest is as it was. -/
structure Goes (job : Job) (s : Sys) (i : Nat) (old ph : Phase) (s' : Sys) : Prop where
  phase : s.phase i = some old
  only : s' = { s.goto i ph with
    stream := s'.stream, freadMutex := s'.freadMutex, formatMutex := s'.formatMutex,
    stdout := s'.stdout }
  less : ph.stage < old.stage ∨ ph.stage = old.stage ∧ ph.unprinted < old.unprinted
  full : ph.Full
  fread : Passes s.freadMutex s'.freadMutex i ph.holdsFread
  format : Passes s.formatMutex s'.formatMutex i ph.holdsFormat
  stream : s'.stream ≤ job.content.length

section Step

variable {job : Job} {s s' : Sys} {i k : Nat} {old ph : Phase} {th : Thread}

theorem Orderly.fread_iff (h : Orderly job s) (hph : s.phase i = some ph) :
    s.freadMutex = some i ↔ ph.holdsFread := by
  rw [h.fread i, hph]
  simp

theorem Orderly.format_iff (h : Orderly job s) (hph : s.phase i = some ph) :
    s.formatMutex = some i ↔ ph.holdsFormat := by
  rw [h.format i, hph]
  simp

theorem Orderly.size_of_thread (h : Orderly job s) (hth : s.threads[i]? = some th) :
    th.size = 16384 := h.size th (List.mem_of_getElem? hth)

/-- The search of a chunk ends without a fault. -/
theorem Job.search_full (job : Job) {chunk : Bytes} (hchunk : chunk.length = 16384) :
    ∃ out, job.search chunk 16384 = .ok out := by
  have hlast : (16384 - 1 : Int64).toNatClampNeg = 16383 := by decide
  have hlen : (chunk.set 16383 0).length < 2 ^ 31 - 1 := by
    rw [List.length_set, hchunk]
    decide
  rw [Job.search, if_neg (by decide), hlast, processChunk_eq (by omega) fun _ => hlen]
  exact ⟨_, rfl⟩

theorem Orderly.nextThread (h : Orderly job s) (hth : s.threads[i]? = some th)
    (hs : job.nextThread s i th = some s') : ∃ ph, Goes job s i th.phase ph s' := by
  have hph := phase_of_thread hth
  have hfull := h.full i _ hph
  have hfread := h.fread_iff hph
  have hformat := h.format_iff hph
  cases nextThread_iff.mp hs with
  | skip _ hneg =>
      -- no thread is given a negative size
      rw [h.size_of_thread hth] at hneg
      exact absurd hneg (by decide)
  | lock hphase _ hfree =>
      rw [hphase] at hph hformat ⊢
      exact ⟨.reading, hph, rfl, .inl (Nat.lt_succ_self _), trivial, .lock hfree,
        .keep hformat, h.stream⟩
  | @unlock chunk hphase =>
      rw [hphase] at hph hfull hfread hformat ⊢
      exact ⟨.searching chunk, hph, rfl, .inl (Nat.lt_succ_self _), hfull, .unlock (hfread.mpr rfl),
        .keep hformat, h.stream⟩
  | @search _ out hphase _ =>
      rw [hphase] at hph hfread hformat ⊢
      exact ⟨.found out, hph, rfl, .inl (Nat.lt_succ_self _), trivial, .keep hfread,
        .keep hformat, h.stream⟩
  | @lockFormat out hphase hfree =>
      rw [hphase] at hph hfread ⊢
      exact ⟨.printing out, hph, rfl, .inl (Nat.lt_succ_self _), trivial, .keep hfread, .lock hfree,
        h.stream⟩
  | @print _ rest hphase =>
      rw [hphase] at hph hfread hformat ⊢
      exact ⟨.printing rest, hph, rfl, .inr ⟨rfl, Nat.lt_succ_self _⟩, trivial, .keep hfread,
        .keep hformat, h.stream⟩
  | unlockFormat hphase =>
      rw [hphase] at hph hfread hformat ⊢
      exact ⟨.finished, hph, rfl, .inl (Nat.lt_succ_self _), trivial, .keep hfread,
        .unlock (hformat.mpr rfl), h.stream⟩

theorem Orderly.nextRead (h : Orderly job s) (hth : s.threads[i]? = some th)
    (hs : job.nextRead s i k th = some s') : ∃ ph, Goes job s i th.phase ph s' := by
  have hph := phase_of_thread hth
  have hclamp : th.size.toNatClampNeg = 16384 := by
    rw [h.size_of_thread hth]
    rfl
  rw [Job.nextRead, hclamp] at hs
  split at hs
  · rename_i hread
    obtain ⟨hphase, hk, hroom⟩ := hread
    have hfread := h.fread_iff hph
    have hformat := h.format_iff hph
    rw [hphase] at hph hfread hformat ⊢
    cases hs
    refine ⟨_, hph, rfl, .inl (Nat.lt_succ_self _), ?_, .keep hfread, .keep hformat, hroom⟩
    rw [Phase.Full, List.length_append, List.length_take, List.length_drop, List.length_replicate]
    omega
  · cases hs

/-- A step of a thread keeps the invariant. -/
theorem Orderly.goes (h : Orderly job s) (hgoes : Goes job s i old ph s') : Orderly job s' := by
  have hthreads : s'.threads = (s.goto i ph).threads := by rw [hgoes.only]
  have hlen : s'.threads.length = s.threads.length := by rw [hthreads, goto_length]
  have hself : s'.phase i = some ph := by
    rw [Sys.phase, hthreads]
    exact goto_phase_self hgoes.phase
  have hothers (j : Nat) (hj : j ≠ i) : s'.phase j = s.phase j := by
    rw [Sys.phase, hthreads]
    exact goto_phase_ne hj
  have hunjoined : s'.unjoined = s.unjoined := by rw [hgoes.only]; rfl
  have hspawned : s'.spawned = s.spawned := by rw [hgoes.only]; rfl
  have hleft : s'.leftSoFar = s.leftSoFar := by rw [hgoes.only]; rfl
  constructor
  case size =>
    rw [hthreads]
    exact goto_size h.size
  case full =>
    intro j ph' hph'
    by_cases hj : j = i
    · rw [hj, hself] at hph'
      rw [← Option.some.inj hph']
      exact hgoes.full
    · rw [hothers j hj] at hph'
      exact h.full j ph' hph'
  case fread =>
    intro j
    by_cases hj : j = i
    · rw [hj, hself, hgoes.fread.1]
      simp
    · rw [hothers j hj, hgoes.fread.2 j hj, h.fread j]
  case format =>
    intro j
    by_cases hj : j = i
    · rw [hj, hself, hgoes.format.1]
      simp
    · rw [hothers j hj, hgoes.format.2 j hj, h.format j]
  case stream => exact hgoes.stream
  case unjoined_lt =>
    rw [hunjoined, hlen]
    exact h.unjoined_lt
  case left =>
    rw [hleft]
    exact h.left
  case count =>
    rw [hleft, hlen]
    exact h.count
  case spawned =>
    rw [hspawned, hleft]
    exact h.spawned

/-! ## A step of `process_large_file` -/

theorem spawn_phase_iff : (Job.spawn s).phase i = some ph ↔
    s.phase i = some ph ∨ i = s.threads.length ∧ ph = .waiting := by
  rcases Nat.lt_trichotomy i s.threads.length with hlt | rfl | hgt
  · rw [spawn_phase_of_lt hlt]
    simp [Nat.ne_of_lt hlt]
  · rw [spawn_phase_new]
    simp [Sys.phase, eq_comm]
  · have hbeyond : (Job.spawn s).threads.length ≤ i := by
      rw [spawn_length]
      exact hgt
    simp [Sys.phase, List.getElem?_eq_none hbeyond, List.getElem?_eq_none (Nat.le_of_lt hgt),
      Nat.ne_of_gt hgt]

/-- A new thread holds no mutex. -/
theorem spawn_holds_iff {holds : Phase → Bool} (hwaiting : holds .waiting = false) :
    (∃ ph, (Job.spawn s).phase i = some ph ∧ holds ph) ↔ ∃ ph, s.phase i = some ph ∧ holds ph := by
  simp only [spawn_phase_iff]
  constructor
  · intro hnew
    rcases hnew with ⟨ph, hph | ⟨_, rfl⟩, hholds⟩
    · exact ⟨ph, hph, hholds⟩
    · rw [hwaiting] at hholds
      cases hholds
  · intro hold
    obtain ⟨ph, hph, hholds⟩ := hold
    exact ⟨ph, .inl hph, hholds⟩

theorem Orderly.spawn (h : Orderly job s) (hmain : s.main = .looping) (hleft : s.leftSoFar > 0) :
    Orderly job (Job.spawn s) := by
  have hchunk : chunkSize.toNat = 16384 := rfl
  have hpos : 0 < s.leftSoFar.toNat := UInt64.lt_iff_toNat_lt.mp hleft
  constructor
  case size =>
    intro th hth
    rw [Job.spawn, List.mem_append, List.mem_singleton] at hth
    rcases hth with hth | rfl
    · exact h.size th hth
    · exact currChunkSize_eq s.leftSoFar
  case full =>
    intro i ph hph
    rcases spawn_phase_iff.mp hph with hph | ⟨_, rfl⟩
    · exact h.full i ph hph
    · trivial
  case fread =>
    intro i
    rw [spawn_holds_iff rfl]
    exact h.fread i
  case format =>
    intro i
    rw [spawn_holds_iff rfl]
    exact h.format i
  case stream => exact h.stream
  case unjoined_lt => exact spawn_unjoined_lt hmain h.unjoined_lt
  case left =>
    show (s.leftSoFar - chunkSize).toNat % 16384 = _
    rw [UInt64.toNat_sub, hchunk, ← h.left]
    omega
  case count =>
    -- a multiple of the chunk that is not zero is a whole chunk at least
    intro hdvd
    have hcount := h.count hdvd
    have hge : chunkSize ≤ s.leftSoFar := by
      rw [UInt64.le_iff_toNat_le, hchunk]
      omega
    rw [spawn_length]
    show (s.leftSoFar - chunkSize).toNat + _ = _
    rw [UInt64.toNat_sub_of_le _ _ hge, hchunk]
    rw [UInt64.le_iff_toNat_le, hchunk] at hge
    omega
  case spawned => exact fun hspawned => absurd hspawned not_spawned_spawn

/-- `process_large_file` moves on without a new thread. -/
theorem Orderly.advance (h : Orderly job s) (main : Main) (pool : List Nat)
    (hlt : ∀ i ∈ ({ s with main := main, threadPool := pool } : Sys).unjoined,
      i < s.threads.length)
    (hspawned : ({ s with main := main, threadPool := pool } : Sys).spawned →
      s.leftSoFar.toNat = 0) :
    Orderly job { s with main := main, threadPool := pool } where
  size := h.size
  full := h.full
  fread := h.fread
  format := h.format
  stream := h.stream
  unjoined_lt := hlt
  left := h.left
  count := h.count
  spawned := hspawned

theorem Orderly.nextMain (h : Orderly job s) (hs : Job.nextMain s = some s') : Orderly job s' := by
  have hlt := h.unjoined_lt
  have hspawned := h.spawned
  cases nextMain_iff.mp hs with
  | spawn hmain hleft => exact h.spawn hmain hleft
  | leave hmain hleft =>
      rw [Sys.unjoined, hmain] at hlt
      exact h.advance (.leaving s.threadPool) s.threadPool hlt fun _ => hleft
  | @join i rest hmain hfin =>
      rw [Sys.unjoined, hmain] at hlt
      have hlt' : ∀ j ∈ rest, j < s.threads.length := fun j hj => hlt j (List.mem_cons_of_mem _ hj)
      exact h.advance (.joining rest) s.threadPool hlt' False.elim
  | clear hmain =>
      rw [Sys.unjoined, hmain] at hlt
      exact h.advance .looping [] hlt False.elim
  | @joinLeft i rest hmain hfin =>
      rw [Sys.unjoined, hmain] at hlt
      rw [Sys.spawned, hmain] at hspawned
      have hlt' : ∀ j ∈ rest, j < s.threads.length := fun j hj => hlt j (List.mem_cons_of_mem _ hj)
      exact h.advance (.leaving rest) s.threadPool hlt' hspawned
  | done hmain =>
      rw [Sys.unjoined, hmain] at hlt
      rw [Sys.spawned, hmain] at hspawned
      exact h.advance .returned s.threadPool hlt hspawned

/-- A step is one of `process_large_file`, or of a thread. -/
theorem Orderly.step_cases {e : Event} (h : Orderly job s) (hs : job.AnyStep s e s') :
    (e = .main ∧ Job.nextMain s = some s') ∨
      (e ≠ .main ∧ ∃ i old ph, Goes job s i old ph s') := by
  cases e with
  | main => exact .inl ⟨rfl, hs⟩
  | thread i =>
      obtain ⟨th, hth, hs⟩ := Option.bind_eq_some_iff.mp hs
      obtain ⟨ph, hgoes⟩ := h.nextThread hth hs
      exact .inr ⟨Event.noConfusion, i, _, ph, hgoes⟩
  | read i k =>
      obtain ⟨th, hth, hs⟩ := Option.bind_eq_some_iff.mp hs
      obtain ⟨ph, hgoes⟩ := h.nextRead hth hs
      exact .inr ⟨Event.noConfusion, i, _, ph, hgoes⟩

/-- **Every step keeps the invariant**. -/
theorem Orderly.step {e : Event} (h : Orderly job s) (hs : job.AnyStep s e s') :
    Orderly job s' := by
  rcases h.step_cases hs with ⟨_, hmain⟩ | ⟨_, i, old, ph, hgoes⟩
  · exact h.nextMain hmain
  · exact h.goes hgoes

theorem orderly_of_run {tr : List (Event × Sys)} (hsize : job.content.length < 2 ^ 64)
    (hrun : Run job.AnyStep job.start tr s) : Orderly job s :=
  hrun.invariant (.start hsize) fun _ _ _ h hs => h.step hs

/-! ## Rounds and joins -/

/-- The threads have the sizes of the rounds. -/
theorem Orderly.rounds_step {e : Event} (h : Orderly job s) (hs : job.AnyStep s e s') :
    s'.threads.map Thread.size = s.threads.map Thread.size ++ rounds s e s' := by
  rcases h.step_cases hs with ⟨rfl, hnext⟩ | ⟨hne, i, old, ph, hgoes⟩
  · cases nextMain_iff.mp hnext with
    | spawn hmain hleft =>
        simp only [rounds, hmain, if_pos hleft, Job.spawn, List.map_append, List.map_cons,
          List.map_nil]
    | leave hmain hleft =>
        have hzero : ¬ s.leftSoFar > 0 := by
          rw [gt_iff_lt, UInt64.lt_iff_toNat_lt, hleft]
          exact Nat.lt_irrefl 0
        simp only [rounds, hmain, if_neg hzero, List.append_nil]
    | join hmain _ | clear hmain | joinLeft hmain _ | done hmain =>
        simp only [rounds, hmain, List.append_nil]
  · have hrounds : rounds s e s' = [] := by
      cases e with
      | main => exact absurd rfl hne
      | thread i | read i k => rfl
    rw [hrounds, List.append_nil, hgoes.only]
    apply List.ext_getElem?
    intro j
    simp only [Sys.goto, List.getElem?_map, List.getElem?_modify]
    cases s.threads[j]? with
    | none => rfl
    | some th =>
        simp only [Option.map_eq_map, Option.map_some]
        split <;> rfl

/-- What is joined, and what is left to be joined, are the threads in order. -/
theorem Orderly.joins_step {e : Event} (h : Orderly job s) (hs : job.AnyStep s e s') :
    ∃ new, joins s e s' ++ s'.unjoined = s.unjoined ++ new ∧
      List.range s'.threads.length = List.range s.threads.length ++ new := by
  rcases h.step_cases hs with ⟨rfl, hnext⟩ | ⟨hne, i, old, ph, hgoes⟩
  · cases nextMain_iff.mp hnext with
    | spawn hmain hleft =>
        refine ⟨[s.threads.length], ?_, ?_⟩
        · simp only [joins, hmain, List.nil_append]
          exact spawn_unjoined hmain
        · rw [spawn_length, List.range_succ]
    | leave hmain _ | join hmain _ | clear hmain | joinLeft hmain _ | done hmain =>
        exact ⟨[], by simp [joins, Sys.unjoined, hmain], (List.append_nil _).symm⟩
  · have hjoins : joins s e s' = [] := by
      cases e with
      | main => exact absurd rfl hne
      | thread i | read i k => rfl
    have hunjoined : s'.unjoined = s.unjoined := by rw [hgoes.only]; rfl
    have hlen : s'.threads.length = s.threads.length := by rw [hgoes.only]; exact goto_length
    exact ⟨[], by rw [hjoins, hunjoined, List.nil_append, List.append_nil], by simp [hlen]⟩

theorem rounds_of_run {tr : List (Event × Sys)} (hsize : job.content.length < 2 ^ 64)
    (hrun : Run job.AnyStep job.start tr s) :
    observed rounds job.start tr = s.threads.map Thread.size := by
  induction hrun with
  | nil => rfl
  | @snoc tr a e b hrun hs ih =>
      rw [hrun.observed_snoc, ih, (orderly_of_run hsize hrun).rounds_step hs]

theorem joins_of_run {tr : List (Event × Sys)} (hsize : job.content.length < 2 ^ 64)
    (hrun : Run job.AnyStep job.start tr s) :
    observed joins job.start tr ++ s.unjoined = List.range s.threads.length := by
  induction hrun with
  | nil => rfl
  | @snoc tr a e b hrun hs ih =>
      obtain ⟨new, hnew, hrange⟩ := (orderly_of_run hsize hrun).joins_step hs
      rw [hrun.observed_snoc, List.append_assoc, hnew, ← List.append_assoc, ih, hrange]

/-! ## Progress -/

/-- Some step is possible. -/
def Enabled (job : Job) (s : Sys) : Prop := ∃ e s', job.AnyStep s e s'

theorem enabled_thread (hth : s.threads[i]? = some th) (hs : ThreadStep job s i th s') :
    Enabled job s :=
  ⟨.thread i, s', Option.bind_eq_some_iff.mpr ⟨th, hth, nextThread_iff.mpr hs⟩⟩

/-- Who holds `fread_mutex` can go on, `readsome` returning nothing if need be. -/
theorem Orderly.fread_enabled (h : Orderly job s) (hheld : s.freadMutex = some i) :
    Enabled job s := by
  obtain ⟨ph, hph, hholds⟩ := (h.fread i).mp hheld
  obtain ⟨th, hth, rfl⟩ := thread_of_phase hph
  cases hphase : th.phase with
  | reading =>
      have hread : job.nextRead s i 0 th ≠ none := by
        rw [Job.nextRead, if_pos ⟨hphase, Nat.zero_le _, h.stream⟩]
        exact Option.some_ne_none _
      obtain ⟨s', hs'⟩ := Option.ne_none_iff_exists'.mp hread
      exact ⟨.read i 0, s', Option.bind_eq_some_iff.mpr ⟨th, hth, hs'⟩⟩
  | filled chunk => exact enabled_thread hth (.unlock hphase)
  | waiting | searching _ | found _ | printing _ | finished =>
      rw [hphase] at hholds
      cases hholds

theorem Orderly.format_enabled (h : Orderly job s) (hheld : s.formatMutex = some i) :
    Enabled job s := by
  obtain ⟨ph, hph, hholds⟩ := (h.format i).mp hheld
  obtain ⟨th, hth, rfl⟩ := thread_of_phase hph
  cases hphase : th.phase with
  | printing out =>
      cases out with
      | nil => exact enabled_thread hth (.unlockFormat hphase)
      | cons p rest => exact enabled_thread hth (.print hphase)
  | waiting | reading | filled _ | searching _ | found _ | finished =>
      rw [hphase] at hholds
      cases hholds

/-- A thread that has not finished is not in the way for good. -/
theorem Orderly.thread_enabled (h : Orderly job s) (hi : i < s.threads.length)
    (hne : s.phase i ≠ some .finished) : Enabled job s := by
  cases hfread : s.freadMutex with
  | some j => exact h.fread_enabled hfread
  | none =>
      cases hformat : s.formatMutex with
      | some j => exact h.format_enabled hformat
      | none =>
          have hth : s.threads[i]? = some s.threads[i] := List.getElem?_eq_getElem hi
          have hph := phase_of_thread hth
          have hsize := h.size_of_thread hth
          have hfull := h.full i _ hph
          generalize s.threads[i] = th at hth hph hsize hfull
          cases hphase : th.phase with
          | waiting =>
              have hpos : ¬ th.size < 0 := by
                rw [hsize]
                decide
              exact enabled_thread hth (.lock hphase hpos hfread)
          | reading | filled _ =>
              -- it would hold `fread_mutex`
              rw [hphase] at hph
              have hheld := (h.fread_iff hph).mpr rfl
              rw [hfread] at hheld
              cases hheld
          | searching chunk =>
              rw [hphase] at hfull
              obtain ⟨out, hout⟩ := job.search_full hfull
              rw [← hsize] at hout
              exact enabled_thread hth (.search hphase hout)
          | found out => exact enabled_thread hth (.lockFormat hphase hformat)
          | printing out =>
              rw [hphase] at hph
              have hheld := (h.format_iff hph).mpr rfl
              rw [hformat] at hheld
              cases hheld
          | finished =>
              rw [hphase] at hph
              exact absurd hph hne

/-- **No deadlock** before the function returns. -/
theorem Orderly.enabled (h : Orderly job s) (hret : s.main ≠ .returned) : Enabled job s := by
  rcases mainStep_or_waits hret with ⟨s', hs⟩ | ⟨i, hi, hne⟩
  · exact ⟨.main, s', nextMain_iff.mpr hs⟩
  · exact h.thread_enabled (h.unjoined_lt i hi) hne

end Step

/-! ## The end of the loop -/

/-- What is left to do for a file of `m` chunks: the threads to start, how far
the threads are, and what is left to print and to join. -/
def Sys.rank (m : Nat) (s : Sys) : Nat × Nat × Nat :=
  (m - s.threads.length, (s.threads.map fun th => th.phase.stage).sum,
    (s.threads.map fun th => th.phase.unprinted).sum + s.joinWork)

/-- Less is left to do, what comes first counting first. -/
abbrev RankLt : Nat × Nat × Nat → Nat × Nat × Nat → Prop :=
  Prod.Lex (· < ·) (Prod.Lex (· < ·) (· < ·))

theorem rankLt_wf : WellFounded RankLt :=
  (Prod.lex Nat.lt_wfRel (Prod.lex Nat.lt_wfRel Nat.lt_wfRel)).wf

section End

variable {job : Job} {m : Nat} {s s' : Sys} {i : Nat} {old ph : Phase}

theorem Goes.rank_lt (h : Goes job s i old ph s') : RankLt (s'.rank m) (s.rank m) := by
  obtain ⟨th, hth, rfl⟩ := thread_of_phase h.phase
  have hthreads : s'.threads = (s.goto i ph).threads := by rw [h.only]
  have hjoin : s'.joinWork = s.joinWork := by rw [h.only]; rfl
  have hlen : s'.threads.length = s.threads.length := by rw [hthreads, goto_length]
  have hstage := sum_map_modify hth (fun th => { th with phase := ph }) fun th => th.phase.stage
  have hout := sum_map_modify hth (fun th => { th with phase := ph }) fun th => th.phase.unprinted
  rw [Sys.rank, Sys.rank, hlen, hjoin, hthreads]
  dsimp only [Sys.goto] at hstage hout ⊢
  apply Prod.Lex.right
  rcases h.less with hlt | ⟨heq, hlt⟩
  · apply Prod.Lex.left
    omega
  · rw [heq] at hstage
    rw [Nat.add_right_cancel hstage]
    apply Prod.Lex.right
    omega

theorem Orderly.main_rank_lt (h : Orderly job s) (hdvd : 16384 ∣ job.content.length)
    (hs : MainStep s s') :
    RankLt (s'.rank (job.content.length / 16384)) (s.rank (job.content.length / 16384)) := by
  cases hs with
  | spawn hmain hleft =>
      -- a chunk is left that has no thread yet
      have hpos : 0 < s.leftSoFar.toNat := UInt64.lt_iff_toNat_lt.mp hleft
      have hcount := h.count hdvd
      apply Prod.Lex.left
      rw [spawn_length]
      omega
  | leave hmain _ | join hmain _ | clear hmain | joinLeft hmain _ | done hmain =>
      apply Prod.Lex.right
      apply Prod.Lex.right
      simp [Sys.joinWork, hmain]

theorem not_endless_of_dvd (hsize : job.content.length < 2 ^ 64)
    (hdvd : 16384 ∣ job.content.length) : ¬ Endless job.AnyStep job.start := by
  apply not_endless rankLt_wf (I := Orderly job)
    (m := fun s => s.rank (job.content.length / 16384)) (.start hsize)
  intro a e b h hs
  rcases h.step_cases hs with ⟨_, hmain⟩ | ⟨_, i, old, ph, hgoes⟩
  · exact ⟨h.step hs, h.main_rank_lt hdvd (nextMain_iff.mp hmain)⟩
  · exact ⟨h.step hs, hgoes.rank_lt⟩

/-- The counter never is zero when the chunks do not add up to the file. -/
theorem Orderly.not_spawned (h : Orderly job s) (hdvd : ¬ 16384 ∣ job.content.length) :
    ¬ s.spawned := by
  intro hspawned
  have := h.left
  rw [h.spawned hspawned] at this
  omega

theorem endless_of_not_dvd (hsize : job.content.length < 2 ^ 64)
    (hdvd : ¬ 16384 ∣ job.content.length) : Endless job.AnyStep job.start := by
  apply endless_of_progress (I := Orderly job) (.start hsize)
  intro a h
  have hret : a.main ≠ .returned := by
    intro hmain
    apply h.not_spawned hdvd
    rw [Sys.spawned, hmain]
    trivial
  obtain ⟨e, b, hs⟩ := h.enabled hret
  exact ⟨e, b, hs, h.step hs⟩

theorem Orderly.length_of_returned (h : Orderly job s) (hdvd : 16384 ∣ job.content.length)
    (hret : s.main = .returned) : s.threads.length * 16384 = job.content.length := by
  have hspawned : s.spawned := by
    rw [Sys.spawned, hret]
    trivial
  have hcount := h.count hdvd
  rw [h.spawned hspawned] at hcount
  omega

theorem Orderly.total (h : Orderly job s) :
    (s.threads.map fun th => th.size.toInt).sum = s.threads.length * 16384 := by
  have hsizes : s.threads.map (fun th => th.size.toInt) = List.replicate s.threads.length 16384 := by
    rw [← List.map_const']
    apply List.map_congr_left
    intro th hth
    rw [h.size th hth]
    rfl
  rw [hsizes]
  simp

end End

/-- **The chunk loop** ends and covers the file exactly when `CHUNK_SIZE`
divides the size of the file. -/
theorem chunk_loop_iff {job : Job} (hsize : job.content.length < 2 ^ 64) :
    Covers job ↔ 16384 ∣ job.content.length := by
  constructor
  · intro hcovers
    by_contra hdvd
    exact hcovers.ends (endless_of_not_dvd hsize hdvd)
  · intro hdvd
    constructor
    case ends => exact not_endless_of_dvd hsize hdvd
    case returns =>
      intro tr s hrun hstuck
      by_contra hret
      obtain ⟨e, b, hs⟩ := (orderly_of_run hsize hrun).enabled hret
      exact hstuck e b hs
    case count =>
      intro tr s hrun hret
      have hlen := (orderly_of_run hsize hrun).length_of_returned hdvd hret
      rw [rounds_of_run hsize hrun, List.length_map]
      omega
    case sizes =>
      intro tr s hrun th hth
      rw [(orderly_of_run hsize hrun).size th hth]
      decide
    case total =>
      intro tr s hrun hret
      have h := orderly_of_run hsize hrun
      rw [h.total, ← h.length_of_returned hdvd hret]
      rfl
    case joined =>
      intro tr s hrun hret
      have hjoins := joins_of_run hsize hrun
      rw [Sys.unjoined, hret, List.append_nil] at hjoins
      rw [hjoins]

/-- A file of `n` bytes. -/
def fileOf (n : Nat) : Job := ⟨List.replicate n 97, [98], []⟩

theorem fileOf_length (n : Nat) : (fileOf n).content.length = n := List.length_replicate ..

/-- A file of `FILE_SIZE_LIMIT` bytes is covered. -/
theorem chunk_loop_limit : Covers (fileOf (512 * 1024 * 1024)) := by
  have hlen := fileOf_length (512 * 1024 * 1024)
  refine (chunk_loop_iff ?_).mpr ?_
  · rw [hlen]
    decide
  · rw [hlen]
    decide

/-- For one byte more the loop goes on for ever. -/
theorem chunk_loop_one_more : ¬ Covers (fileOf (512 * 1024 * 1024 + 1)) := by
  have hlen := fileOf_length (512 * 1024 * 1024 + 1)
  intro hcovers
  apply hcovers.ends
  apply endless_of_not_dvd
  · rw [hlen]
    decide
  · rw [hlen]
    decide

end Challenges.FindString

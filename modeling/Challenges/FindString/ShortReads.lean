import Challenges.FindString.ChunkLoop

/-!
# ShortReads — the large-file path, whatever `readsome` returns

A `readsome` may return less than it was asked for, and nothing waits for the
rest. The threads still share the file out among them: what they read, one
after another, is the file from its beginning on, and no byte is read twice.
Each thread prints the lines of what it has read itself, in one piece. How far
they get is another matter: that is up to `readsome`.

At no time is there work for more than one pool of threads: a pool is joined
before the next one is started, and it has one thread more than `THREAD_LIMIT`.
-/

namespace Challenges.FindString

open Challenges.Lib

/-! ## What the threads have read -/

/-- One `readsome`: the thread, the position of `stream`, and what it returned. -/
structure Read where
  thread : Nat
  off : Nat
  len : Nat
  deriving DecidableEq, Repr

/-- The `readsome` of a step. -/
def readsOf (a : Sys) (e : Event) (_ : Sys) : List Read :=
  match e with
  | .read i k => [⟨i, a.stream, k⟩]
  | _ => []

namespace Job

variable (job : Job)

/-- The bytes of a `readsome`. -/
def bytes (r : Read) : Bytes := (job.content.drop r.off).take r.len

/-- The chunk that a thread searches: the rest of it is zero. -/
def piece (r : Read) : Bytes := job.bytes r ++ List.replicate (16384 - r.len) 0

/-- What the thread prints. -/
def pieceLines (r : Read) : List Piece :=
  let chunk := (job.piece r).set 16383 0
  formatOutput ((positions job.target chunk 0).map (matchAt chunk job.target job.path)) job.target

theorem search_piece {r : Read} (hlen : (job.piece r).length = 16384) :
    job.search (job.piece r) 16384 = .ok (job.pieceLines r) := by
  have hlast : (16384 - 1 : Int64).toNatClampNeg = 16383 := by decide
  have hset : ((job.piece r).set 16383 0).length < 2 ^ 31 - 1 := by
    rw [List.length_set, hlen]
    decide
  rw [search, if_neg (by decide), hlast, processChunk_eq (by omega) fun _ => hset]
  rfl

end Job

/-- The threads share the file out: they have read it from its beginning on. -/
structure Shares (job : Job) (reads : List Read) : Prop where
  /-- no thread has read twice -/
  nodup : (reads.map Read.thread).Nodup
  len : ∀ r ∈ reads, r.len ≤ 16384
  /-- each `readsome` goes on where the one before has stopped -/
  off : ∀ (b : Nat) r, reads[b]? = some r → r.off = ((reads.take b).map Read.len).sum
  /-- and so the first bytes of the file have been read, each of them once -/
  all : reads.flatMap job.bytes = job.content.take (reads.map Read.len).sum
  fits : (reads.map Read.len).sum ≤ job.content.length

/-! ## Who is in a list -/

/-- The list has one entry for each thread that has come as far as `far`. -/
structure Logged (s : Sys) (l : List Read) (far : Phase → Bool) : Prop where
  nodup : (l.map Read.thread).Nodup
  who : ∀ i, (∃ r ∈ l, r.thread = i) ↔ ∃ ph, s.phase i = some ph ∧ far ph

section Logged

variable {s s' : Sys} {i : Nat} {l : List Read} {far : Phase → Bool} {old ph : Phase}

theorem phase_goto_iff (hold : s.phase i = some old)
    (hthreads : s'.threads = (s.goto i ph).threads) {j : Nat} {ph' : Phase} :
    s'.phase j = some ph' ↔ (j = i ∧ ph' = ph) ∨ (j ≠ i ∧ s.phase j = some ph') := by
  have hphase : s'.phase j = (s.goto i ph).phase j := by rw [Sys.phase, Sys.phase, hthreads]
  rw [hphase]
  by_cases hj : j = i
  · rw [hj, goto_phase_self hold]
    simp [eq_comm]
  · rw [goto_phase_ne hj]
    simp [hj]

/-- The thread that moves has come as far as before. -/
theorem Logged.keep (h : Logged s l far) (hold : s.phase i = some old)
    (hthreads : s'.threads = (s.goto i ph).threads) (hfar : far ph = far old) :
    Logged s' l far := by
  refine ⟨h.nodup, fun j => (h.who j).trans ?_⟩
  simp only [phase_goto_iff hold hthreads]
  by_cases hj : j = i
  · subst hj
    simp [hold, hfar]
  · simp [hj]

/-- The thread that moves comes as far, and is entered. -/
theorem Logged.enter {r : Read} (h : Logged s l far) (hold : s.phase i = some old)
    (hthreads : s'.threads = (s.goto i ph).threads) (hnot : far old = false)
    (hfar : far ph = true) (hr : r.thread = i) : Logged s' (l ++ [r]) far := by
  have hnew : ¬ ∃ q ∈ l, q.thread = i := by
    rw [h.who i, hold]
    simp [hnot]
  constructor
  case nodup =>
    rw [List.map_append, List.map_singleton]
    refine h.nodup.append (List.nodup_singleton _) ?_
    rw [List.disjoint_singleton, List.mem_map, hr]
    exact hnew
  case who =>
    intro j
    simp only [List.mem_append, List.mem_singleton, or_and_right, exists_or, exists_eq_left,
      h.who j, phase_goto_iff hold hthreads, hr]
    by_cases hj : j = i
    · subst hj
      simp [hfar]
    · simp [hj, Ne.symm hj]

theorem Logged.spawn (h : Logged s l far) (hwaiting : far .waiting = false) :
    Logged (Job.spawn s) l far :=
  ⟨h.nodup, fun i => (h.who i).trans (spawn_holds_iff hwaiting).symm⟩

theorem Logged.mem_of_mem {l' : List Read} (h : Logged s l far) (hsub : ∀ r ∈ l', r ∈ l)
    (hsame : Logged s l' far) {r : Read} (hr : r ∈ l) : r ∈ l' := by
  obtain ⟨q, hq, hthread⟩ := (hsame.who r.thread).mpr ((h.who r.thread).mp ⟨r, hr, rfl⟩)
  have heq : q = r := List.inj_on_of_nodup_map h.nodup (hsub q hq) hr hthread
  exact heq ▸ hq

end Logged

/-! ## The invariant -/

/-- The phase carries the data of what the thread has read. -/
def Phase.Has (job : Job) (reads : List Read) (pending : List Piece) (i : Nat) : Phase → Prop
  | .filled chunk | .searching chunk => ∃ r ∈ reads, r.thread = i ∧ chunk = job.piece r
  | .found out => ∃ r ∈ reads, r.thread = i ∧ out = job.pieceLines r
  | .printing out => out = pending
  | _ => True

/-- The file is shared out, and what is printed are the lines of the pieces. -/
structure Split (job : Job) (reads printed : List Read) (pending : List Piece) (s : Sys) :
    Prop where
  shares : Shares job reads
  stream : s.stream = (reads.map Read.len).sum
  read : Logged s reads Phase.hasRead
  print : Logged s printed Phase.hasPrinted
  sub : ∀ r ∈ printed, r ∈ reads
  has : ∀ i ph, s.phase i = some ph → ph.Has job reads pending i
  text : s.stdout ++ pending = job.start.stdout ++ printed.flatMap job.pieceLines
  idle : s.formatMutex = none → pending = []

theorem Split.start (job : Job) : Split job [] [] [] job.start where
  shares := ⟨.nil, by simp, by simp, by simp, by simp⟩
  stream := rfl
  read := ⟨.nil, by simp [Sys.phase, Job.start]⟩
  print := ⟨.nil, by simp [Sys.phase, Job.start]⟩
  sub := by simp
  has := by simp [Sys.phase, Job.start]
  text := rfl
  idle := fun _ => rfl

section Step

variable {job : Job} {reads reads' printed printed' : List Read} {pending pending' : List Piece}
  {s s' : Sys} {i k : Nat} {old ph : Phase} {th : Thread}

theorem Phase.Has.frame {j : Nat} (h : ph.Has job reads pending j)
    (hsub : ∀ r ∈ reads, r ∈ reads') (hpending : ph.holdsFormat → pending' = pending) :
    ph.Has job reads' pending' j := by
  cases ph with
  | waiting | reading | finished => trivial
  | filled chunk | searching chunk | found out =>
      obtain ⟨r, hr, hdata⟩ := h
      exact ⟨r, hsub r hr, hdata⟩
  | printing out =>
      rw [Phase.Has] at h ⊢
      rw [h, hpending rfl]

/-- Thread `i` moves on to `ph`; what the others carry is framed. -/
theorem Split.has_goto (h : Split job reads printed pending s) (hold : s.phase i = some old)
    (hthreads : s'.threads = (s.goto i ph).threads) (hsub : ∀ r ∈ reads, r ∈ reads')
    (hpending : ∀ j ≠ i, ∀ ph', s.phase j = some ph' → ph'.holdsFormat → pending' = pending)
    (hhas : ph.Has job reads' pending' i) :
    ∀ j ph', s'.phase j = some ph' → ph'.Has job reads' pending' j := by
  intro j ph' hph'
  rcases (phase_goto_iff hold hthreads).mp hph' with ⟨rfl, rfl⟩ | ⟨hj, hph'⟩
  · exact hhas
  · exact (h.has j ph' hph').frame hsub (hpending j hj ph' hph')

/-- A step that reads and prints nothing. -/
theorem Split.quiet (h : Split job reads printed pending s) (hold : s.phase i = some old)
    (hthreads : s'.threads = (s.goto i ph).threads) (hread : ph.hasRead = old.hasRead)
    (hprint : ph.hasPrinted = old.hasPrinted) (hhas : ph.Has job reads pending i)
    (hstream : s'.stream = s.stream) (hstdout : s'.stdout = s.stdout)
    (hidle : s'.formatMutex = none → pending = []) : Split job reads printed pending s' where
  shares := h.shares
  stream := hstream.trans h.stream
  read := h.read.keep hold hthreads hread
  print := h.print.keep hold hthreads hprint
  sub := h.sub
  has := h.has_goto hold hthreads (fun _ hr => hr) (fun _ _ _ _ _ => rfl) hhas
  text := hstdout ▸ h.text
  idle := hidle

/-- The thread that gets `format_mutex` is entered, and has its lines to print. -/
theorem Split.lock_format {out : List Piece} (h : Split job reads printed pending s)
    (ho : Orderly job s) (hold : s.phase i = some (.found out)) (hfree : s.formatMutex = none) :
    ∃ r, Split job reads (printed ++ [r]) out
      { s.goto i (.printing out) with formatMutex := some i } := by
  obtain ⟨r, hr, hthread, hout⟩ := h.has i _ hold
  refine ⟨r, h.shares, h.stream, h.read.keep hold rfl rfl,
    h.print.enter hold rfl rfl rfl hthread, ?_, ?_, ?_, ?_⟩
  · intro q hq
    rcases List.mem_append.mp hq with hq | hq
    · exact h.sub q hq
    · rwa [List.mem_singleton.mp hq]
  · apply h.has_goto hold rfl fun _ hr => hr
    · intro j _ ph' hph' hholds
      have hheld := (ho.format_iff hph').mpr hholds
      rw [hfree] at hheld
      cases hheld
    · rfl
  · have htext := h.text
    rw [h.idle hfree, List.append_nil] at htext
    show s.stdout ++ out = _
    rw [htext, List.flatMap_append, List.flatMap_singleton, ← hout, List.append_assoc]
  · intro hnone
    cases hnone

theorem Split.print_piece {p : Piece} {rest : List Piece} (h : Split job reads printed pending s)
    (ho : Orderly job s) (hold : s.phase i = some (.printing (p :: rest))) :
    Split job reads printed rest { s.goto i (.printing rest) with stdout := s.stdout ++ [p] } := by
  have hpending : p :: rest = pending := h.has i _ hold
  have hheld : s.formatMutex = some i := (ho.format_iff hold).mpr rfl
  refine ⟨h.shares, h.stream, h.read.keep hold rfl rfl, h.print.keep hold rfl rfl, h.sub, ?_, ?_, ?_⟩
  · apply h.has_goto hold rfl fun _ hr => hr
    · intro j hj ph' hph' hholds
      have hheld' := (ho.format_iff hph').mpr hholds
      rw [hheld] at hheld'
      exact absurd (Option.some.inj hheld').symm hj
    · rfl
  · show (s.stdout ++ [p]) ++ rest = _
    rw [List.append_assoc, List.singleton_append, hpending, h.text]
  · intro hnone
    rw [show s.formatMutex = none from hnone] at hheld
    cases hheld

theorem Split.nextThread (h : Split job reads printed pending s) (ho : Orderly job s)
    (hth : s.threads[i]? = some th) (hs : job.nextThread s i th = some s') :
    ∃ printed' pending', Split job reads printed' pending' s' := by
  have hph := phase_of_thread hth
  cases nextThread_iff.mp hs with
  | skip _ hneg =>
      rw [ho.size_of_thread hth] at hneg
      exact absurd hneg (by decide)
  | lock hphase _ _ =>
      rw [hphase] at hph
      exact ⟨_, _, h.quiet hph rfl rfl rfl trivial rfl rfl h.idle⟩
  | @unlock chunk hphase =>
      rw [hphase] at hph
      have hhas : (Phase.searching chunk).Has job reads pending i := h.has i (.filled chunk) hph
      exact ⟨_, _, h.quiet hph rfl rfl rfl hhas rfl rfl h.idle⟩
  | @search chunk out hphase hout =>
      rw [hphase] at hph
      obtain ⟨r, hr, hthread, hchunk⟩ := h.has i _ hph
      have hfull : chunk.length = 16384 := ho.full i _ hph
      rw [ho.size_of_thread hth, hchunk, job.search_piece (hchunk ▸ hfull)] at hout
      refine ⟨_, _, h.quiet hph rfl rfl rfl ⟨r, hr, hthread, ?_⟩ rfl rfl h.idle⟩
      exact (Except.ok.inj hout).symm
  | lockFormat hphase hfree =>
      rw [hphase] at hph
      obtain ⟨r, h'⟩ := h.lock_format ho hph hfree
      exact ⟨_, _, h'⟩
  | print hphase =>
      rw [hphase] at hph
      exact ⟨_, _, h.print_piece ho hph⟩
  | unlockFormat hphase =>
      rw [hphase] at hph
      have hpending : [] = pending := h.has i _ hph
      exact ⟨_, _, h.quiet hph rfl rfl rfl trivial rfl rfl fun _ => hpending.symm⟩

/-- The thread reads on where the one before has stopped. -/
theorem Shares.snoc (h : Shares job reads) (hk : k ≤ 16384)
    (hfit : (reads.map Read.len).sum + k ≤ job.content.length)
    (hnew : ∀ r ∈ reads, r.thread ≠ i) :
    Shares job (reads ++ [Read.mk i (reads.map Read.len).sum k]) := by
  have hsum : ((reads ++ [Read.mk i (reads.map Read.len).sum k]).map Read.len).sum
      = (reads.map Read.len).sum + k := by
    rw [List.map_append, List.sum_append]
    rfl
  constructor
  case nodup =>
    rw [List.map_append, List.map_singleton]
    refine h.nodup.append (List.nodup_singleton _) ?_
    rw [List.disjoint_singleton, List.mem_map]
    intro hmem
    obtain ⟨r, hr, hthread⟩ := hmem
    exact hnew r hr hthread
  case len =>
    intro r hr
    rcases List.mem_append.mp hr with hr | hr
    · exact h.len r hr
    · rw [List.mem_singleton.mp hr]
      exact hk
  case off =>
    intro b r hr
    rcases Nat.lt_or_ge b reads.length with hb | hb
    · rw [List.getElem?_append_left hb] at hr
      rw [List.take_append_of_le_length (Nat.le_of_lt hb)]
      exact h.off b r hr
    · rw [List.getElem?_append_right hb] at hr
      have hzero : b - reads.length = 0 := by
        by_contra hne
        rw [List.getElem?_eq_none (by rw [List.length_singleton]; omega)] at hr
        cases hr
      rw [hzero, List.getElem?_cons_zero] at hr
      cases hr
      have hlast : b = reads.length := by omega
      rw [hlast, List.take_left]
  case all =>
    rw [List.flatMap_append, h.all, List.flatMap_singleton, hsum, Job.bytes, List.take_add]
  case fits => rw [hsum]; exact hfit

theorem Split.nextRead (h : Split job reads printed pending s) (ho : Orderly job s)
    (hth : s.threads[i]? = some th) (hs : job.nextRead s i k th = some s') :
    Split job (reads ++ [⟨i, s.stream, k⟩]) printed pending s' := by
  have hph := phase_of_thread hth
  have hclamp : th.size.toNatClampNeg = 16384 := by
    rw [ho.size_of_thread hth]
    rfl
  rw [Job.nextRead, hclamp] at hs
  split at hs
  · rename_i hcan
    obtain ⟨hphase, hk, hfit⟩ := hcan
    rw [hphase] at hph
    have hnew : ∀ r ∈ reads, r.thread ≠ i := by
      intro r hr hthread
      obtain ⟨ph, hph', hread⟩ := (h.read.who i).mp ⟨r, hr, hthread⟩
      rw [hph] at hph'
      rw [← Option.some.inj hph'] at hread
      cases hread
    have hshares := h.shares.snoc hk (h.stream ▸ hfit) hnew
    rw [← h.stream] at hshares
    cases hs
    refine ⟨hshares, ?_, h.read.enter hph rfl rfl rfl rfl, h.print.keep hph rfl rfl, ?_, ?_,
      h.text, h.idle⟩
    · rw [List.map_append, List.sum_append, ← h.stream]
      rfl
    · exact fun r hr => List.mem_append_left _ (h.sub r hr)
    · apply h.has_goto hph rfl fun r hr => List.mem_append_left _ hr
      · exact fun _ _ _ _ _ => rfl
      · exact ⟨_, List.mem_append_right _ (List.mem_singleton_self _), rfl, rfl⟩
  · cases hs

/-- `process_large_file` reads nothing itself. -/
theorem Split.nextMain (h : Split job reads printed pending s) (hs : Job.nextMain s = some s') :
    Split job reads printed pending s' := by
  cases nextMain_iff.mp hs with
  | spawn hmain hleft =>
      refine ⟨h.shares, h.stream, h.read.spawn rfl, h.print.spawn rfl, h.sub, ?_, h.text, h.idle⟩
      intro i ph hph
      rcases spawn_phase_iff.mp hph with hph | ⟨_, rfl⟩
      · exact h.has i ph hph
      · trivial
  | leave _ _ | join _ _ | clear _ | joinLeft _ _ | done _ =>
      exact ⟨h.shares, h.stream, ⟨h.read.nodup, h.read.who⟩, ⟨h.print.nodup, h.print.who⟩, h.sub,
        h.has, h.text, h.idle⟩

/-- **The step lemma.** -/
theorem Split.step {e : Event} (h : Split job reads printed pending s) (ho : Orderly job s)
    (hs : job.AnyStep s e s') :
    ∃ printed' pending', Split job (reads ++ readsOf s e s') printed' pending' s' := by
  cases e with
  | main =>
      have hsplit := h.nextMain hs
      exact ⟨printed, pending, by rwa [readsOf.eq_def, List.append_nil]⟩
  | thread i =>
      obtain ⟨th, hth, hs⟩ := Option.bind_eq_some_iff.mp hs
      obtain ⟨printed', pending', hsplit⟩ := h.nextThread ho hth hs
      exact ⟨printed', pending', by rwa [readsOf.eq_def, List.append_nil]⟩
  | read i k =>
      obtain ⟨th, hth, hs⟩ := Option.bind_eq_some_iff.mp hs
      exact ⟨_, _, h.nextRead ho hth hs⟩

/-- **The run lemma.** -/
theorem split_of_run {tr : List (Event × Sys)} (hsize : job.content.length < 2 ^ 64)
    (hrun : Run job.AnyStep job.start tr s) :
    ∃ printed pending, Split job (observed readsOf job.start tr) printed pending s := by
  induction hrun with
  | nil => exact ⟨_, _, .start job⟩
  | @snoc tr a e b hrun hs ih =>
      obtain ⟨printed, pending, h⟩ := ih
      rw [hrun.observed_snoc]
      exact h.step (orderly_of_run hsize hrun) hs

end Step

/-! ## One pool after the other -/

/-- The threads of pool `c` are the ones that are still to be joined. -/
structure Batched (s : Sys) (c : Nat) : Prop where
  joined : ∀ i < s.threads.length, i ∈ s.unjoined ∨ s.phase i = some .finished
  batch : ∀ i ∈ s.unjoined, i / (threadLimit + 1) = c
  few : s.unjoined.length ≤ threadLimit + 1
  looping : s.main = .looping →
    s.threads.length = (threadLimit + 1) * c + s.threadPool.length ∧
      s.threadPool.length ≤ threadLimit
  joining : ∀ rest, s.main = .joining rest → s.threads.length = (threadLimit + 1) * (c + 1)

theorem Batched.start (job : Job) : Batched job.start 0 where
  joined := by simp [Job.start]
  batch := by simp [Sys.unjoined, Job.start]
  few := by simp [Sys.unjoined, Job.start]
  looping := by simp [Job.start]
  joining := by simp [Job.start]

section Batch

variable {job : Job} {s s' : Sys} {i c : Nat} {old ph : Phase}

/-- A thread that moves had not finished. -/
theorem Batched.goes (h : Batched s c) (hgoes : Goes job s i old ph s') : Batched s' c := by
  have hthreads : s'.threads = (s.goto i ph).threads := by rw [hgoes.only]
  have hlen : s'.threads.length = s.threads.length := by rw [hthreads, goto_length]
  have hmain : s'.main = s.main := by rw [hgoes.only]; rfl
  have hpool : s'.threadPool = s.threadPool := by rw [hgoes.only]; rfl
  have hunjoined : s'.unjoined = s.unjoined := by rw [Sys.unjoined, Sys.unjoined, hmain, hpool]
  have hne : old ≠ .finished := by
    rintro rfl
    rcases hgoes.less with hless | ⟨_, hless⟩ <;> cases hless
  refine ⟨fun j hj => ?_, by rw [hunjoined]; exact h.batch, by rw [hunjoined]; exact h.few,
    ?_, ?_⟩
  · rw [hlen] at hj
    rw [hunjoined]
    rcases h.joined j hj with hin | hfin
    · exact .inl hin
    · have hji : j ≠ i := by
        rintro rfl
        rw [hgoes.phase] at hfin
        exact hne (Option.some.inj hfin)
      exact .inr ((phase_goto_iff hgoes.phase hthreads).mpr (.inr ⟨hji, hfin⟩))
  · rw [hmain, hlen, hpool]
    exact h.looping
  · rw [hmain, hlen]
    exact h.joining

theorem Batched.spawn (h : Batched s c) (hmain : s.main = .looping) :
    Batched (Job.spawn s) c := by
  obtain ⟨hlen, hpool⟩ := h.looping hmain
  have hunjoined := spawn_unjoined hmain
  have hold : s.unjoined = s.threadPool := by rw [Sys.unjoined, hmain]
  have hsmall : s.threadPool.length < threadLimit + 1 := Nat.lt_succ_of_le hpool
  refine ⟨fun j hj => ?_, fun j hj => ?_, ?_, fun hloop => ?_, fun rest hjoin => ?_⟩
  · rw [spawn_length] at hj
    rw [hunjoined, List.mem_append, List.mem_singleton]
    rcases Nat.lt_succ_iff_lt_or_eq.mp hj with hlt | rfl
    · rw [spawn_phase_of_lt hlt]
      exact (h.joined j hlt).imp .inl id
    · exact .inl (.inr rfl)
  · rw [hunjoined, List.mem_append, List.mem_singleton] at hj
    rcases hj with hj | rfl
    · exact h.batch j hj
    · rw [hlen, Nat.mul_add_div (Nat.succ_pos _), Nat.div_eq_of_lt hsmall, Nat.add_zero]
  · rw [hunjoined, hold, List.length_append, List.length_singleton]
    omega
  · rw [spawn_length, hlen]
    simp only [Job.spawn, List.length_append, List.length_singleton] at hloop ⊢
    split at hloop
    · cases hloop
    · omega
  · rw [spawn_length, hlen]
    simp only [Job.spawn, List.length_append, List.length_singleton] at hjoin
    split at hjoin
    · rw [Nat.mul_succ]
      omega
    · cases hjoin

theorem Batched.join {rest : List Nat} (h : Batched s c) (hunjoined : s.unjoined = i :: rest)
    (hfin : s.phase i = some .finished) :
    (∀ j < s.threads.length, j ∈ rest ∨ s.phase j = some .finished) ∧
      (∀ j ∈ rest, j / (threadLimit + 1) = c) ∧ rest.length ≤ threadLimit + 1 := by
  have hfew := h.few
  rw [hunjoined, List.length_cons] at hfew
  refine ⟨fun j hj => ?_, fun j hj => ?_, Nat.le_of_succ_le hfew⟩
  · rcases h.joined j hj with hin | hdone
    · rw [hunjoined] at hin
      rcases List.mem_cons.mp hin with rfl | hin
      · exact .inr hfin
      · exact .inl hin
    · exact .inr hdone
  · apply h.batch j
    rw [hunjoined]
    exact List.mem_cons_of_mem _ hj

/-- **The step lemma**: a pool that is joined makes room for the next. -/
theorem Batched.nextMain (h : Batched s c) (hs : Job.nextMain s = some s') :
    ∃ c', Batched s' c' := by
  cases nextMain_iff.mp hs with
  | spawn hmain _ => exact ⟨c, h.spawn hmain⟩
  | leave hmain _ =>
      have hold : s.unjoined = s.threadPool := by rw [Sys.unjoined, hmain]
      exact ⟨c, hold ▸ h.joined, hold ▸ h.batch, hold ▸ h.few, by simp, by simp⟩
  | @join i rest hmain hfin =>
      have hold : s.unjoined = i :: rest := by rw [Sys.unjoined, hmain]
      obtain ⟨hjoined, hbatch, hfew⟩ := h.join hold hfin
      exact ⟨c, hjoined, hbatch, hfew, by simp, fun _ _ => h.joining _ hmain⟩
  | clear hmain =>
      have hold : s.unjoined = [] := by rw [Sys.unjoined, hmain]
      exact ⟨c + 1, hold ▸ h.joined, by simp [Sys.unjoined], Nat.zero_le _,
        fun _ => ⟨h.joining _ hmain, Nat.zero_le _⟩, by simp⟩
  | @joinLeft i rest hmain hfin =>
      have hold : s.unjoined = i :: rest := by rw [Sys.unjoined, hmain]
      obtain ⟨hjoined, hbatch, hfew⟩ := h.join hold hfin
      exact ⟨c, hjoined, hbatch, hfew, by simp, by simp⟩
  | done hmain =>
      have hold : s.unjoined = [] := by rw [Sys.unjoined, hmain]
      have hjoined := h.joined
      rw [hold] at hjoined
      exact ⟨c, hjoined, by simp [Sys.unjoined], Nat.zero_le _, by simp, by simp⟩

theorem batched_of_run {tr : List (Event × Sys)} (hsize : job.content.length < 2 ^ 64)
    (hrun : Run job.AnyStep job.start tr s) : ∃ c, Batched s c := by
  have hstep : ∀ a e b, (Orderly job a ∧ ∃ c, Batched a c) → job.AnyStep a e b →
      Orderly job b ∧ ∃ c, Batched b c := by
    intro a e b h hs
    obtain ⟨ho, c, hb⟩ := h
    refine ⟨ho.step hs, ?_⟩
    rcases ho.step_cases hs with ⟨_, hmain⟩ | ⟨_, i, old, ph, hgoes⟩
    · exact hb.nextMain hmain
    · exact ⟨c, hb.goes hgoes⟩
  exact (hrun.invariant (I := fun a => Orderly job a ∧ ∃ c, Batched a c)
    ⟨.start hsize, 0, .start job⟩ hstep).2

end Batch

/-! ## The theorems -/

/-- The thread has been started and has not finished. -/
def Sys.Running (s : Sys) (i : Nat) : Prop := ∃ ph, s.phase i = some ph ∧ ph ≠ .finished

/-- Events that can be taken one after the other are those of a run. -/
theorem exists_run_of_next {job : Job} {events : List Event} {s t : Sys}
    (h : events.foldlM job.next s = some t) :
    ∃ tr, Run job.AnyStep s tr t ∧ labels tr = events := by
  induction events generalizing s with
  | nil =>
      cases h
      exact ⟨[], .nil, rfl⟩
  | cons e events ih =>
      rw [List.foldlM_cons, Option.bind_eq_bind, Option.bind_eq_some_iff] at h
      obtain ⟨a, hs, hrest⟩ := h
      obtain ⟨tr, hrun, hlabels⟩ := ih hrest
      exact ⟨_, hrun.cons hs, congrArg (e :: ·) hlabels⟩

/-- **The threads of one pool** are all that run at a time, one more than
`THREAD_LIMIT` of them; one of them is at `readsome`, and one prints. -/
theorem thread_limit {job : Job} {tr : List (Event × Sys)} {s : Sys}
    (hsize : job.content.length < 2 ^ 64) (hrun : Run job.AnyStep job.start tr s) :
    (∀ l : List Nat, l.Nodup → (∀ i ∈ l, s.Running i) → l.length ≤ threadLimit + 1) ∧
    (∀ i j, s.Running i → s.Running j → i / (threadLimit + 1) = j / (threadLimit + 1)) ∧
    (∀ i j ph ph', s.phase i = some ph → s.phase j = some ph' →
      ph.holdsFread → ph'.holdsFread → i = j) ∧
    ∀ i j ph ph', s.phase i = some ph → s.phase j = some ph' →
      ph.holdsFormat → ph'.holdsFormat → i = j := by
  obtain ⟨c, h⟩ := batched_of_run hsize hrun
  have ho := orderly_of_run hsize hrun
  have hrunning (i : Nat) (hi : s.Running i) : i ∈ s.unjoined := by
    obtain ⟨ph, hph, hne⟩ := hi
    rcases h.joined i (phase_lt hph) with hin | hfin
    · exact hin
    · rw [hph] at hfin
      exact absurd (Option.some.inj hfin) hne
  refine ⟨fun l hnodup hl => ?_, fun i j hi hj => ?_, fun i j ph ph' hi hj hread hread' => ?_,
    fun i j ph ph' hi hj hprint hprint' => ?_⟩
  · exact ((hnodup.subperm fun i hi => hrunning i (hl i hi)).length_le).trans h.few
  · rw [h.batch i (hrunning i hi), h.batch j (hrunning j hj)]
  · have hheld := (ho.fread_iff hi).mpr hread
    rw [(ho.fread_iff hj).mpr hread'] at hheld
    exact (Option.some.inj hheld).symm
  · have hheld := (ho.format_iff hi).mpr hprint
    rw [(ho.format_iff hj).mpr hprint'] at hheld
    exact (Option.some.inj hheld).symm

/-- A file of five bytes. -/
def fiveBytes : Job where
  content := ascii "abcab"
  target := ascii "ab"
  path := ascii "f"

theorem thread_limit_two : ∃ tr s, Run fiveBytes.AnyStep fiveBytes.start tr s ∧
    s.Running 0 ∧ s.Running 1 ∧
    ∀ l : List Nat, l.Nodup → (∀ i ∈ l, s.Running i) → l.length ≤ threadLimit + 1 := by
  have hplay : ([Event.main, .main, .thread 1].foldlM fiveBytes.next fiveBytes.start).map
      (fun s => (s.phase 0, s.phase 1)) = some (some .waiting, some .reading) := by decide +kernel
  obtain ⟨s, hs, hphases⟩ := Option.map_eq_some_iff.mp hplay
  obtain ⟨hzero, hone⟩ := Prod.mk.inj hphases
  obtain ⟨tr, hrun, _⟩ := exists_run_of_next hs
  exact ⟨tr, s, hrun, ⟨_, hzero, by decide⟩, ⟨_, hone, by decide⟩,
    (thread_limit (by decide) hrun).1⟩

/-- **Short reads**: whatever the schedule and whatever `readsome` returns, the
threads share the file out, and what is printed are the lines of what each of
them has read, in one piece. When `process_large_file` has returned, each has
read once and the lines of all are printed. -/
theorem short_reads {job : Job} {tr : List (Event × Sys)} {s : Sys}
    (hsize : job.content.length < 2 ^ 64) (hrun : Run job.AnyStep job.start tr s) :
    Shares job (observed readsOf job.start tr) ∧
    ∃ (printed : List Read) (pending : List Piece), (printed.map Read.thread).Nodup ∧
      (∀ r ∈ printed, r ∈ observed readsOf job.start tr) ∧
      s.stdout ++ pending = job.start.stdout ++ printed.flatMap job.pieceLines ∧
      (s.main = .returned → pending = [] ∧
        printed.Perm (observed readsOf job.start tr) ∧
        (printed.map Read.thread).Perm (List.range s.threads.length)) := by
  obtain ⟨printed, pending, h⟩ := split_of_run hsize hrun
  obtain ⟨c, hbatch⟩ := batched_of_run hsize hrun
  have ho := orderly_of_run hsize hrun
  refine ⟨h.shares, printed, pending, h.print.nodup, h.sub, h.text, fun hret => ?_⟩
  have hfinished (i : Nat) (hi : i < s.threads.length) : s.phase i = some .finished := by
    rcases hbatch.joined i hi with hin | hfin
    · rw [Sys.unjoined, hret] at hin
      cases hin
    · exact hfin
  have hall (i : Nat) (far : Phase → Bool) (hfar : far .finished) :
      (∃ ph, s.phase i = some ph ∧ far ph) ↔ i < s.threads.length := by
    constructor
    · intro hph
      obtain ⟨ph, hph, _⟩ := hph
      exact phase_lt hph
    · intro hi
      exact ⟨_, hfinished i hi, hfar⟩
  have hthreads : (printed.map Read.thread).Perm (List.range s.threads.length) := by
    apply perm_range h.print.nodup
    intro i
    rw [List.mem_map, h.print.who i, hall i _ rfl]
  refine ⟨?_, ?_, hthreads⟩
  · -- nobody holds `format_mutex`
    apply h.idle
    cases hformat : s.formatMutex with
    | none => rfl
    | some i =>
        obtain ⟨ph, hph, hholds⟩ := (ho.format i).mp hformat
        rw [hfinished i (phase_lt hph)] at hph
        rw [← Option.some.inj hph] at hholds
        cases hholds
  · have hsame : Logged s printed Phase.hasRead :=
      ⟨h.print.nodup, fun i => by rw [h.print.who i, hall i _ rfl, hall i _ rfl]⟩
    have hnodup : printed.Nodup := h.print.nodup.of_map _
    have hnodup' : (observed readsOf job.start tr).Nodup := h.read.nodup.of_map _
    exact (List.perm_ext_iff_of_nodup hnodup hnodup').mpr fun r =>
      ⟨h.sub r, h.read.mem_of_mem h.sub hsame⟩

/-- The second thread gets three bytes, and the first one the rest. -/
theorem short_reads_two : ∃ tr s, Run fiveBytes.AnyStep fiveBytes.start tr s ∧
    labels tr = [.main, .main, .thread 1, .read 1 3, .thread 1, .thread 0, .read 0 2] ∧
    s.stream = 5 ∧ Shares fiveBytes (observed readsOf fiveBytes.start tr) := by
  have hplay : ([Event.main, .main, .thread 1, .read 1 3, .thread 1, .thread 0, .read 0 2].foldlM
      fiveBytes.next fiveBytes.start).map Sys.stream = some 5 := by decide +kernel
  obtain ⟨s, hs, hstream⟩ := Option.map_eq_some_iff.mp hplay
  obtain ⟨tr, hrun, hlabels⟩ := exists_run_of_next hs
  exact ⟨tr, s, hrun, hlabels, hstream, (short_reads (by decide) hrun).1⟩

end Challenges.FindString

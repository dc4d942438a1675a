import Challenges.FindString.ChunkLoop
import Challenges.FindString.SmallFile
import Challenges.FindString.WholeFile
import Mathlib.Data.List.Forall2

/-!
# WholeProgram — `main`, from the arguments to what has been printed

`process` chooses between the two searches, and `main` runs it on each file
that `recursive_directory_iterator` yields. The large-file path is a run of
`process_large_file`, so the output depends on the schedule; what its steps
are, with short reads or without, is a parameter. `main` returns, or dies of an
exception of `std::filesystem`, or stores a byte before a buffer, after which
the language leaves everything open (in practice it goes on); or it never comes
back from a large file. Memory and threads are always to be had.

What a file contributes is its blocks: the file itself below
`FILE_SIZE_LIMIT`, its chunks from there on. In a block every occurrence
that ends before the last byte is printed, and no other.
-/

namespace Challenges.FindString

open Challenges.Lib

/-! ## `process` -/

/-- A `directory_entry` of a file, with what the file holds. -/
structure File where
  path : Bytes
  content : Bytes
  readable : Bool
  fits : content.length < 2 ^ 64

/-- What went to the two streams. -/
structure Output where
  stdout : List Piece
  stderr : List Piece
  deriving DecidableEq, Repr

def Output.append (o o' : Output) : Output := ⟨o.stdout ++ o'.stdout, o.stderr ++ o'.stderr⟩

namespace File

variable (f : File)

def stream : Option Bytes := if f.readable then some f.content else none

/-- What is written when the stream could not be opened. -/
def complaint : List Piece :=
  if f.readable then []
  else [.bytes (ascii "could not open a file "), .bytes f.path, .bytes (ascii "\n")]

/-- The call of `process_large_file`. -/
def job (target : Bytes) : Job := ⟨f.content, target, f.path⟩

end File

/-- Ways `main` ends without returning. -/
inductive Abort where
  /-- an exception that nobody catches -/
  | uncaught
  /-- a store outside its buffer; what follows is not modelled -/
  | undefined
  deriving DecidableEq, Repr

/-- What a fault comes to; a loop without an end comes to nothing. -/
def Fault.abort : Fault → Option Abort
  | .outOfRange => some .uncaught
  | .badIndex => some .undefined
  | .diverges => none

/-- The steps of `process_large_file`: `Job.AnyStep`, or `Job.Step` when every
`readsome` returns a full chunk. -/
abbrev Steps := Job → Sys → Event → Sys → Prop

/-- `process`: the vector that is returned, and what has been printed by then. -/
inductive Process (steps : Steps) (target : Bytes) (f : File) :
    Except Abort (List MatchInfo) → Output → Prop
  | small {v : List MatchInfo} :
      size f.content < fileSizeLimit →
      processSmallFile (size f.content) f.stream target f.path = .ok v →
      Process steps target f (.ok v) ⟨[], f.complaint⟩
  | fault {e : Fault} {a : Abort} :
      size f.content < fileSizeLimit →
      processSmallFile (size f.content) f.stream target f.path = .error e → e.abort = some a →
      Process steps target f (.error a) ⟨[], f.complaint⟩
  | unopened :
      ¬ size f.content < fileSizeLimit → f.stream = none →
      Process steps target f (.ok []) ⟨(f.job target).start.stdout, f.complaint⟩
  | large {content : Bytes} {tr : List (Event × Sys)} {s : Sys} :
      ¬ size f.content < fileSizeLimit → f.stream = some content →
      Run (steps (f.job target)) (f.job target).start tr s → s.main = .returned →
      Process steps target f (.ok []) ⟨s.stdout, []⟩

/-! ## `main` -/

/-- What a path leads to. A link to a directory is a directory without entries
here, since the iterator does not follow it. -/
inductive Entry where
  | file (f : File)
  | directory (entries : List Entry)
  /-- `std::filesystem` throws: a dangling link, or what is no regular file, has
  no `file_size`, and there are directories that cannot be opened -/
  | broken

mutual

/-- What `recursive_directory_iterator` yields for an entry: the entry, and
what is below it. -/
def Entry.visit : Entry → List Entry
  | .file f => [.file f]
  | .directory entries => .directory entries :: visitAll entries
  | .broken => [.broken]

def visitAll : List Entry → List Entry
  | [] => []
  | e :: rest => e.visit ++ visitAll rest

end

/-- The loop over the entries. -/
inductive Scan (steps : Steps) (target : Bytes) :
    List Entry → Except Abort Unit → Output → Prop
  | done : Scan steps target [] (.ok ()) ⟨[], []⟩
  | skip {entries rest : List Entry} {r : Except Abort Unit} {out : Output} :
      Scan steps target rest r out → Scan steps target (.directory entries :: rest) r out
  | throw {rest : List Entry} :
      Scan steps target (.broken :: rest) (.error .uncaught) ⟨[], []⟩
  | abort {f : File} {a : Abort} {o : Output} {rest : List Entry} :
      Process steps target f (.error a) o → Scan steps target (.file f :: rest) (.error a) o
  | empty {f : File} {v : List MatchInfo} {o out : Output} {rest : List Entry}
      {r : Except Abort Unit} :
      Process steps target f (.ok v) o → v.isEmpty → Scan steps target rest r out →
      Scan steps target (.file f :: rest) r (o.append out)
  | matched {f : File} {v : List MatchInfo} {o out : Output} {rest : List Entry}
      {r : Except Abort Unit} :
      Process steps target f (.ok v) o → ¬ v.isEmpty → Scan steps target rest r out →
      Scan steps target (.file f :: rest) r ((o.append ⟨formatOutput v target, []⟩).append out)

/-- `main`: what is printed, and the exit status. `lookup` is the file
system. -/
inductive Runs (steps : Steps) (argv : List Bytes) (lookup : Bytes → Option Entry) :
    Output → Except Abort Int → Prop
  | usage : argv.length < 3 →
      Runs steps argv lookup
        ⟨[], [.bytes (ascii "usage: prog <path> <string_to_match>\n")]⟩ (.ok (-1))
  | missing {path target : Bytes} :
      argv[1]? = some path → argv[2]? = some target → lookup path = none →
      Runs steps argv lookup
        ⟨[], [.bytes (ascii "path "), .bytes path, .bytes (ascii " does not exist")]⟩ (.ok (-1))
  | throw {path target : Bytes} :
      argv[1]? = some path → argv[2]? = some target → lookup path = some .broken →
      Runs steps argv lookup ⟨[], []⟩ (.error .uncaught)
  | directory {path target : Bytes} {entries : List Entry} {r : Except Abort Unit} {out : Output} :
      argv[1]? = some path → argv[2]? = some target →
      lookup path = some (.directory entries) → Scan steps target (visitAll entries) r out →
      Runs steps argv lookup out (r.map fun _ => 0)
  | abort {path target : Bytes} {f : File} {a : Abort} {o : Output} :
      argv[1]? = some path → argv[2]? = some target → lookup path = some (.file f) →
      Process steps target { f with path := path } (.error a) o →
      Runs steps argv lookup o (.error a)
  | file {path target : Bytes} {f : File} {v : List MatchInfo} {o : Output} :
      argv[1]? = some path → argv[2]? = some target → lookup path = some (.file f) →
      Process steps target { f with path := path } (.ok v) o →
      Runs steps argv lookup (o.append ⟨formatOutput v target, []⟩) (.ok 0)

/-! ## The files of a directory -/

/-- The entry stands in one of the directories, at any depth. -/
inductive Under (e : Entry) : List Entry → Prop
  | here {entries : List Entry} : e ∈ entries → Under e entries
  | deeper {entries sub : List Entry} :
      .directory sub ∈ entries → Under e sub → Under e entries

theorem mem_visitAll {e : Entry} {entries : List Entry} :
    e ∈ visitAll entries ↔ ∃ r ∈ entries, e ∈ r.visit := by
  induction entries with
  | nil => simp [visitAll]
  | cons r rest ih => simp [visitAll, ih]

theorem Entry.mem_visit (e : Entry) : e ∈ e.visit := by
  cases e <;> simp [visit]

theorem Under.mono {e : Entry} {entries entries' : List Entry} (h : Under e entries)
    (hsub : entries ⊆ entries') : Under e entries' := by
  cases h with
  | here hmem => exact .here (hsub hmem)
  | deeper hmem h => exact .deeper (hsub hmem) h

/-- The traversal comes to what is below the directory, and to nothing else. -/
theorem under_iff {e : Entry} {entries : List Entry} :
    Under e entries ↔ e ∈ visitAll entries := by
  constructor
  · intro h
    induction h with
    | here hmem => exact mem_visitAll.mpr ⟨e, hmem, e.mem_visit⟩
    | deeper hmem _ ih =>
        refine mem_visitAll.mpr ⟨_, hmem, ?_⟩
        rw [Entry.visit]
        exact List.mem_cons_of_mem _ ih
  · intro h
    induction entries using visitAll.induct (motive_1 := fun r => e ∈ r.visit → Under e [r]) with
    | case1 g hmem =>
        rw [Entry.visit] at hmem
        exact .here hmem
    | case2 entries ih hmem =>
        rw [Entry.visit, List.mem_cons] at hmem
        rcases hmem with rfl | hmem
        · exact .here (List.mem_singleton_self _)
        · exact .deeper (List.mem_singleton_self _) (ih hmem)
    | case3 hmem =>
        rw [Entry.visit] at hmem
        exact .here hmem
    | case4 =>
        rw [visitAll] at h
        cases h
    | case5 r rest ihr ihrest =>
        rw [visitAll, List.mem_append] at h
        rcases h with h | h
        · exact (ihr h).mono (by simp)
        · exact (ihrest h).mono (by simp)

/-! ## How `process` ends -/

/-- What keeps `main` from going on to the next entry. -/
inductive Trouble where
  | abort (a : Abort)
  /-- the loop of `process_large_file` has no end -/
  | endless
  deriving DecidableEq, Repr

/-- A small file without a byte, whose last byte is overwritten; a large one that
is not made of whole chunks. -/
def File.trouble (f : File) : Option Trouble :=
  if ¬ f.readable then none
  else if f.content.length < 2 ^ 29 then
    if f.content = [] then some (.abort .undefined) else none
  else if 16384 ∣ f.content.length then none else some .endless

def Entry.trouble : Entry → Option Trouble
  | .file f => f.trouble
  | .directory _ => none
  | .broken => some (.abort .uncaught)

theorem File.small_iff (f : File) :
    size f.content < fileSizeLimit ↔ f.content.length < 2 ^ 29 := by
  rw [UInt64.lt_iff_toNat_lt, size, toNat_ofNat f.fits]
  exact Iff.rfl

/-- What is found in a block; its last byte is overwritten. -/
def matchesIn (target path block : Bytes) : List MatchInfo :=
  let chunk := block.set (block.length - 1) 0
  (positions target chunk 0).map (matchAt chunk target path)

theorem File.run_small (f : File) {target : Bytes} (hread : f.readable)
    (hlen : f.content.length < 2 ^ 29) (hne : f.content ≠ []) :
    processSmallFile (size f.content) f.stream target f.path
      = .ok (matchesIn target f.path f.content) := by
  rw [File.stream, if_pos hread, run_small_file f.path f.fits, if_neg hne]
  apply processChunk_eq <;> rw [List.length_set] <;> omega

theorem File.run_empty (f : File) {target : Bytes} (hread : f.readable) (hempty : f.content = []) :
    processSmallFile (size f.content) f.stream target f.path = .error .badIndex := by
  rw [File.stream, if_pos hread, run_small_file f.path f.fits, if_pos hempty]

theorem Orderly.dvd_of_returned {job : Job} {s : Sys} (h : Orderly job s)
    (hret : s.main = .returned) : 16384 ∣ job.content.length := by
  by_contra hdvd
  apply h.not_spawned hdvd
  rw [Sys.spawned, hret]
  trivial

/-- The steps may, but need not, have short reads. -/
structure Reads (steps : Steps) : Prop where
  full : ∀ job a e b, Job.Step job a e b → steps job a e b
  any : ∀ job a e b, steps job a e b → Job.AnyStep job a e b

section Reads

variable {steps : Steps} {job : Job} {tr : List (Event × Sys)} {s : Sys}

theorem Reads.run_any (hreads : Reads steps) (hrun : Run (steps job) job.start tr s) :
    Run job.AnyStep job.start tr s :=
  (hrun.mono (I := fun _ => True) trivial
    fun _ _ _ _ hs => ⟨hreads.any _ _ _ _ hs, trivial⟩).1

theorem Reads.run_full (hreads : Reads steps) (hrun : Run job.Step job.start tr s) :
    Run (steps job) job.start tr s :=
  (hrun.mono (I := fun _ => True) trivial
    fun _ _ _ _ hs => ⟨hreads.full _ _ _ _ hs, trivial⟩).1

theorem reads_any : Reads Job.AnyStep := ⟨fun _ _ _ _ hs => hs.1, fun _ _ _ _ hs => hs⟩

theorem reads_full : Reads Job.Step := ⟨fun _ _ _ _ hs => hs, fun _ _ _ _ hs => hs.1⟩

end Reads

/-- What an end says of the trouble. -/
def troubleOf {α : Type} : Except Abort α → Option Trouble
  | .ok _ => none
  | .error a => some (.abort a)

variable {steps : Steps} {target : Bytes} {f : File}

theorem process_trouble (hreads : Reads steps) {r : Except Abort (List MatchInfo)} {o : Output}
    (h : Process steps target f r o) : f.trouble = troubleOf r := by
  cases hread : f.readable with
  | false =>
      have hstream : f.stream = none := by simp [File.stream, hread]
      rw [File.trouble, if_pos (by simp [hread])]
      cases h with
      | small | unopened | large => rfl
      | fault _ hrun _ =>
          rw [hstream] at hrun
          cases hrun
  | true =>
      rw [File.trouble, if_neg (by simp [hread])]
      cases h with
      | small hsmall hrun =>
          rw [if_pos (f.small_iff.mp hsmall)]
          split
          · rename_i hempty
            rw [f.run_empty hread hempty] at hrun
            cases hrun
          · rfl
      | fault hsmall hrun habort =>
          have hlen := f.small_iff.mp hsmall
          rw [if_pos hlen]
          split
          · rename_i hempty
            rw [f.run_empty hread hempty] at hrun
            cases hrun
            cases habort
            rfl
          · rename_i hne
            rw [f.run_small hread hlen hne] at hrun
            cases hrun
      | unopened _ hstream =>
          rw [File.stream, if_pos hread] at hstream
          cases hstream
      | @large _ tr s hlarge _ hrun hret =>
          have hdvd : 16384 ∣ f.content.length :=
            (orderly_of_run f.fits (hreads.run_any hrun)).dvd_of_returned hret
          rw [if_neg (mt f.small_iff.mpr hlarge), if_pos hdvd]
          rfl

theorem exists_process (hreads : Reads steps) (h : f.trouble ≠ some .endless) :
    ∃ r o, Process steps target f r o := by
  cases hread : f.readable with
  | false =>
      have hstream : f.stream = none := by simp [File.stream, hread]
      by_cases hsmall : size f.content < fileSizeLimit
      · exact ⟨.ok [], _, .small hsmall (by rw [hstream]; rfl)⟩
      · exact ⟨_, _, .unopened hsmall hstream⟩
  | true =>
      have hstream : f.stream = some f.content := by simp [File.stream, hread]
      by_cases hsmall : size f.content < fileSizeLimit
      · by_cases hempty : f.content = []
        · exact ⟨_, _, .fault hsmall (f.run_empty hread hempty) rfl⟩
        · exact ⟨_, _, .small hsmall (f.run_small hread (f.small_iff.mp hsmall) hempty)⟩
      · have hdvd : 16384 ∣ f.content.length := by
          by_contra hdvd
          apply h
          rw [File.trouble, if_neg (by simp [hread]), if_neg (mt f.small_iff.mpr hsmall),
            if_neg hdvd]
        obtain ⟨m, hm⟩ := hdvd
        have hwhole : (f.job target).Whole m := ⟨hm.trans (Nat.mul_comm ..), f.fits⟩
        obtain ⟨tr, s, hrun, hret⟩ := exists_complete hwhole
        exact ⟨_, _, .large hsmall hstream (hreads.run_full hrun) hret⟩

/-! ## How `main` ends -/

theorem scan_trouble (hreads : Reads steps) {entries : List Entry} {r : Except Abort Unit}
    {out : Output} (h : Scan steps target entries r out) :
    entries.findSome? Entry.trouble = troubleOf r := by
  induction h with
  | done => rfl
  | skip _ ih => exact ih
  | throw => rfl
  | abort hf =>
      have hfile := process_trouble hreads hf
      simp only [List.findSome?_cons, Entry.trouble, hfile]
      rfl
  | empty hf _ _ ih | matched hf _ _ ih =>
      have hfile := process_trouble hreads hf
      simp only [List.findSome?_cons, Entry.trouble, hfile, ih]
      rfl

theorem exists_scan (hreads : Reads steps) {entries : List Entry}
    (h : entries.findSome? Entry.trouble ≠ some .endless) :
    ∃ r out, Scan steps target entries r out := by
  induction entries with
  | nil => exact ⟨_, _, .done⟩
  | cons e rest ih =>
      cases e with
      | directory sub =>
          obtain ⟨r, out, hrest⟩ := ih h
          exact ⟨r, out, .skip hrest⟩
      | broken => exact ⟨_, _, .throw⟩
      | file f =>
          rw [List.findSome?_cons] at h
          have hfile : f.trouble ≠ some .endless := by
            intro hendless
            rw [Entry.trouble, hendless] at h
            exact h rfl
          have hproc : ∃ r o, Process steps target f r o := exists_process hreads hfile
          obtain ⟨r, o, hf⟩ := hproc
          cases r with
          | error a => exact ⟨_, _, .abort hf⟩
          | ok v =>
              have hnone := process_trouble hreads hf
              rw [Entry.trouble, hnone] at h
              obtain ⟨r, out, hrest⟩ := ih h
              by_cases hv : v.isEmpty
              · exact ⟨_, _, .empty hf hv hrest⟩
              · exact ⟨_, _, .matched hf hv hrest⟩

/-- The entries that `main` comes to, the entry found at `path`. -/
def Entry.reached (path : Bytes) : Entry → List Entry
  | .file f => [.file { f with path := path }]
  | .directory entries => visitAll entries
  | .broken => [.broken]

/-- The first trouble that `main` meets. -/
def firstTrouble (argv : List Bytes) (lookup : Bytes → Option Entry) : Option Trouble :=
  match argv[1]?, argv[2]? with
  | some path, some _ =>
      (lookup path).elim none fun e => (e.reached path).findSome? Entry.trouble
  | _, _ => none

section Main

variable {argv : List Bytes} {lookup : Bytes → Option Entry} {path : Bytes} {e : Entry}

theorem firstTrouble_eq {target : Bytes} (hpath : argv[1]? = some path)
    (htarget : argv[2]? = some target) : firstTrouble argv lookup
      = (lookup path).elim none fun e => (e.reached path).findSome? Entry.trouble := by
  rw [firstTrouble, hpath, htarget]

theorem firstTrouble_usage (hargc : argv.length < 3) : firstTrouble argv lookup = none := by
  have htarget : argv[2]? = none := List.getElem?_eq_none (by omega)
  rw [firstTrouble, htarget]
  split
  · rename_i heq
    cases heq
  · rfl

theorem runs_trouble (hreads : Reads steps) {out : Output} {r : Except Abort Int}
    (h : Runs steps argv lookup out r) : firstTrouble argv lookup = troubleOf r := by
  cases h with
  | usage hargc => exact firstTrouble_usage hargc
  | missing hpath htarget hnone =>
      rw [firstTrouble_eq hpath htarget, hnone]
      rfl
  | throw hpath htarget hbroken =>
      rw [firstTrouble_eq hpath htarget, hbroken]
      rfl
  | @directory _ _ _ r _ hpath htarget hdir hscan =>
      rw [firstTrouble_eq hpath htarget, hdir]
      refine (scan_trouble hreads hscan).trans ?_
      cases r <;> rfl
  | abort hpath htarget hfile hf | file hpath htarget hfile hf =>
      have htrouble := process_trouble hreads hf
      rw [firstTrouble_eq hpath htarget, hfile]
      simp only [Option.elim, Entry.reached, List.findSome?_cons, Entry.trouble, htrouble]
      rfl

theorem exists_runs (hreads : Reads steps) (h : firstTrouble argv lookup ≠ some .endless) :
    ∃ out r, Runs steps argv lookup out r := by
  by_cases hargc : argv.length < 3
  · exact ⟨_, _, .usage hargc⟩
  · have hpath : argv[1]? = some argv[1] := List.getElem?_eq_getElem (by omega)
    have htarget : argv[2]? = some argv[2] := List.getElem?_eq_getElem (by omega)
    rw [firstTrouble_eq hpath htarget] at h
    cases he : lookup argv[1] with
    | none => exact ⟨_, _, .missing hpath htarget he⟩
    | some e =>
        rw [he] at h
        cases e with
        | broken => exact ⟨_, _, .throw hpath htarget he⟩
        | directory entries =>
            have hscan : ∃ r out, Scan steps argv[2] (visitAll entries) r out :=
              exists_scan hreads h
            obtain ⟨r, out, hscan⟩ := hscan
            exact ⟨_, _, .directory hpath htarget he hscan⟩
        | file f =>
            have hfile : ({ f with path := argv[1] } : File).trouble ≠ some .endless := by
              intro hendless
              simp [Entry.reached, Entry.trouble, hendless] at h
            have hproc : ∃ r o, Process steps argv[2] { f with path := argv[1] } r o :=
              exists_process hreads hfile
            obtain ⟨r, o, hf⟩ := hproc
            cases r with
            | error a => exact ⟨_, _, .abort hpath htarget he hf⟩
            | ok v => exact ⟨_, _, .file hpath htarget he hf⟩

theorem reached_trouble_iff :
    (e.reached path).findSome? Entry.trouble = none ↔ ∀ d, Under d [e] → d.trouble = none := by
  simp only [under_iff, List.findSome?_eq_none_iff]
  cases e with
  | broken => simp [Entry.reached, visitAll, Entry.visit]
  | file f =>
      simp [Entry.reached, visitAll, Entry.visit, Entry.trouble, File.trouble]
  | directory entries => simp [Entry.reached, visitAll, Entry.visit, Entry.trouble]

/-- **How `main` ends**: it returns, with all that it did defined, exactly when
nothing below the path makes trouble, and otherwise the first trouble in the
order of the traversal decides: it comes to that abort, and does not end when it
comes to a large file that is not made of whole chunks. -/
theorem main_returns_iff (hreads : Reads steps) :
    ((∃ out code, Runs steps argv lookup out (.ok code)) ↔
      ∀ path target, argv[1]? = some path → argv[2]? = some target →
        ∀ e, lookup path = some e → ∀ d, Under d [e] → d.trouble = none) ∧
    ((∃ out code, Runs steps argv lookup out (.ok code)) ↔ firstTrouble argv lookup = none) ∧
    ∀ a, (∃ out, Runs steps argv lookup out (.error a)) ↔
      firstTrouble argv lookup = some (.abort a) := by
  have hreturns : (∃ out code, Runs steps argv lookup out (.ok code)) ↔
      firstTrouble argv lookup = none := by
    constructor
    · intro h
      obtain ⟨out, code, h⟩ := h
      exact runs_trouble hreads h
    · intro hnone
      obtain ⟨out, r, h⟩ := exists_runs hreads (by rw [hnone]; simp)
      have htrouble := runs_trouble hreads h
      cases r with
      | ok code => exact ⟨out, code, h⟩
      | error a =>
          rw [hnone] at htrouble
          cases htrouble
  refine ⟨hreturns.trans ?_, hreturns, fun a => ?_⟩
  · constructor
    · intro hnone path target hpath htarget e he
      rw [firstTrouble_eq hpath htarget, he] at hnone
      exact reached_trouble_iff.mp hnone
    · intro h
      by_cases hargc : argv.length < 3
      · exact firstTrouble_usage hargc
      · have hpath : argv[1]? = some argv[1] := List.getElem?_eq_getElem (by omega)
        have htarget : argv[2]? = some argv[2] := List.getElem?_eq_getElem (by omega)
        rw [firstTrouble_eq hpath htarget]
        cases he : lookup argv[1] with
        | none => rfl
        | some e => exact reached_trouble_iff.mpr (h _ _ hpath htarget e he)
  · constructor
    · intro h
      obtain ⟨out, h⟩ := h
      exact runs_trouble hreads h
    · intro hsome
      obtain ⟨out, r, h⟩ := exists_runs hreads (by rw [hsome]; simp)
      have htrouble := runs_trouble hreads h
      rw [hsome] at htrouble
      cases r with
      | ok code => cases htrouble
      | error a' =>
          cases htrouble
          exact ⟨out, h⟩

end Main

def firstFile : File := ⟨ascii "d/a", ascii "one two\n", true, by decide⟩

def secondFile : File := ⟨ascii "d/s/b", ascii "two", false, by decide⟩

/-- A file with a match, and in a directory beside it one that cannot be opened. -/
def twoFiles : List Entry := [.file firstFile, .directory [.file secondFile]]

def emptyFile : File := ⟨ascii "d/e", [], true, by decide⟩

/-- The empty file comes before the dangling link. -/
theorem main_returns_iff_empty :
    (∃ out, Runs Job.AnyStep [ascii "prog", ascii "d", ascii "two"]
      (fun _ => some (.directory [.directory twoFiles, .file emptyFile, .broken])) out
        (.error .undefined)) ∧
    (∃ out, Runs Job.AnyStep [ascii "prog", ascii "d", ascii "two"]
      (fun _ => some (.directory [.directory twoFiles, .broken, .file emptyFile])) out
        (.error .uncaught)) ∧
    ∃ out code, Runs Job.AnyStep [ascii "prog", ascii "d", ascii "two"]
      (fun _ => some (.directory twoFiles)) out (.ok code) :=
  ⟨((main_returns_iff reads_any).2.2 .undefined).mpr (by decide),
    ((main_returns_iff reads_any).2.2 .uncaught).mpr (by decide),
    (main_returns_iff reads_any).2.1.mpr (by decide)⟩

/-! ## What is printed -/

/-- The positions of the target in a block that end before its last byte. -/
def inside (target block : Bytes) : List Nat :=
  (positions target block 0).filter fun p => p + target.length < block.length

theorem matchesIn_eq {path block : Bytes} (hblock : block ≠ []) (hne : target ≠ [])
    (hnul : 0 ∉ target) : matchesIn target path block =
      (inside target block).map (matchAt (block.set (block.length - 1) 0) target path) := by
  have hsame : positions target (block.set (block.length - 1) 0) 0 = inside target block := by
    apply (positions_sorted ..).eq_of_mem_iff ((positions_sorted ..).filter _)
    intro p
    rw [mem_positions, List.mem_filter, mem_positions, occursAt_set_last hblock hne hnul,
      decide_eq_true_eq, and_assoc]
  rw [matchesIn, hsame]

namespace File

variable (f : File)

/-- The pieces of the file that are searched, each on its own. -/
def blocks : List Bytes :=
  if ¬ f.readable then []
  else if f.content.length < 2 ^ 29 then [f.content]
  else (List.range (f.content.length / 16384)).map (f.job []).block

def banner : List Piece :=
  if f.content.length < 2 ^ 29 then [] else [.bytes (ascii "it's really a large one\n")]

/-- The line of a match at `p`. -/
def line (target block : Bytes) (p : Nat) : List Piece :=
  formatMatch target (matchAt (block.set (block.length - 1) 0) target f.path p)

end File

/-- What is printed for a file: the matches of its blocks, one block after
another in some order, those of a block in the order of their offsets. -/
def Prints (target : Bytes) (f : File) (out : List Piece) : Prop :=
  ∃ blocks : List Bytes, blocks.Perm f.blocks ∧
    out = f.banner ++ blocks.flatMap fun b => (inside target b).flatMap (f.line target b)

theorem formatOutput_matchesIn {block : Bytes} (hblock : block ≠ []) (hne : target ≠ [])
    (hnul : 0 ∉ target) : formatOutput (matchesIn target f.path block) target =
      (inside target block).flatMap (f.line target block) := by
  rw [matchesIn_eq hblock hne hnul, formatOutput, List.flatMap_map]
  rfl

theorem lines_eq {m b : Nat} (hwhole : (f.job target).Whole m) (hb : b < m) (hne : target ≠ [])
    (hnul : 0 ∉ target) : (f.job target).lines b =
      (inside target ((f.job target).block b)).flatMap (f.line target ((f.job target).block b)) := by
  have hlen := hwhole.length_block hb
  have hblock : (f.job target).block b ≠ [] := by
    apply List.ne_nil_of_length_pos
    omega
  rw [← formatOutput_matchesIn hblock hne hnul, matchesIn, hlen]
  rfl

theorem process_prints {v : List MatchInfo} {o : Output} (hne : target ≠ []) (hnul : 0 ∉ target)
    (h : Process Job.Step target f (.ok v) o) :
    Prints target f (o.stdout ++ formatOutput v target) ∧ o.stderr = f.complaint := by
  cases h with
  | small hsmall hv =>
      have hlen := f.small_iff.mp hsmall
      refine ⟨⟨f.blocks, .refl _, ?_⟩, rfl⟩
      rw [File.banner, if_pos hlen, File.blocks]
      cases hread : f.readable with
      | false =>
          rw [File.stream, hread] at hv
          cases hv
          rfl
      | true =>
          have hcontent : f.content ≠ [] := by
            intro hempty
            rw [f.run_empty hread hempty] at hv
            cases hv
          rw [f.run_small hread hlen hcontent] at hv
          cases hv
          rw [if_neg (by simp), if_pos hlen, List.flatMap_singleton,
            formatOutput_matchesIn hcontent hne hnul]
  | unopened hlarge hstream =>
      have hlen := mt f.small_iff.mpr hlarge
      have hread : ¬ f.readable := by
        intro hread
        rw [File.stream, if_pos hread] at hstream
        cases hstream
      refine ⟨⟨f.blocks, .refl _, ?_⟩, rfl⟩
      rw [File.banner, if_neg hlen, File.blocks, if_pos hread]
      rfl
  | @large _ tr s hlarge hstream hrun hret =>
      have hlen := mt f.small_iff.mpr hlarge
      have hread : f.readable := by
        by_contra hread
        rw [File.stream, if_neg hread] at hstream
        cases hstream
      have hdvd : 16384 ∣ f.content.length :=
        (orderly_of_run f.fits (reads_full.run_any hrun)).dvd_of_returned hret
      have hwhole : (f.job target).Whole (f.content.length / 16384) :=
        ⟨(Nat.div_mul_cancel hdvd).symm, f.fits⟩
      obtain ⟨order, hperm, hout⟩ := stdout_of_complete hwhole hrun hret
      refine ⟨⟨order.map (f.job []).block, ?_, ?_⟩, ?_⟩
      · rw [File.blocks, if_neg (not_not.mpr hread), if_neg hlen]
        exact hperm.map _
      · rw [File.banner, if_neg hlen, hout, List.flatMap_map, formatOutput, List.flatMap_nil,
          List.append_nil]
        apply congrArg (_ ++ ·)
        apply List.flatMap_congr
        intro b hb
        exact lines_eq hwhole (List.mem_range.mp (hperm.subset hb)) hne hnul
      · rw [File.complaint, if_pos hread]

/-- The files among the entries, in order. -/
def filesOf (entries : List Entry) : List File :=
  entries.filterMap fun
    | .file f => some f
    | .directory _ | .broken => none

theorem scan_prints {entries : List Entry} {r : Except Abort Unit} {out : Output}
    (hne : target ≠ []) (hnul : 0 ∉ target) (h : Scan Job.Step target entries r out)
    (hok : r = .ok ()) :
    (∃ outs, List.Forall₂ (Prints target) (filesOf entries) outs ∧ out.stdout = outs.flatten) ∧
      out.stderr = (filesOf entries).flatMap File.complaint := by
  induction h with
  | done => exact ⟨⟨[], .nil, rfl⟩, rfl⟩
  | skip _ ih => exact ih hok
  | throw | abort => cases hok
  | empty hf hv _ ih =>
      obtain ⟨⟨outs, houts, hout⟩, herr⟩ := ih hok
      obtain ⟨hprints, herr'⟩ := process_prints hne hnul hf
      rw [List.isEmpty_iff.mp hv] at hprints
      refine ⟨⟨_, .cons hprints houts, ?_⟩, ?_⟩
      · rw [Output.append, hout, List.flatten_cons, formatOutput, List.flatMap_nil,
          List.append_nil]
      · rw [Output.append, herr, herr']
        rfl
  | matched hf hv _ ih =>
      obtain ⟨⟨outs, houts, hout⟩, herr⟩ := ih hok
      obtain ⟨hprints, herr'⟩ := process_prints hne hnul hf
      refine ⟨⟨_, .cons hprints houts, ?_⟩, ?_⟩
      · rw [Output.append, hout, List.flatten_cons]
        rfl
      · rw [Output.append, Output.append, herr, herr', List.append_nil]
        rfl

/-- **What `main` prints** when it returns and every `readsome` has returned a full
chunk: for each file below the path, in the order of the traversal, the banner if
it is a large one, and each match that ends before the last byte of its block,
once; and the files that could not be opened on the other stream. -/
theorem main_output {argv : List Bytes} {lookup : Bytes → Option Entry} {out : Output}
    {code : Int} {path target : Bytes} {e : Entry} (h : Runs Job.Step argv lookup out (.ok code))
    (hpath : argv[1]? = some path) (htarget : argv[2]? = some target)
    (he : lookup path = some e) (hne : target ≠ []) (hnul : 0 ∉ target) :
    code = 0 ∧
    (∃ outs, List.Forall₂ (Prints target) (filesOf (e.reached path)) outs ∧
      out.stdout = outs.flatten) ∧
    out.stderr = (filesOf (e.reached path)).flatMap File.complaint := by
  generalize hr : Except.ok code = r at h
  cases h with
  | usage hargc =>
      obtain ⟨hlt, _⟩ := List.getElem?_eq_some_iff.mp htarget
      omega
  | missing hpath' _ hnone =>
      rw [Option.some.inj (hpath.symm.trans hpath'), hnone] at he
      cases he
  | throw | abort => cases hr
  | @directory _ _ _ r _ hpath' htarget' hdir hscan =>
      rw [Option.some.inj (hpath.symm.trans hpath'), hdir] at he
      cases he
      rw [← Option.some.inj (htarget.symm.trans htarget')] at hscan
      cases r with
      | error a => cases hr
      | ok =>
          cases hr
          exact ⟨rfl, scan_prints hne hnul hscan rfl⟩
  | @file _ _ _ _ o hpath' htarget' hfile hproc =>
      cases hr
      have hsame := Option.some.inj (hpath.symm.trans hpath')
      rw [hsame, hfile] at he
      cases he
      rw [← Option.some.inj (htarget.symm.trans htarget'), ← hsame] at hproc
      obtain ⟨hprints, herr⟩ := process_prints hne hnul hproc
      rw [← Option.some.inj (htarget.symm.trans htarget')]
      refine ⟨rfl, ⟨_, .cons hprints .nil, ?_⟩, ?_⟩
      · rw [List.flatten_singleton]
        rfl
      · rw [Output.append, herr, List.append_nil]
        simp [Entry.reached, filesOf]

theorem main_output_directory : ∃ out,
    Runs Job.Step [ascii "prog", ascii "d", ascii "two"] (fun _ => some (.directory twoFiles)) out
      (.ok 0) ∧
    out.stdout.take 3 = [.bytes (ascii "d/a"), .bytes (ascii "("), .number 4] ∧
    out.stderr = secondFile.complaint ∧
    ∃ outs, List.Forall₂ (Prints (ascii "two")) [firstFile, secondFile] outs ∧
      out.stdout = outs.flatten := by
  have hfirst : Process Job.Step (ascii "two") firstFile
      (.ok [⟨ascii "d/a", 4, ascii "ne ", ascii "(null)"⟩]) ⟨[], firstFile.complaint⟩ :=
    .small (by decide) (by decide)
  have hsecond : Process Job.Step (ascii "two") secondFile (.ok []) ⟨[], secondFile.complaint⟩ :=
    .small (by decide) rfl
  have hscan : Scan Job.Step (ascii "two") (visitAll twoFiles) (.ok ()) _ :=
    .matched hfirst (by decide) (.skip (.empty hsecond rfl .done))
  have hruns : Runs Job.Step [ascii "prog", ascii "d", ascii "two"]
      (fun _ => some (.directory twoFiles)) _ (.ok 0) := .directory rfl rfl rfl hscan
  obtain ⟨_, hstdout, _⟩ := main_output hruns rfl rfl rfl (by decide) (by decide)
  exact ⟨_, hruns, by decide, by decide, hstdout⟩

end Challenges.FindString

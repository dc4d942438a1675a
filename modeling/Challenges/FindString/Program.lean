import Challenges.Lib.Find
import Challenges.Lib.Loop

/-!
# Program — `find_string_in_files/src/main.cpp`

The search of one chunk and of a small file, the printing of the matches, and
the threads of the large-file path. A `std::string` is a list of bytes, `i32` and `i64` are
`Int32` and `Int64`, `size_t` is `UInt64`; a signed operand of a comparison
or a sum with a `size_t` is sign-extended first. The calls `std::cout <<`,
`std::printf` and `std::putchar` each add one piece to the output.

The threads run in any order that the two mutexes and `join` allow: `next`
is one step, of the thread in `process_large_file` or of a `read_chunk`, and
what `readsome` answers with is part of the step.
-/

namespace Challenges.FindString

open Challenges.Lib

abbrev Bytes := List UInt8

/-- The bytes of a literal of the program. -/
def ascii (s : String) : Bytes := s.toList.map fun c => c.toNat.toUInt8

def fileSizeLimit : UInt64 := 512 * 1024 * 1024

def chunkSize : UInt64 := 16384

def threadLimit : Nat := 500

/-- `std::string::npos`. -/
def npos : UInt64 := -1

structure MatchInfo where
  filename : Bytes
  offset : Int32
  prefixStr : Bytes
  suffixStr : Bytes
  deriving DecidableEq, Repr

/-- Ways a function ends without a result. -/
inductive Fault where
  /-- `std::out_of_range` of `substr` -/
  | outOfRange
  /-- an index outside a string -/
  | badIndex
  /-- a loop that has not ended within its fuel -/
  | diverges
  deriving DecidableEq, Repr

/-! ## The string library -/

/-- `std::string::find`. -/
def stdFind (str target : Bytes) (pos : UInt64) : UInt64 :=
  match find target str pos.toNat with
  | some p => UInt64.ofNat p
  | none => npos

/-- `std::string::substr`. -/
def substr (str : Bytes) (pos n : UInt64) : Except Fault Bytes :=
  if pos.toNat ≤ str.length then .ok ((str.drop pos.toNat).take n.toNat)
  else .error .outOfRange

def size (str : Bytes) : UInt64 := UInt64.ofNat str.length

/-- An `i32` where a `size_t` is wanted. -/
def toSize (pos : Int32) : UInt64 := pos.toInt64.toUInt64

/-- A `size_t` stored in an `i32`. -/
def toI32 (pos : UInt64) : Int32 := pos.toUInt32.toInt32

/-! ## `process_chunk` -/

section Search

variable (chunk target path : Bytes)

/-- `prefix` for a match at `pos`. -/
def prefixAt (pos : Int32) : Except Fault Bytes :=
  if pos - 3 ≥ 0 then substr chunk (toSize (pos - 3)) 3 else .ok (ascii "(null)")

/-- `suffix` for a match at `pos`. -/
def suffixAt (pos : Int32) : Except Fault Bytes :=
  if toSize pos + size target + 3 < size chunk then
    substr chunk (toSize pos + size target) 3
  else .ok (ascii "(null)")

/-- One round of `while (pos != std::string::npos)`; the state is
`positions`. -/
def chunkStep (pos : Int32) : StateT (List MatchInfo) (Except Fault) (Int32 ⊕ Unit) := do
  if toSize pos ≠ npos then
    let prefixStr ← prefixAt chunk pos
    let suffixStr ← suffixAt chunk target pos
    modify fun positions => positions ++ [⟨path, pos, prefixStr, suffixStr⟩]
    return .inl (toI32 (stdFind chunk target (toSize (pos + 1))))
  else
    return .inr ()

/-- The positions go up from round to round, so there is at most one round
for each, and the last. -/
def processChunk : Except Fault (List MatchInfo) := do
  let (_, positions) ← (loop .diverges (chunkStep chunk target path) (chunk.length + 2)
    (toI32 (stdFind chunk target 0))).run []
  return positions

end Search

/-! ## `process_small_file` -/

/-- `process_small_file` for a file of this size; `stream` is what can be read
from it, and `none` when it could not be opened. What is not read stays zero,
and the last byte is overwritten. -/
def processSmallFile (fileSize : UInt64) (stream : Option Bytes) (target path : Bytes) :
    Except Fault (List MatchInfo) :=
  match stream with
  | none => .ok []
  | some content =>
      let buffer := content.take fileSize.toNat
        ++ List.replicate (fileSize.toNat - content.length) 0
      let last := (fileSize - 1).toNat
      if last < buffer.length then processChunk (buffer.set last 0) target path
      else .error .badIndex

/-! ## `format_output` -/

/-- What one output call prints: bytes, or a number in decimal. -/
inductive Piece where
  | bytes (s : Bytes)
  | number (i : Int32)
  deriving DecidableEq, Repr

/-- One character of `format_string`. The case of `'\b'` has no `break`. -/
def formatChar (c : UInt8) : List Piece :=
  if c = 9 then [.bytes (ascii "\\t")]
  else if c = 10 then [.bytes (ascii "\\n")]
  else if c = 13 then [.bytes (ascii "\\r")]
  else if c = 8 then [.bytes (ascii "\\b"), .bytes (ascii "<space>")]
  else if c = 32 then [.bytes (ascii "<space>")]
  else [.bytes [c]]

def formatString (str : Bytes) : List Piece := str.flatMap formatChar

/-- One line of `format_output`. -/
def formatMatch (target : Bytes) (c : MatchInfo) : List Piece :=
  [.bytes c.filename, .bytes (ascii "("), .number c.offset, .bytes (ascii "): ")]
    ++ formatString c.prefixStr
    ++ [.bytes (ascii " "), .bytes target, .bytes (ascii " ")]
    ++ formatString c.suffixStr
    ++ [.bytes (ascii "\n")]

def formatOutput (v : List MatchInfo) (target : Bytes) : List Piece :=
  v.flatMap (formatMatch target)

/-! ## `process_large_file` -/

/-- A call of `process_large_file`: what the file holds, and the arguments. -/
structure Job where
  content : Bytes
  target : Bytes
  path : Bytes

/-- Where a `read_chunk` stands, and what it holds by then. -/
inductive Phase where
  /-- before `fread_mutex.lock()` -/
  | waiting
  /-- `fread_mutex` is locked -/
  | reading
  /-- `readsome` has returned -/
  | filled (chunk : Bytes)
  /-- `fread_mutex` is unlocked again -/
  | searching (chunk : Bytes)
  /-- `process_chunk` has returned; what `format_output` is to print -/
  | found (out : List Piece)
  /-- `format_mutex` is locked; what is left to print -/
  | printing (out : List Piece)
  | finished
  deriving DecidableEq, Repr

/-- A thread that runs `read_chunk` with this `curr_chunk_size`. -/
structure Thread where
  size : Int64
  phase : Phase
  deriving DecidableEq, Repr

/-- Where `process_large_file` stands. -/
inductive Main where
  /-- before the test of `while (left_so_far > 0)` -/
  | looping
  /-- joining a full pool; the threads left -/
  | joining (rest : List Nat)
  /-- joining the threads left after the loop -/
  | leaving (rest : List Nat)
  | returned
  deriving DecidableEq, Repr

/-- The process: a thread is named by its place in `threads`. -/
structure Sys where
  main : Main
  leftSoFar : UInt64
  threadPool : List Nat
  threads : List Thread
  /-- the position of `stream` -/
  stream : Nat
  freadMutex : Option Nat
  formatMutex : Option Nat
  stdout : List Piece

/-- Whose step comes next; for `readsome`, how many bytes it returns. -/
inductive Event where
  | main
  | thread (i : Nat)
  | read (i k : Nat)
  deriving DecidableEq, Repr

def Sys.phase (s : Sys) (i : Nat) : Option Phase := (s.threads[i]?).map Thread.phase

/-- Thread `i` moves on to `phase`. -/
def Sys.goto (s : Sys) (i : Nat) (phase : Phase) : Sys :=
  { s with threads := s.threads.modify i fun th => { th with phase := phase } }

namespace Job

variable (job : Job)

/-- What `read_chunk` prints for a chunk it has read: the last byte is
overwritten, then the chunk is searched. -/
def search (chunk : Bytes) (size : Int64) : Except Fault (List Piece) := do
  let last := (size - 1).toNatClampNeg
  if size ≤ 0 then throw .badIndex
  let out ← processChunk (chunk.set last 0) job.target job.path
  return formatOutput out job.target

/-- The process when the loop of `process_large_file` is reached. -/
def start : Sys where
  main := .looping
  leftSoFar := UInt64.ofNat job.content.length
  threadPool := []
  threads := []
  stream := 0
  freadMutex := none
  formatMutex := none
  stdout := [.bytes (ascii "it's really a large one\n")]

/-- `curr_chunk_size`; the comparison is one of unsigned numbers. -/
def currChunkSize (left : UInt64) : Int64 :=
  if left - chunkSize < 0 then left.toInt64 else chunkSize.toInt64

/-- One round of the chunk loop: a new thread, and a full pool is joined. -/
def spawn (s : Sys) : Sys :=
  let pool := s.threadPool ++ [s.threads.length]
  { s with
    leftSoFar := s.leftSoFar - chunkSize
    threads := s.threads ++ [⟨currChunkSize s.leftSoFar, .waiting⟩]
    threadPool := pool
    main := if pool.length > threadLimit then .joining pool else .looping }

/-- A step of `process_large_file`. `join` waits for its thread. -/
def nextMain (s : Sys) : Option Sys :=
  match s.main with
  | .looping =>
      if s.leftSoFar > 0 then some (spawn s)
      else some { s with main := .leaving s.threadPool }
  | .joining [] => some { s with threadPool := [], main := .looping }
  | .joining (i :: rest) =>
      if s.phase i = some .finished then some { s with main := .joining rest } else none
  | .leaving [] => some { s with main := .returned }
  | .leaving (i :: rest) =>
      if s.phase i = some .finished then some { s with main := .leaving rest } else none
  | .returned => none

/-- A step of thread `i`, `readsome` apart. -/
def nextThread (s : Sys) (i : Nat) (th : Thread) : Option Sys :=
  match th.phase with
  | .waiting =>
      if th.size < 0 then some (s.goto i .finished)
      else if s.freadMutex = none then some { s.goto i .reading with freadMutex := some i }
      else none
  | .reading => none
  | .filled chunk => some { s.goto i (.searching chunk) with freadMutex := none }
  | .searching chunk =>
      match job.search chunk th.size with
      | .ok out => some (s.goto i (.found out))
      | .error _ => none
  | .found out =>
      if s.formatMutex = none then some { s.goto i (.printing out) with formatMutex := some i }
      else none
  | .printing [] => some { s.goto i .finished with formatMutex := none }
  | .printing (p :: rest) => some { s.goto i (.printing rest) with stdout := s.stdout ++ [p] }
  | .finished => none

/-- `readsome` in thread `i` returns `k` bytes; the rest of `chunk` stays
zero. -/
def nextRead (s : Sys) (i k : Nat) (th : Thread) : Option Sys :=
  if th.phase = .reading ∧ k ≤ th.size.toNatClampNeg ∧ s.stream + k ≤ job.content.length then
    let chunk := (job.content.drop s.stream).take k
      ++ List.replicate (th.size.toNatClampNeg - k) 0
    some { s.goto i (.filled chunk) with stream := s.stream + k }
  else none

/-- One step of the process. -/
def next (s : Sys) : Event → Option Sys
  | .main => nextMain s
  | .thread i => s.threads[i]?.bind (job.nextThread s i)
  | .read i k => s.threads[i]?.bind (job.nextRead s i k)

/-- A step in which a `readsome` returns a full chunk. -/
def Step (a : Sys) (e : Event) (b : Sys) : Prop :=
  job.next a e = some b ∧ ∀ i k, e = .read i k → ∀ th ∈ a.threads[i]?,
    k = th.size.toNatClampNeg

end Job

end Challenges.FindString

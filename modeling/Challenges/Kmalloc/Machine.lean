import Challenges.Lib.Loop
import Challenges.Lib.Memory

/-!
# Machine — what both allocators run on

The 32-bit machine under `kmalloc.rs` and under `original/kmalloc.c`: a
byte memory, the break as `sbrk` presents it, the static variables of the
program (a type parameter), and the faults that end a run. `usize` and
pointers are `UInt32`, `i32`, `int` and `long` are `Int32`; a cast between
the two keeps the bits.

`sbrk` is outside the repository. Its answers are an arbitrary sequence
`os`, one value for each call, `0xffffffff` being the failure value `-1`;
every call is recorded in `log`. Memory it hands out reads as zero. What
else is assumed of the answers is stated by predicates on the log
(`Fresh`, `BreakOk`).
-/

namespace Challenges.Kmalloc

open Challenges.Lib

/-- `ptr::null_mut()` and `NULL`. -/
abbrev null : UInt32 := 0

/-- The pointer `sbrk` answers with when it fails. -/
abbrev sbrkFailed : UInt32 := 0xffffffff

/-- Ways a run ends without a result. -/
inductive Fault where
  /-- an index outside `NEXTF` -/
  | indexOutOfBounds
  /-- an arithmetic overflow in a build that checks for it -/
  | overflow
  /-- `libc::abort()` in `kassert!` -/
  | abort
  /-- `handle_alloc_error` -/
  | allocError
  /-- a loop that has not ended within its fuel -/
  | diverges
  deriving DecidableEq, Repr

/-- Where in the program an `sbrk` call stands. -/
inductive Caller where
  /-- `sbrk(0)`, which reads the break -/
  | query
  /-- the call that aligns the break before the first allocation -/
  | align
  /-- the call of `morecore(bucket)` -/
  | morecore (bucket : Int32)
  deriving DecidableEq, Repr

/-- One call of `sbrk`: the increment asked for and the answer. -/
structure SbrkCall where
  caller : Caller
  amt : Int32
  ret : UInt32
  deriving DecidableEq, Repr

/-- The state of the machine under a program with static variables `σ`. -/
structure Machine (σ : Type) where
  mem : Mem
  os : Nat → UInt32
  log : List SbrkCall
  vars : σ

/-- Programs: they change the machine, and return or fault. -/
abbrev M (σ : Type) := StateT (Machine σ) (Except Fault)

variable {σ : Type}

/-! ## Loads, stores and the C library -/

def load8 (a : UInt32) : M σ UInt8 := do
  return (← get).mem a

def load32 (a : UInt32) : M σ UInt32 := do
  return (← get).mem.load32 a

def store8 (a : UInt32) (v : UInt8) : M σ Unit :=
  modify fun s => { s with mem := s.mem.store8 a v }

def store32 (a v : UInt32) : M σ Unit :=
  modify fun s => { s with mem := s.mem.store32 a v }

def memcpy (dst src len : UInt32) : M σ Unit :=
  modify fun s => { s with mem := s.mem.copy dst src len }

def memset (dst : UInt32) (v : UInt8) (len : UInt32) : M σ Unit :=
  modify fun s => { s with mem := s.mem.fill dst v len }

/-- The machine after an `sbrk` call answered with `ret`. -/
def Machine.afterSbrk (s : Machine σ) (caller : Caller) (amt : Int32)
    (ret : UInt32) : Machine σ :=
  { s with
    mem := if ret ≠ sbrkFailed ∧ 0 < amt then s.mem.fill ret 0 amt.toUInt32 else s.mem
    log := s.log ++ [⟨caller, amt, ret⟩] }

/-- `sbrk(amt)`: the next answer of the system. -/
def sbrk (caller : Caller) (amt : Int32) : M σ UInt32 := do
  let s ← get
  let ret := s.os s.log.length
  set (s.afterSbrk caller amt ret)
  return ret

section Run

variable (s : Machine σ)

@[simp] theorem run_load8 (a : UInt32) :
    (load8 a).run s = .ok (s.mem a, s) := rfl

@[simp] theorem run_load32 (a : UInt32) :
    (load32 a).run s = .ok (s.mem.load32 a, s) := rfl

@[simp] theorem run_store8 (a : UInt32) (v : UInt8) :
    (store8 a v).run s = .ok ((), { s with mem := s.mem.store8 a v }) := rfl

@[simp] theorem run_store32 (a v : UInt32) :
    (store32 a v).run s = .ok ((), { s with mem := s.mem.store32 a v }) := rfl

@[simp] theorem run_memcpy (dst src len : UInt32) :
    (memcpy dst src len).run s
      = .ok ((), { s with mem := s.mem.copy dst src len }) := rfl

@[simp] theorem run_memset (dst : UInt32) (v : UInt8) (len : UInt32) :
    (memset dst v len).run s
      = .ok ((), { s with mem := s.mem.fill dst v len }) := rfl

end Run

@[simp] theorem run_sbrk (s : Machine σ) (caller : Caller) (amt : Int32) :
    (sbrk caller amt).run s
      = .ok (s.os s.log.length, s.afterSbrk caller amt (s.os s.log.length)) := rfl

/-! ## Checked arithmetic

The Rust code runs in one of two builds: with overflow checks an operation
that leaves its type's range panics, without them it wraps. `kassert!`
tests its argument only when the `debug` feature is on. -/

/-- The compile-time choices that the Rust code depends on. -/
structure Build where
  debug : Bool
  overflowChecks : Bool
  deriving DecidableEq, Repr

/-- The default features in the release profile. -/
abbrev release : Build := ⟨false, false⟩

namespace Build

variable (bld : Build)

def check (overflows : Bool) (v : α) : M σ α :=
  if bld.overflowChecks && overflows then throw .overflow else pure v

def addI32 (x y : Int32) : M σ Int32 :=
  bld.check (BitVec.saddOverflow x.toBitVec y.toBitVec) (x + y)

def subI32 (x y : Int32) : M σ Int32 :=
  bld.check (BitVec.ssubOverflow x.toBitVec y.toBitVec) (x - y)

def addU32 (x y : UInt32) : M σ UInt32 :=
  bld.check (BitVec.uaddOverflow x.toBitVec y.toBitVec) (x + y)

def subU32 (x y : UInt32) : M σ UInt32 :=
  bld.check (BitVec.usubOverflow x.toBitVec y.toBitVec) (x - y)

def mulU32 (x y : UInt32) : M σ UInt32 :=
  bld.check (BitVec.umulOverflow x.toBitVec y.toBitVec) (x * y)

/-- `1 << k` for an `i32`; the shift count is masked to its low five bits. -/
def shlOneI32 (k : Int32) : M σ Int32 :=
  bld.check (k.toUInt32 ≥ 32) ((1 : UInt32) <<< k.toUInt32).toInt32

/-- `1 << k` for a `u32`. -/
def shlOneU32 (k : Int32) : M σ UInt32 :=
  bld.check (k.toUInt32 ≥ 32) ((1 : UInt32) <<< k.toUInt32)

/-- `kassert!(check)`. -/
def kassert (test : Bool) : M σ Unit :=
  if bld.debug && !test then throw .abort else pure ()

end Build

section Release

variable (x y : Int32) (u v : UInt32)

@[simp] theorem release_addI32 : (release.addI32 x y : M σ _) = pure (x + y) := (rfl)

@[simp] theorem release_subI32 : (release.subI32 x y : M σ _) = pure (x - y) := (rfl)

@[simp] theorem release_addU32 : (release.addU32 u v : M σ _) = pure (u + v) := (rfl)

@[simp] theorem release_subU32 : (release.subU32 u v : M σ _) = pure (u - v) := (rfl)

@[simp] theorem release_mulU32 : (release.mulU32 u v : M σ _) = pure (u * v) := (rfl)

@[simp] theorem release_shlOneI32 :
    (release.shlOneI32 x : M σ _) = pure ((1 : UInt32) <<< x.toUInt32).toInt32 := (rfl)

@[simp] theorem release_shlOneU32 :
    (release.shlOneU32 x : M σ _) = pure ((1 : UInt32) <<< x.toUInt32) := (rfl)

@[simp] theorem release_kassert (test : Bool) :
    (release.kassert test : M σ _) = pure () := (rfl)

end Release

end Challenges.Kmalloc

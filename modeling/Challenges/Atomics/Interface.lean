import Challenges.Atomics.CompareAndSwap
import Challenges.Atomics.Register
import Challenges.Lib.Routine
import Challenges.Lib.Words

/-!
# Interface — every function, on one memory

Threads call whatever they like: the loads, stores, swaps, adds and
compare-and-swaps of `atomic.c`, and the routines for bits of
`atomic_amd64.s`. The words of 8, 32 and 64 bits are words of one memory of
bytes, and overlap as their addresses say. An instruction with a `lock`, and
`xchg`, reads and writes one of them in one step, wherever it is; a load reads
one in one step when it is aligned. A function touches the memory once, so each
call takes effect at one moment, whatever the others do.
-/

namespace Challenges.Atomics

open Challenges.Lib

variable {w : Nat}

/-! ## Instructions on bytes -/

/-- The address is a multiple of the bytes of the word. -/
def Aligned (w : Nat) (a : Address) : Prop := w / 8 ∣ a.toNat

instance (w : Nat) (a : Address) : Decidable (Aligned w a) :=
  inferInstanceAs (Decidable (w / 8 ∣ a.toNat))

/-- The instructions of `Instr`, those of the routines for bits, and the one
statement of a C function that reads: a `mov`, without a `lock`, so that only
a word that is aligned is read in one step. -/
inductive Micro : Nat → Type where
  | instr {w : Nat} (i : Instr w) : Micro w
  | reads {w : Nat} (value : Memory w → BitVec w) : Micro w
  /-- `lock or %src, (%base)` -/
  | lockOr {w : Nat} (src base : Reg) : Micro w
  /-- `lock and %src, (%base)` -/
  | lockAnd {w : Nat} (src base : Reg) : Micro w
  /-- `xchgb`, which keeps the bits above the lowest eight -/
  | xchgb (reg base : Reg) : Micro 8

/-- An access to a word. -/
def Instr.touches : Instr w → Bool
  | lockCmpxchg .. | lockXadd .. | xchg .. => true
  | mov .. | add .. | sete | ret => false

namespace Micro

def touches : Micro w → Bool
  | instr i => i.touches
  | reads _ | lockOr .. | lockAnd .. | xchgb .. => true

/-- One instruction on the bytes; the words that it accesses are written back.
The argument of a C function that reads is in `%rdi`. -/
def exec (c : Cpu) (m : Bytes 64) : {w : Nat} → Micro w → Cpu × Bytes 64
  | w, instr i =>
      let (c', words) := i.exec c (m.load w)
      (c', (i.accesses c).foldl (fun m a => m.store a (words a)) m)
  | w, reads value =>
      -- across the end of a cache line the word comes in two parts, and others may write
      -- between them; it is open what is read, as it is open what `%rax` holds on entry
      (if Aligned w c.rdi then c.write .rax (value (m.load w)) else c, m)
  | w, lockOr src base =>
      let v := m.load w (c.get base) ||| c.read w src
      ({ c with zf := v == 0 }, m.store (c.get base) v)
  | w, lockAnd src base =>
      let v := m.load w (c.get base) &&& c.read w src
      ({ c with zf := v == 0 }, m.store (c.get base) v)
  | _, xchgb reg base =>
      let a := c.get base
      (c.set reg ((c.get reg).extractLsb' 8 56 ++ m.load 8 a), m.store a (c.read 8 reg))

end Micro

/-! ## The routines for bits -/

/-- A routine that is not of `Call`, with its arguments. -/
structure BitRoutine (w : Nat) where
  body : List (Micro w)
  rdi : Address
  rsi : BitVec w

/-- `_store8` -/
def store8 (ptr : Address) (val : UInt8) : BitRoutine 8 where
  body := [
    .xchgb .rsi .rdi,         -- xchgb %sil, (%rdi)
    .instr .ret]
  rdi := ptr
  rsi := val.toBitVec

/-- `_or8` -/
def or8 (ptr : Address) (val : UInt8) : BitRoutine 8 where
  body := [
    .lockOr .rsi .rdi,        -- lock orb %sil, (%rdi)
    .instr .ret]
  rdi := ptr
  rsi := val.toBitVec

/-- `_and8` -/
def and8 (ptr : Address) (val : UInt8) : BitRoutine 8 where
  body := [
    .lockAnd .rsi .rdi,       -- lock andb %sil, (%rdi)
    .instr .ret]
  rdi := ptr
  rsi := val.toBitVec

/-- `_or` -/
def or (ptr : Address) (val : UInt32) : BitRoutine 32 where
  body := [
    .lockOr .rsi .rdi,        -- lock orl %esi, (%rdi)
    .instr .ret]
  rdi := ptr
  rsi := val.toBitVec

/-- `_and` -/
def and (ptr : Address) (val : UInt32) : BitRoutine 32 where
  body := [
    .lockAnd .rsi .rdi,       -- lock andl %esi, (%rdi)
    .instr .ret]
  rdi := ptr
  rsi := val.toBitVec

/-- A call of one of them. -/
inductive BitCall : Nat → Type where
  | store8 (ptr : Address) (val : UInt8) : BitCall 8
  | or8 (ptr : Address) (val : UInt8) : BitCall 8
  | and8 (ptr : Address) (val : UInt8) : BitCall 8
  | or (ptr : Address) (val : UInt32) : BitCall 32
  | and (ptr : Address) (val : UInt32) : BitCall 32

namespace BitCall

/-- What the call runs. -/
def code : BitCall w → BitRoutine w
  | store8 ptr val => Atomics.store8 ptr val
  | or8 ptr val => Atomics.or8 ptr val
  | and8 ptr val => Atomics.and8 ptr val
  | or ptr val => Atomics.or ptr val
  | and ptr val => Atomics.and ptr val

/-- What a call makes of its word. -/
def writes : BitCall w → BitVec w → BitVec w
  | store8 _ val, _ => val.toBitVec
  | or8 _ val, v => v ||| val.toBitVec
  | and8 _ val, v => v &&& val.toBitVec
  | or _ val, v => v ||| val.toBitVec
  | and _ val, v => v &&& val.toBitVec

end BitCall

/-! ## Calls of any function -/

inductive AtomicCall (w : Nat) where
  | register (c : RegisterCall w)
  | compareAndSwap (c : CasCall w)
  | bits (c : BitCall w)

def Code.micros : Code w → List (Micro w)
  | reads value => [.reads value, .instr .ret]
  | routine call => call.body.map .instr

namespace AtomicCall

/-- The instructions; those of `atomic.c` do not depend on what is in `%rdx`. -/
def code : AtomicCall w → List (Micro w)
  | register c => (c.code 0).micros
  | compareAndSwap c => c.code.body.map .instr
  | bits c => c.code.body

/-- The registers hold the arguments. -/
def Enters : AtomicCall w → Cpu → Prop
  | register c, cpu => c.Enters cpu
  | compareAndSwap c, cpu => c.code.Enters cpu
  | bits c, cpu => cpu.rdi = c.code.rdi ∧ cpu.read w .rsi = c.code.rsi

instance (c : AtomicCall w) (cpu : Cpu) : Decidable (c.Enters cpu) :=
  match c with
  | register c => inferInstanceAs (Decidable (c.Enters cpu))
  | compareAndSwap c => inferInstanceAs (Decidable (c.code.Enters cpu))
  | bits c => inferInstanceAs (Decidable (cpu.rdi = c.code.rdi ∧ cpu.read w .rsi = c.code.rsi))

/-- The bits that are returned, with zeros above them. The routines for bits
leave in `%eax` what was there. -/
def reply : AtomicCall w → Cpu → Option (BitVec 64)
  | register c, cpu => if c.isVoid then none else some ((cpu.read w .rax).setWidth 64)
  | compareAndSwap _, cpu => some (cpu.al.setWidth 64)
  | bits _, _ => none

end AtomicCall

/-- A call of any width. -/
abbrev AnyCall := Σ w, AtomicCall w

/-- A thread that calls the functions. -/
abbrev Core := Worker (Σ w, Micro w) Cpu AnyCall (Option (BitVec 64))

/-- The functions of all widths. -/
def routines : Routines (Σ w, Micro w) Cpu (Bytes 64) AnyCall (Option (BitVec 64)) where
  exec i c m := i.2.exec c m
  touches i := i.2.touches
  code c := c.2.code.map (Sigma.mk c.1)
  Enters c cpu := c.2.Enters cpu
  reply c cpu := c.2.reply cpu

instance (c : AnyCall) (cpu : Cpu) : Decidable (routines.Enters c cpu) :=
  inferInstanceAs (Decidable (c.2.Enters cpu))

/-! ## What a call does -/

/-- What the function answers; `load_int32` does not look. -/
def RegisterCall.returns : {w : Nat} → RegisterCall w → BitVec w → Option (BitVec w)
  | _, .load .int32 _, _ => some 0
  | _, c, v => c.answer v

namespace AtomicCall

/-- The word that the call works on. -/
def target : AtomicCall w → Address
  | register c => c.addr
  | compareAndSwap c => c.target
  | bits c => c.code.rdi

/-- A load is of a word that is aligned. -/
def Whole : AtomicCall w → Prop
  | register (.load _ addr) => Aligned w addr
  | _ => True

/-- What it makes of the word. -/
def writes : AtomicCall w → BitVec w → BitVec w
  | register c, v => c.writes v
  | compareAndSwap c, v => if v = c.old then c.new else v
  | bits c, v => c.writes v

/-- What it returns. -/
def answer : AtomicCall w → BitVec w → Option (BitVec 64)
  | register c, v => (c.returns v).map (BitVec.setWidth 64)
  | compareAndSwap c, v => some (if v = c.old then 1 else 0)
  | bits _, _ => none

/-- **One word is read, computed and written back**, with nothing in between. -/
def op (c : AnyCall) (m : Bytes 64) : Bytes 64 × Option (BitVec 64) :=
  let v := m.load c.1 c.2.target
  (m.store c.2.target (c.2.writes v), c.2.answer v)

/-- The same, without the reply. -/
def mute (c : AnyCall) (m : Bytes 64) : Bytes 64 × Unit := ((op c m).1, ())

end AtomicCall

/-! ## Bytes and words -/

theorem Instr.accesses_of_not_touches {i : Instr w} (hi : i.touches = false) (c : Cpu) :
    i.accesses c = [] := by
  cases i <;> first | rfl | cases hi

theorem Instr.exists_access {i : Instr w} (hi : i.touches = true) (c : Cpu) :
    ∃ a, i.accesses c = [a] := by
  cases i <;> first | exact ⟨_, rfl⟩ | cases hi

/-- Without an access, an instruction works on the registers. -/
theorem Instr.exec_of_not_touches {i : Instr w} (hi : i.touches = false) (c : Cpu) (m m' : Memory w) :
    i.exec c m = ((i.exec c m').1, m) := by
  cases i <;> first | rfl | cases hi

theorem routines_local : routines.Local := by
  intro i hi c m m'
  obtain ⟨w, i⟩ := i
  cases i with
  | instr i =>
      change (Micro.exec c m (.instr i)).2 = m ∧
        (Micro.exec c m (.instr i)).1 = (Micro.exec c m' (.instr i)).1
      rw [Micro.exec, Micro.exec, Instr.accesses_of_not_touches hi,
        Instr.exec_of_not_touches hi c (m.load w) (m'.load w)]
      exact ⟨rfl, rfl⟩
  | _ => cases hi

/-- A routine on the bytes. -/
def runBytes (body : List (Micro w)) (c : Cpu) (m : Bytes 64) : Cpu × Bytes 64 :=
  routines.runAll (body.map (Sigma.mk w)) c m

/-- Instructions without an access do to the registers what they do on words. -/
theorem runBytes_of_none {body : List (Instr w)} (hnone : body.countP Instr.touches = 0) (c : Cpu)
    (m : Bytes 64) (words : Memory w) :
    runBytes (body.map .instr) c m = ((execAll body c words).cpu, m) ∧
      (execAll body c words).mem = words ∧ (execAll body c words).accessed = [] := by
  induction body generalizing c with
  | nil => exact ⟨rfl, rfl, rfl⟩
  | cons i rest ih =>
      obtain ⟨hi, hrest⟩ := List.forall_mem_cons.mp (List.countP_eq_zero.mp hnone)
      have hi := Bool.eq_false_iff.mpr hi
      obtain ⟨hrun, hmem, hacc⟩ := ih (List.countP_eq_zero.mpr hrest) (i.exec c words).1
      have hexec : Micro.exec c m (.instr i) = ((i.exec c words).1, m) := by
        rw [Micro.exec, Instr.accesses_of_not_touches hi,
          Instr.exec_of_not_touches hi c (m.load w) words]
        rfl
      have hwords : (i.exec c words).2 = words := by
        rw [Instr.exec_of_not_touches hi c words words]
      have hstep : runBytes ((i :: rest).map .instr) c m
          = runBytes (rest.map .instr) (Micro.exec c m (.instr i)).1 (Micro.exec c m (.instr i)).2 :=
        rfl
      rw [hstep, hexec, hrun, execAll, hwords, Instr.accesses_of_not_touches hi]
      exact ⟨rfl, hmem, hacc⟩

/-- A routine with one access does to the bytes what it does to the words of its
width, and to that word only. -/
theorem runBytes_of_once {body : List (Instr w)} (honce : body.countP Instr.touches = 1) (c : Cpu)
    (m : Bytes 64) :
    ∃ a, (execAll body c (m.load w)).accessed = [a] ∧
      runBytes (body.map .instr) c m
        = ((execAll body c (m.load w)).cpu, m.store a ((execAll body c (m.load w)).mem a)) := by
  induction body generalizing c with
  | nil => cases honce
  | cons i rest ih =>
      have hstep : runBytes ((i :: rest).map .instr) c m
          = runBytes (rest.map .instr) (Micro.exec c m (.instr i)).1 (Micro.exec c m (.instr i)).2 :=
        rfl
      cases hi : i.touches with
      | false =>
          rw [List.countP_cons_of_neg (Bool.eq_false_iff.mp hi)] at honce
          obtain ⟨a, hacc, hrun⟩ := ih honce (i.exec c (m.load w)).1
          have hexec : Micro.exec c m (.instr i) = ((i.exec c (m.load w)).1, m) := by
            rw [Micro.exec, Instr.accesses_of_not_touches hi]
            rfl
          have hwords : (i.exec c (m.load w)).2 = m.load w := by
            rw [Instr.exec_of_not_touches hi c (m.load w) (m.load w)]
          refine ⟨a, ?_, ?_⟩
          · rw [execAll, hwords, Instr.accesses_of_not_touches hi]
            exact hacc
          · rw [hstep, hexec, hrun, execAll, hwords]
      | true =>
          have hnone : rest.countP Instr.touches = 0 := by
            rw [List.countP_cons_of_pos hi] at honce
            omega
          obtain ⟨a, ha⟩ := Instr.exists_access hi c
          have hexec : Micro.exec c m (.instr i)
              = ((i.exec c (m.load w)).1, m.store a ((i.exec c (m.load w)).2 a)) := by
            rw [Micro.exec, ha]
            rfl
          obtain ⟨hrun, hmem, hacc⟩ := runBytes_of_none hnone (i.exec c (m.load w)).1
            (m.store a ((i.exec c (m.load w)).2 a)) (i.exec c (m.load w)).2
          refine ⟨a, ?_, ?_⟩
          · rw [execAll, ha, hacc]
            rfl
          · rw [hstep, hexec, hrun, execAll, hmem]

/-! ## One call on its own -/

theorem Variant.dvd (v : Variant w) : 8 ∣ w := by
  cases v <;> decide

namespace AtomicCall

/-- Words are whole bytes. -/
theorem dvd (c : AtomicCall w) : 8 ∣ w := by
  cases c with
  | register c =>
      cases c with
      | add c => cases c <;> decide
      | load v _ | store v _ _ | swap v _ _ => exact Variant.dvd v
  | compareAndSwap c => cases c <;> decide
  | bits c => cases c <;> decide

/-- Each function touches the memory once. -/
theorem once (c : AtomicCall w) : c.code.countP Micro.touches = 1 := by
  cases c with
  | register c =>
      cases c with
      | load v addr => rfl
      | store v addr val =>
          simp only [code, RegisterCall.code, RegisterCall.storeCall_eq]
          rfl
      | swap v addr new =>
          simp only [code, RegisterCall.code, RegisterCall.swapCall_eq]
          rfl
      | add c =>
          simp only [code, RegisterCall.code, AddCall.code_eq]
          rfl
  | compareAndSwap c =>
      rw [code, congrArg Call.body c.code_eq]
      rfl
  | bits c => cases c <;> rfl

end AtomicCall

/-- The word that a register routine accesses is the one at its argument. -/
theorem RegisterCall.accessed {c : RegisterCall w} {call : Call w} {cpu : Cpu}
    (hcode : c.code (cpu.read w .rdx) = .routine call) (h : c.Enters cpu) (m : Memory w) :
    (execAll call.body cpu m).accessed = [c.addr] := by
  rw [Enters, hcode] at h
  have hrdi : cpu.rdi = call.rdi := h.1
  cases c with
  | load v addr => cases hcode
  | store v addr val =>
      rw [code, storeCall_eq] at hcode
      cases hcode
      exact congrArg (fun a => [a]) hrdi
  | swap v addr new =>
      rw [code, swapCall_eq] at hcode
      cases hcode
      exact congrArg (fun a => [a]) hrdi
  | add c =>
      rw [code, AddCall.code_eq] at hcode
      cases hcode
      exact congrArg (fun a => [a]) hrdi

theorem RegisterCall.micros_eq (c : RegisterCall w) (rdx rdx' : BitVec w) :
    (c.code rdx).micros = (c.code rdx').micros := by
  cases c with
  | load v addr => rfl
  | store v addr val => simp only [code, storeCall_eq, Code.micros]
  | swap v addr new => simp only [code, swapCall_eq, Code.micros]
  | add c => simp only [code, AddCall.code_eq, Code.micros]

theorem RegisterCall.returns_of_not_stub {c : RegisterCall w} (h : ¬ c.Stub) (v : BitVec w) :
    c.returns v = c.answer v := by
  cases c with
  | load x addr =>
      cases x with
      | int32 => exact absurd trivial h
      | _ => rfl
  | _ => rfl

namespace AtomicCall

variable {cpu : Cpu}

theorem does_load {v : Variant w} {addr : Address}
    (h : (RegisterCall.load v addr).Enters cpu) (m : Bytes 64) :
    (runBytes (register (.load v addr)).code cpu m).2 = (op ⟨w, register (.load v addr)⟩ m).1 ∧
      (Aligned w addr → (register (.load v addr)).reply
        (runBytes (register (.load v addr)).code cpu m).1 = (op ⟨w, register (.load v addr)⟩ m).2) := by
  refine ⟨(Bytes.store_load (Variant.dvd v) m addr).symm, ?_⟩
  intro haligned
  have hrdi : cpu.rdi = addr := h
  have hcpu : (runBytes (register (.load v addr)).code cpu m).1
      = cpu.write .rax (RegisterCall.loadBits addr (m.load w) v) := by
    rw [← hrdi] at haligned ⊢
    exact if_pos haligned
  have hread := Cpu.read_write cpu .rax (RegisterCall.loadBits addr (m.load w) v)
    (RegisterCall.Variant.width_le v)
  rw [hcpu]
  refine (congrArg (fun x => some (BitVec.setWidth 64 x)) hread).trans ?_
  cases v <;> rfl

theorem does_register {c : RegisterCall w} (h : c.Enters cpu) (m : Bytes 64) :
    (runBytes (register c).code cpu m).2 = (op ⟨w, register c⟩ m).1 ∧
      ((register c).Whole →
        (register c).reply (runBytes (register c).code cpu m).1 = (op ⟨w, register c⟩ m).2) := by
  have honce := (register c).once
  rw [code, c.micros_eq 0 (cpu.read w .rdx)] at honce ⊢
  cases hcode : c.code (cpu.read w .rdx) with
  | reads value =>
      cases c with
      | load v addr =>
          cases hcode
          exact does_load h m
      | _ => cases hcode
  | routine call =>
      rw [hcode] at honce
      have hinstr : call.body.countP Instr.touches = 1 := by
        rwa [Code.micros, List.countP_map] at honce
      obtain ⟨a, hacc, hrun⟩ := runBytes_of_once hinstr cpu m
      have ha : a = c.addr := by
        have := RegisterCall.accessed hcode h (m.load w)
        rw [hacc] at this
        exact List.singleton_inj.mp this
      have hstub : ¬ c.Stub := by
        intro hstub
        cases c with
        | load v addr => cases hcode
        | _ => exact hstub
      have hmem := RegisterCall.exec_fst h (m.load w)
      have hreply := (RegisterCall.exec_snd_iff h (m.load w)).mpr fun hs => absurd hs hstub
      rw [RegisterCall.exec, hcode] at hmem hreply
      rw [Code.micros, hrun, ha]
      constructor
      · have hword : (RegisterCall.step (m.load w) c) c.addr = c.writes (m.load w c.addr) :=
          Function.update_self ..
        exact congrArg (m.store c.addr) ((congrFun hmem c.addr).trans hword)
      · intro _
        rw [op, answer, RegisterCall.returns_of_not_stub hstub]
        refine Eq.trans ?_ (congrArg (Option.map (BitVec.setWidth 64)) hreply)
        rw [reply]
        cases c.isVoid <;> rfl

theorem does_compareAndSwap {c : CasCall w} (h : c.code.Enters cpu) (m : Bytes 64) :
    (runBytes (compareAndSwap c).code cpu m).2 = (op ⟨w, compareAndSwap c⟩ m).1 ∧
      (compareAndSwap c).reply (runBytes (compareAndSwap c).code cpu m).1
        = (op ⟨w, compareAndSwap c⟩ m).2 := by
  have honce := (compareAndSwap c).once
  rw [code, List.countP_map] at honce
  obtain ⟨a, hacc, hrun⟩ := runBytes_of_once honce cpu m
  obtain ⟨hmem, hal, haccessed⟩ := execAll_code h (m.load w)
  have ha : a = c.target := by
    rw [hacc] at haccessed
    exact List.singleton_inj.mp haccessed
  rw [code, hrun, ha]
  constructor
  · refine congrArg (m.store c.target) ?_
    rw [hmem, targetOp, target, writes]
    split
    · exact Function.update_self ..
    · rfl
  · rw [reply, hal, targetOp, op, target, answer]
    split <;> rfl

theorem does_bits {c : BitCall w} (h : (bits c).Enters cpu) (m : Bytes 64) :
    (runBytes (bits c).code cpu m).2 = (op ⟨w, bits c⟩ m).1 ∧
      (bits c).reply (runBytes (bits c).code cpu m).1 = (op ⟨w, bits c⟩ m).2 := by
  obtain ⟨hrdi, hrsi⟩ := h
  refine ⟨?_, rfl⟩
  rw [op, target, ← hrdi]
  cases c with
  | store8 ptr val => exact congrArg (m.store cpu.rdi) hrsi
  | or8 ptr val | or ptr val => exact congrArg (fun v => m.store cpu.rdi (m.load _ cpu.rdi ||| v)) hrsi
  | and8 ptr val | and ptr val =>
      exact congrArg (fun v => m.store cpu.rdi (m.load _ cpu.rdi &&& v)) hrsi

end AtomicCall

theorem routines_once : routines.Once := by
  intro c
  rw [← c.2.once]
  exact List.countP_map

/-- Nobody interrupts the call. -/
theorem routines_does {c : AnyCall} (hwhole : c.2.Whole) : routines.Does AtomicCall.op c := by
  intro cpu m h
  obtain ⟨w, c⟩ := c
  cases c with
  | register c =>
      obtain ⟨hmem, hreply⟩ := AtomicCall.does_register h m
      exact ⟨hmem, hreply hwhole⟩
  | compareAndSwap c => exact AtomicCall.does_compareAndSwap h m
  | bits c => exact AtomicCall.does_bits h m

/-- What a load reads does not matter to the memory. -/
theorem routines_mute_does (c : AnyCall) : routines.mute.Does AtomicCall.mute c := by
  refine Routines.does_mute fun cpu m h => ?_
  obtain ⟨w, c⟩ := c
  cases c with
  | register c => exact (AtomicCall.does_register h m).1
  | compareAndSwap c => exact (AtomicCall.does_compareAndSwap h m).1
  | bits c => exact (AtomicCall.does_bits h m).1

/-! ## Interleavings -/

namespace AtomicCall

/-- A caller can put the arguments into the registers. -/
theorem exists_enters (c : AtomicCall w) : ∃ cpu, c.Enters cpu := by
  have hcall : ∀ call : Call w, w ≤ 64 → call.rdx = 0 →
      ∃ cpu, call.Enters cpu ∧ cpu.read w .rdx = 0 := by
    intro call hw hrdx
    obtain ⟨cpu, hcpu⟩ := call.exists_enters hw
    exact ⟨cpu, hcpu, hcpu.2.2.trans hrdx⟩
  cases c with
  | register c =>
      cases c with
      | load v addr => exact ⟨⟨0, addr, 0, 0, false⟩, rfl⟩
      | store v addr val =>
          obtain ⟨cpu, hcpu, hrdx⟩ := hcall (RegisterCall.storeCall addr 0 v val)
            (RegisterCall.Variant.width_le v) (by rw [RegisterCall.storeCall_eq])
          refine ⟨cpu, ?_⟩
          rw [Enters, RegisterCall.Enters, hrdx]
          exact hcpu
      | swap v addr new =>
          obtain ⟨cpu, hcpu, hrdx⟩ := hcall (RegisterCall.swapCall addr 0 v new)
            (RegisterCall.Variant.width_le v) (by rw [RegisterCall.swapCall_eq])
          refine ⟨cpu, ?_⟩
          rw [Enters, RegisterCall.Enters, hrdx]
          exact hcpu
      | add c =>
          obtain ⟨cpu, hcpu, hrdx⟩ := hcall (c.code 0) c.width_le (by rw [AddCall.code_eq])
          refine ⟨cpu, ?_⟩
          rw [Enters, RegisterCall.Enters, hrdx]
          exact hcpu
  | compareAndSwap c => exact c.code.exists_enters c.width_le
  | bits c =>
      have hfit : ∀ v : BitVec w, w ≤ 64 → (v.setWidth 64).setWidth w = v := by
        intro v hw
        rw [BitVec.setWidth_setWidth_of_le _ hw, BitVec.setWidth_eq]
      refine ⟨⟨0, c.code.rdi, c.code.rsi.setWidth 64, 0, false⟩, rfl, hfit _ ?_⟩
      cases c <;> decide

/-- A call is entered, runs four instructions at most, and returns. -/
theorem length_code_le (c : AtomicCall w) : c.code.length ≤ 4 := by
  cases c with
  | register c =>
      cases c with
      | load v addr => exact (by decide : 2 ≤ 4)
      | store v addr val =>
          simp only [code, RegisterCall.code, RegisterCall.storeCall_eq]
          exact (by decide : 2 ≤ 4)
      | swap v addr new =>
          simp only [code, RegisterCall.code, RegisterCall.swapCall_eq]
          exact (by decide : 3 ≤ 4)
      | add c =>
          simp only [code, RegisterCall.code, AddCall.code_eq]
          exact (by decide : 4 ≤ 4)
  | compareAndSwap c =>
      rw [code, congrArg Call.body c.code_eq]
      exact (by decide : 4 ≤ 4)
  | bits c => cases c <;> exact (by decide : 2 ≤ 4)

end AtomicCall

end Challenges.Atomics

import Challenges.Atomics.Machine

/-!
# Program — `atomic.c`

The functions of the interface hand their arguments to the routines of
`atomic_amd64.s`, with casts that keep the bits. `uintptr_t` and pointers
have 64 bits. A routine of two arguments gets none in `%rdx`, and `rdx` is
what happens to be there.
-/

namespace Challenges.Atomics

/-! ## `atomic_amd64.s` -/

/-- `_cas` -/
def cas (ptr : Address) (old new : Int32) : Call 32 where
  body := [
    .mov .rsi .rax,           -- movl %esi, %eax
    .lockCmpxchg .rdx .rdi,   -- lock cmpxchg %edx, (%rdi)
    .sete,
    .ret]
  rdi := ptr
  rsi := old.toBitVec
  rdx := new.toBitVec

/-- `_casp1`, with `%rsi` where `_cas64` has `%rdi` -/
def casp1 (val old new : Address) : Call 64 where
  body := [
    .mov .rsi .rax,           -- mov %rsi, %rax
    .lockCmpxchg .rdx .rsi,   -- lock cmpxchg %rdx, (%rsi)
    .sete,
    .ret]
  rdi := val
  rsi := old
  rdx := new

/-- `_cas64` -/
def cas64 (val : Address) (old new : Int64) : Call 64 where
  body := [
    .mov .rsi .rax,           -- movq %rsi, %rax
    .lockCmpxchg .rdx .rdi,   -- lock cmpxchg %rdx, (%rdi)
    .sete,
    .ret]
  rdi := val
  rsi := old.toBitVec
  rdx := new.toBitVec

/-- `_xadd` -/
def xadd (val : Address) (delta : Int32) (rdx : BitVec 32) : Call 32 where
  body := [
    .mov .rsi .rax,           -- movl %esi, %eax
    .lockXadd .rax .rdi,      -- lock xaddl %eax, (%rdi)
    .add .rsi .rax,           -- addl %esi, %eax
    .ret]
  rdi := val
  rsi := delta.toBitVec
  rdx := rdx

/-- `_xadd64` -/
def xadd64 (val : Address) (delta : Int64) (rdx : BitVec 64) : Call 64 where
  body := [
    .mov .rsi .rax,           -- movq %rsi, %rax
    .lockXadd .rax .rdi,      -- lock xaddq %rax, (%rdi)
    .add .rsi .rax,           -- addq %rsi, %rax
    .ret]
  rdi := val
  rsi := delta.toBitVec
  rdx := rdx

/-- `_xchg` -/
def xchg (ptr : Address) (new : UInt32) (rdx : BitVec 32) : Call 32 where
  body := [
    .mov .rsi .rax,           -- movl %esi, %eax
    .xchg .rax .rdi,          -- xchgl %eax, (%rdi)
    .ret]
  rdi := ptr
  rsi := new.toBitVec
  rdx := rdx

/-- `_xchg64` -/
def xchg64 (ptr : Address) (new : UInt64) (rdx : BitVec 64) : Call 64 where
  body := [
    .mov .rsi .rax,           -- movq %rsi, %rax
    .xchg .rax .rdi,          -- xchg %rax, (%rdi)
    .ret]
  rdi := ptr
  rsi := new.toBitVec
  rdx := rdx

/-- `_xchgp`, which jumps to `_xchg64` -/
def xchgp (ptr new : Address) (rdx : BitVec 64) : Call 64 := xchg64 ptr ⟨new⟩ rdx

/-- `_store` -/
def store (ptr : Address) (val : UInt32) (rdx : BitVec 32) : Call 32 where
  body := [
    .xchg .rsi .rdi,          -- xchgl %esi, (%rdi)
    .ret]
  rdi := ptr
  rsi := val.toBitVec
  rdx := rdx

/-- `_store64` -/
def store64 (ptr : Address) (val : UInt64) (rdx : BitVec 64) : Call 64 where
  body := [
    .xchg .rsi .rdi,          -- xchgq %rsi, (%rdi)
    .ret]
  rdi := ptr
  rsi := val.toBitVec
  rdx := rdx

/-- `_storep`, which jumps to `_store64` -/
def storep (ptr val : Address) (rdx : BitVec 64) : Call 64 := store64 ptr ⟨val⟩ rdx

/-! ## `atomic_amd64.c` -/

/-- `_load` -/
def load (ptr : Address) (m : Memory 32) : UInt32 := ⟨m ptr⟩

/-- `_loadp` -/
def loadp (ptr : Address) (m : Memory 64) : Address := m ptr

/-- `_load64` -/
def load64 (ptr : Address) (m : Memory 64) : UInt64 := ⟨m ptr⟩

/-! ## `atomic.c` -/

def swapInt32 (addr : Address) (new : Int32) (rdx : BitVec 32) : Call 32 :=
  xchg addr new.toUInt32 rdx

def swapInt64 (addr : Address) (new : Int64) (rdx : BitVec 64) : Call 64 :=
  xchg64 addr new.toUInt64 rdx

def swapUint32 (addr : Address) (new : UInt32) (rdx : BitVec 32) : Call 32 := xchg addr new rdx

def swapUint64 (addr : Address) (new : UInt64) (rdx : BitVec 64) : Call 64 := xchg64 addr new rdx

def swapUintptr (addr : Address) (new : UInt64) (rdx : BitVec 64) : Call 64 := xchg64 addr new rdx

def swapPointer (addr new : Address) (rdx : BitVec 64) : Call 64 := xchgp addr new rdx

def compareAndSwapInt32 (addr : Address) (old new : Int32) : Call 32 := cas addr old new

def compareAndSwapInt64 (addr : Address) (old new : Int64) : Call 64 := cas64 addr old new

def compareAndSwapUint32 (addr : Address) (old new : UInt32) : Call 32 :=
  cas addr old.toInt32 new.toInt32

def compareAndSwapUint64 (addr : Address) (old new : UInt64) : Call 64 :=
  cas64 addr old.toInt64 new.toInt64

def compareAndSwapUintptr (addr : Address) (old new : UInt64) : Call 64 :=
  cas64 addr old.toInt64 new.toInt64

def compareAndSwapPointer (addr old new : Address) : Call 64 := casp1 addr old new

def addInt32 (addr : Address) (delta : Int32) (rdx : BitVec 32) : Call 32 :=
  xadd addr delta.toUInt32.toInt32 rdx

def addUint32 (addr : Address) (delta : UInt32) (rdx : BitVec 32) : Call 32 :=
  xadd addr delta.toInt32 rdx

def addInt64 (addr : Address) (delta : Int64) (rdx : BitVec 64) : Call 64 :=
  xadd64 addr delta.toUInt64.toInt64 rdx

def addUint64 (addr : Address) (delta : UInt64) (rdx : BitVec 64) : Call 64 :=
  xadd64 addr delta.toInt64 rdx

def addUintptr (addr : Address) (delta : UInt64) (rdx : BitVec 64) : Call 64 :=
  xadd64 addr delta.toInt64 rdx

/-- `load_int32` reads nothing. -/
def loadInt32 (_addr : Address) (_m : Memory 32) : Int32 := 0

def loadInt64 (addr : Address) (m : Memory 64) : Int64 := (load64 addr m).toInt64

def loadUint32 (addr : Address) (m : Memory 32) : UInt32 := load addr m

def loadUint64 (addr : Address) (m : Memory 64) : UInt64 := load64 addr m

def loadUintptr (addr : Address) (m : Memory 64) : UInt64 := load64 addr m

def loadPointer (addr : Address) (m : Memory 64) : Address := loadp addr m

def storeInt32 (addr : Address) (val : Int32) (rdx : BitVec 32) : Call 32 :=
  store addr val.toUInt32 rdx

def storeInt64 (addr : Address) (val : Int64) (rdx : BitVec 64) : Call 64 :=
  store64 addr val.toUInt64 rdx

def storeUint32 (addr : Address) (val : UInt32) (rdx : BitVec 32) : Call 32 := store addr val rdx

def storeUint64 (addr : Address) (val : UInt64) (rdx : BitVec 64) : Call 64 := store64 addr val rdx

def storeUintptr (addr : Address) (val : UInt64) (rdx : BitVec 64) : Call 64 :=
  store64 addr val rdx

def storePointer (addr val : Address) (rdx : BitVec 64) : Call 64 := storep addr val rdx

/-! ## The functions as interfaces -/

/-- A call of a compare-and-swap function; those of one width work on one memory. -/
inductive CasCall : Nat → Type where
  | int32 (addr : Address) (old new : Int32) : CasCall 32
  | uint32 (addr : Address) (old new : UInt32) : CasCall 32
  | int64 (addr : Address) (old new : Int64) : CasCall 64
  | uint64 (addr : Address) (old new : UInt64) : CasCall 64
  | uintptr (addr : Address) (old new : UInt64) : CasCall 64
  | pointer (addr old new : Address) : CasCall 64

namespace CasCall

/-- What the function runs. -/
def code {w : Nat} : CasCall w → Call w
  | int32 addr old new => compareAndSwapInt32 addr old new
  | uint32 addr old new => compareAndSwapUint32 addr old new
  | int64 addr old new => compareAndSwapInt64 addr old new
  | uint64 addr old new => compareAndSwapUint64 addr old new
  | uintptr addr old new => compareAndSwapUintptr addr old new
  | pointer addr old new => compareAndSwapPointer addr old new

/-- The first argument. -/
def addr {w : Nat} : CasCall w → Address
  | int32 addr _ _ | uint32 addr _ _ | int64 addr _ _ | uint64 addr _ _ | uintptr addr _ _
  | pointer addr _ _ => addr

/-- The word that is expected. -/
def old {w : Nat} : CasCall w → BitVec w
  | int32 _ old _ => old.toBitVec
  | uint32 _ old _ => old.toBitVec
  | int64 _ old _ => old.toBitVec
  | uint64 _ old _ => old.toBitVec
  | uintptr _ old _ => old.toBitVec
  | pointer _ old _ => old

/-- The word to install. -/
def new {w : Nat} : CasCall w → BitVec w
  | int32 _ _ new => new.toBitVec
  | uint32 _ _ new => new.toBitVec
  | int64 _ _ new => new.toBitVec
  | uint64 _ _ new => new.toBitVec
  | uintptr _ _ new => new.toBitVec
  | pointer _ _ new => new

end CasCall

/-- The six functions return the byte in `%al`. -/
def casApi (w : Nat) : Api (CasCall w) w (BitVec 8) := ⟨CasCall.code, Cpu.al⟩

/-- A call of an add function. -/
inductive AddCall : Nat → Type where
  | int32 (addr : Address) (delta : Int32) : AddCall 32
  | uint32 (addr : Address) (delta : UInt32) : AddCall 32
  | int64 (addr : Address) (delta : Int64) : AddCall 64
  | uint64 (addr : Address) (delta : UInt64) : AddCall 64
  | uintptr (addr : Address) (delta : UInt64) : AddCall 64

namespace AddCall

/-- What the function runs. -/
def code {w : Nat} : AddCall w → BitVec w → Call w
  | int32 addr delta => addInt32 addr delta
  | uint32 addr delta => addUint32 addr delta
  | int64 addr delta => addInt64 addr delta
  | uint64 addr delta => addUint64 addr delta
  | uintptr addr delta => addUintptr addr delta

/-- The first argument. -/
def addr {w : Nat} : AddCall w → Address
  | int32 addr _ | uint32 addr _ | int64 addr _ | uint64 addr _ | uintptr addr _ => addr

/-- The number to add. -/
def delta {w : Nat} : AddCall w → Int
  | int32 _ delta => delta.toInt
  | uint32 _ delta => delta.toNat
  | int64 _ delta => delta.toInt
  | uint64 _ delta => delta.toNat
  | uintptr _ delta => delta.toNat

end AddCall

/-- The add functions return what is in `%eax` or `%rax`. A call comes with
what is in `%rdx` when it is made. -/
def addApi (w : Nat) : Api (AddCall w × BitVec w) w (BitVec w) :=
  ⟨fun c => c.1.code c.2, fun cpu => cpu.read w .rax⟩

/-- The types that the functions come in; those of one width work on one
memory. -/
inductive Variant : Nat → Type where
  | int32 : Variant 32
  | uint32 : Variant 32
  | int64 : Variant 64
  | uint64 : Variant 64
  | uintptr : Variant 64
  | pointer : Variant 64

/-- The numbers of a type. -/
abbrev Variant.Value {w : Nat} : Variant w → Type
  | int32 => Int32
  | uint32 => UInt32
  | int64 => Int64
  | uint64 => UInt64
  | uintptr => UInt64
  | pointer => Address

/-- A call of a load, store, swap or add function. -/
inductive RegisterCall (w : Nat) where
  | load (v : Variant w) (addr : Address)
  | store (v : Variant w) (addr : Address) (val : v.Value)
  | swap (v : Variant w) (addr : Address) (new : v.Value)
  | add (c : AddCall w)

/-- What a function does: it reads the memory itself, or hands its arguments
to a routine. -/
inductive Code (w : Nat) where
  | reads (value : Memory w → BitVec w)
  | routine (call : Call w)

/-- The registers hold the arguments, the first of them being `addr`. -/
def Code.Enters {w : Nat} (addr : Address) (cpu : Cpu) : Code w → Prop
  | reads _ => cpu.rdi = addr
  | routine call => call.Enters cpu

instance {w : Nat} (addr : Address) (cpu : Cpu) : (code : Code w) → Decidable (code.Enters addr cpu)
  | .reads _ => inferInstanceAs (Decidable (cpu.rdi = addr))
  | .routine call => inferInstanceAs (Decidable (call.Enters cpu))

namespace RegisterCall

variable {w : Nat}

/-- The first argument. -/
def addr : RegisterCall w → Address
  | load _ addr | store _ addr _ | swap _ addr _ => addr
  | add c => c.addr

/-- The bits that are returned. -/
def loadBits (addr : Address) (m : Memory w) : Variant w → BitVec w
  | .int32 => (loadInt32 addr m).toBitVec
  | .uint32 => (loadUint32 addr m).toBitVec
  | .int64 => (loadInt64 addr m).toBitVec
  | .uint64 => (loadUint64 addr m).toBitVec
  | .uintptr => (loadUintptr addr m).toBitVec
  | .pointer => loadPointer addr m

def storeCall (addr : Address) (rdx : BitVec w) : (v : Variant w) → v.Value → Call w
  | .int32, val => storeInt32 addr val rdx
  | .uint32, val => storeUint32 addr val rdx
  | .int64, val => storeInt64 addr val rdx
  | .uint64, val => storeUint64 addr val rdx
  | .uintptr, val => storeUintptr addr val rdx
  | .pointer, val => storePointer addr val rdx

def swapCall (addr : Address) (rdx : BitVec w) : (v : Variant w) → v.Value → Call w
  | .int32, new => swapInt32 addr new rdx
  | .uint32, new => swapUint32 addr new rdx
  | .int64, new => swapInt64 addr new rdx
  | .uint64, new => swapUint64 addr new rdx
  | .uintptr, new => swapUintptr addr new rdx
  | .pointer, new => swapPointer addr new rdx

def code : RegisterCall w → BitVec w → Code w
  | load v addr, _ => .reads fun m => loadBits addr m v
  | store v addr val, rdx => .routine (storeCall addr rdx v val)
  | swap v addr new, rdx => .routine (swapCall addr rdx v new)
  | add c, rdx => .routine (c.code rdx)

/-- The store functions are `void`. -/
def isVoid : RegisterCall w → Bool
  | store .. => true
  | _ => false

/-- The registers hold the arguments. -/
def Enters (c : RegisterCall w) (cpu : Cpu) : Prop :=
  (c.code (cpu.read w .rdx)).Enters c.addr cpu

instance (c : RegisterCall w) (cpu : Cpu) : Decidable (c.Enters cpu) :=
  inferInstanceAs (Decidable ((c.code (cpu.read w .rdx)).Enters c.addr cpu))

/-- A call that nobody interrupts: the memory, and what is returned. -/
def exec (c : RegisterCall w) (cpu : Cpu) (m : Memory w) : Memory w × Option (BitVec w) :=
  match c.code (cpu.read w .rdx) with
  | .reads value => (m, some (value m))
  | .routine call =>
      let out := execAll call.body cpu m
      (out.mem, if c.isVoid then none else some (out.cpu.read w .rax))

/-- One call after the other; each comes with what the registers hold. -/
def execCalls : List (RegisterCall w × Cpu) → Memory w → Memory w × List (Option (BitVec w))
  | [], m => (m, [])
  | (c, cpu) :: rest, m =>
      let (m, reply) := c.exec cpu m
      let (m, replies) := execCalls rest m
      (m, reply :: replies)

end RegisterCall

end Challenges.Atomics

import Challenges.Lib.Loop
import Challenges.Lib.Memory64

/-!
# Program — `fixalloc.go` and `gocruntime/fixalloc.c`

An allocator of blocks of one size, on a 64-bit machine, in Go and again in
C. Free blocks are linked through their own first word; when there is none,
a block is cut from the current chunk. `uintptr` and pointers are `UInt64`,
`uint32` is `UInt32`; nil is 0.

The Go runtime is outside the repository. `persistentAlloc` gives an
arbitrary sequence of answers, each an address and the contents found
there, and each call is recorded in `regions`; `memclrNoHeapPointers` is any
function on memories. What is assumed of the two is stated by `Fresh` and
`Clears`.
-/

namespace Challenges.Slab

open Challenges.Lib

abbrev nil : UInt64 := 0

/-- `_FixAllocChunk` -/
def fixAllocChunk : UInt64 := (0x10 : UInt64) <<< 10

/-- The size of an `mlink`, which is one pointer. -/
def sizeofMlink : UInt64 := 8

structure Fixalloc where
  size : UInt64
  list : UInt64
  chunk : UInt64
  nchunk : UInt32
  nalloc : UInt32
  inuse : UInt64
  zero : Bool
  deriving DecidableEq, Repr

/-- Memory that `persistentAlloc` returned. -/
structure Region where
  addr : UInt64
  size : UInt64
  deriving DecidableEq, Repr

/-- The allocator, the memory, and the regions handed out so far. -/
structure World where
  f : Fixalloc
  mem : Mem64
  regions : List Region

/-- What the allocator calls of the Go runtime. -/
structure Runtime where
  /-- the address that the `k`-th call returns, and the bytes from there on -/
  persistentAlloc : Nat → UInt64 × (UInt64 → UInt8)
  memclrNoHeapPointers : Mem64 → UInt64 → UInt64 → Mem64

/-- Programs; `panic` in Go and `throw` in C end them with a message. -/
abbrev Prog := StateT World (Except String)

/-- A load of `v.next`. -/
def load64 (a : UInt64) : Prog UInt64 := do
  return (← get).mem.load64 a

def store64 (a v : UInt64) : Prog Unit :=
  modify fun w => { w with mem := w.mem.store64 a v }

/-- An assignment to fields of `f`. -/
def modifyF (g : Fixalloc → Fixalloc) : Prog Unit :=
  modify fun w => { w with f := g w.f }

/-- `memclrNoHeapPointers(v, n)` and `memclr_noheap_pointers(v, n)`. -/
def memclr (rt : Runtime) (v n : UInt64) : Prog Unit :=
  modify fun w => { w with mem := rt.memclrNoHeapPointers w.mem v n }

/-- The world after `persistentAlloc(size, 0, nil)`. -/
def World.granted (rt : Runtime) (w : World) (size : UInt64) : World :=
  let (addr, bytes) := rt.persistentAlloc w.regions.length
  { w with mem := w.mem.overlay addr size bytes, regions := w.regions ++ [⟨addr, size⟩] }

/-- `persistentAlloc(size, 0, nil)` and `persistent_alloc(size, 0, NULL)`. -/
def persistentAlloc (rt : Runtime) (size : UInt64) : Prog UInt64 := do
  let w ← get
  set (w.granted rt size)
  return (rt.persistentAlloc w.regions.length).1

/-! ## The Go code -/

namespace Go

def init (size : UInt64) : Prog Unit := do
  if size > fixAllocChunk then
    throw "fixalloc: fixalloc size too large"
  let min := sizeofMlink
  let size := if size < min then min else size
  modifyF fun _ =>
    { size := size
      list := nil
      chunk := 0
      nchunk := 0
      nalloc := (fixAllocChunk / size * size).toUInt32
      inuse := 0
      zero := true }

def alloc (rt : Runtime) : Prog UInt64 := do
  let f := (← get).f
  if f.size = 0 then
    throw "fixalloc: use of FixAlloc_Alloc before FixAlloc_Init"
  if f.list ≠ nil then
    let v := f.list
    let next ← load64 f.list
    modifyF fun f => { f with list := next }
    modifyF fun f => { f with inuse := f.inuse + f.size }
    if f.zero then
      memclr rt v f.size
    return v
  if f.nchunk.toUInt64 < f.size then
    let chunk ← persistentAlloc rt f.nalloc.toUInt64
    modifyF fun f => { f with chunk := chunk }
    modifyF fun f => { f with nchunk := f.nalloc }
  let v := (← get).f.chunk
  modifyF fun f => { f with chunk := f.chunk + f.size }
  modifyF fun f => { f with nchunk := f.nchunk - f.size.toUInt32 }
  modifyF fun f => { f with inuse := f.inuse + f.size }
  return v

def free (p : UInt64) : Prog Unit := do
  modifyF fun f => { f with inuse := f.inuse - f.size }
  let v := p
  store64 v (← get).f.list
  modifyF fun f => { f with list := v }

end Go

/-! ## The C code

`nchunk -= size` is computed in 64 bits, and the block is returned after
`chunk` has moved past it. -/

namespace C

def init (size : UInt64) : Prog Unit := do
  if size > fixAllocChunk then
    throw "fixalloc: fixalloc size too large"
  let min := sizeofMlink
  let size := if size < min then min else size
  modifyF fun _ =>
    { size := size
      list := nil
      chunk := 0
      nchunk := 0
      nalloc := (fixAllocChunk / size * size).toUInt32
      inuse := 0
      zero := true }

def alloc (rt : Runtime) : Prog UInt64 := do
  let f := (← get).f
  if f.size = 0 then
    throw "fixalloc: use of FixAlloc_Alloc before FixAlloc_Init"
  if f.list ≠ nil then
    let v := f.list
    let next ← load64 f.list
    modifyF fun f => { f with list := next }
    modifyF fun f => { f with inuse := f.inuse + f.size }
    if f.zero then
      memclr rt v f.size
    return v
  if f.nchunk.toUInt64 < f.size then
    let chunk ← persistentAlloc rt f.nalloc.toUInt64
    modifyF fun f => { f with chunk := chunk }
    modifyF fun f => { f with nchunk := f.nalloc }
  modifyF fun f => { f with chunk := f.chunk + f.size }
  modifyF fun f => { f with nchunk := (f.nchunk.toUInt64 - f.size).toUInt32 }
  modifyF fun f => { f with inuse := f.inuse + f.size }
  return (← get).f.chunk

def dealloc (p : UInt64) : Prog Unit := do
  modifyF fun f => { f with inuse := f.inuse - f.size }
  let v := p
  store64 v (← get).f.list
  modifyF fun f => { f with list := v }

end C

/-! ## What the code does, as functions on worlds -/

namespace World

variable (rt : Runtime) (w : World)

/-- After `init(size)`, for a size that is not refused. -/
def prepared (w : World) (size : UInt64) : World :=
  let size := if size < sizeofMlink then sizeofMlink else size
  { w with f := ⟨size, nil, 0, 0, (fixAllocChunk / size * size).toUInt32, 0, true⟩ }

/-- The first free block is taken off the list and cleared. -/
def recycled : World :=
  { w with
    f := { w.f with list := w.mem.load64 w.f.list, inuse := w.f.inuse + w.f.size }
    mem := if w.f.zero then rt.memclrNoHeapPointers w.mem w.f.list w.f.size else w.mem }

/-- There is a chunk with room for a block. -/
def refilled : World :=
  if w.f.nchunk.toUInt64 < w.f.size then
    let w' := w.granted rt w.f.nalloc.toUInt64
    { w' with
      f := { w.f with
        chunk := (rt.persistentAlloc w.regions.length).1
        nchunk := w.f.nalloc } }
  else w

/-- The next block of the chunk is taken. -/
def bumped : World :=
  { w with
    f := { w.f with
      chunk := w.f.chunk + w.f.size
      nchunk := w.f.nchunk - w.f.size.toUInt32
      inuse := w.f.inuse + w.f.size } }

/-- `p` is put on the list. -/
def freed (p : UInt64) : World :=
  { w with
    f := { w.f with list := p, inuse := w.f.inuse - w.f.size }
    mem := w.mem.store64 p w.f.list }

end World

section Run

variable (rt : Runtime) (w : World)

@[simp] theorem run_load64 (a : UInt64) : (load64 a).run w = .ok (w.mem.load64 a, w) := rfl

@[simp] theorem run_store64 (a v : UInt64) :
    (store64 a v).run w = .ok ((), { w with mem := w.mem.store64 a v }) := rfl

@[simp] theorem run_modifyF (g : Fixalloc → Fixalloc) :
    (modifyF g).run w = .ok ((), { w with f := g w.f }) := rfl

@[simp] theorem run_memclr (v n : UInt64) :
    (memclr rt v n).run w
      = .ok ((), { w with mem := rt.memclrNoHeapPointers w.mem v n }) := rfl

@[simp] theorem run_persistentAlloc (size : UInt64) :
    (persistentAlloc rt size).run w
      = .ok ((rt.persistentAlloc w.regions.length).1, w.granted rt size) := rfl

end Run

section Spec

variable {rt : Runtime} {w : World}

theorem Go.run_init {size : UInt64} (h : size ≤ fixAllocChunk) :
    (Go.init size).run w = .ok ((), w.prepared size) := by
  have hle : ¬ size > fixAllocChunk := UInt64.not_lt.mpr h
  simp [Go.init, hle, World.prepared]

theorem C.run_init {size : UInt64} (h : size ≤ fixAllocChunk) :
    (C.init size).run w = .ok ((), w.prepared size) := Go.run_init h

/-- A recycled block is the head of the list. -/
theorem Go.run_alloc_recycled (hsize : w.f.size ≠ 0) (hlist : w.f.list ≠ nil) :
    (Go.alloc rt).run w = .ok (w.f.list, w.recycled rt) := by
  cases hzero : w.f.zero <;> simp [Go.alloc, hsize, hlist, hzero, World.recycled]

theorem C.run_alloc_recycled (hsize : w.f.size ≠ 0) (hlist : w.f.list ≠ nil) :
    (C.alloc rt).run w = .ok (w.f.list, w.recycled rt) := by
  cases hzero : w.f.zero <;> simp [C.alloc, hsize, hlist, hzero, World.recycled]

/-- Go hands out the start of the chunk. -/
theorem Go.run_alloc_bumped (hsize : w.f.size ≠ 0) (hlist : w.f.list = nil) :
    (Go.alloc rt).run w = .ok ((w.refilled rt).f.chunk, (w.refilled rt).bumped) := by
  by_cases hroom : w.f.nchunk.toUInt64 < w.f.size <;>
    simp [Go.alloc, hsize, hlist, hroom, World.refilled, World.granted, World.bumped]

/-- C hands out where the chunk starts afterwards. -/
theorem C.run_alloc_bumped (hsize : w.f.size ≠ 0) (hlist : w.f.list = nil) :
    (C.alloc rt).run w
      = .ok ((w.refilled rt).bumped.f.chunk, (w.refilled rt).bumped) := by
  by_cases hroom : w.f.nchunk.toUInt64 < w.f.size <;>
    simp [C.alloc, hsize, hlist, hroom, World.refilled, World.granted, World.bumped]

theorem Go.run_free (p : UInt64) : (Go.free p).run w = .ok ((), w.freed p) := rfl

theorem C.run_dealloc (p : UInt64) : (C.dealloc p).run w = .ok ((), w.freed p) := rfl

end Spec

end Challenges.Slab

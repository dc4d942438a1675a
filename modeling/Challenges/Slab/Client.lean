import Challenges.Lib.Run
import Challenges.Slab.Program

/-!
# Client — runs of the allocator

A client allocates, gives back what it holds, and writes into it, in any
order. The two versions do the same in every call but one: `Effect` says
once what a call can do, and is given where a version finds the block that
it cuts from a chunk.
-/

namespace Challenges.Slab

open Challenges.Lib

/-- What a client does. -/
inductive Op where
  | alloc
  | free (p : UInt64)
  /-- a store of the client's own, `off` bytes above `p` -/
  | write (p off : UInt64) (byte : UInt8)
  deriving DecidableEq, Repr

/-- The entry points of a version. -/
structure Version where
  init : UInt64 → Prog Unit
  alloc : Runtime → Prog UInt64
  free : UInt64 → Prog Unit

def Go.version : Version := ⟨Go.init, Go.alloc, Go.free⟩

def C.version : Version := ⟨C.init, C.alloc, C.dealloc⟩

/-- The world, and the blocks the client holds. -/
structure Sys where
  world : World
  live : List UInt64

/-- One call: what it returns, and the system after it. -/
def Version.perform (V : Version) (rt : Runtime) (sys : Sys) :
    Op → Except String (UInt64 × Sys)
  | .alloc => do
      let (v, w) ← (V.alloc rt).run sys.world
      return (v, ⟨w, v :: sys.live⟩)
  | .free p => do
      let (_, w) ← (V.free p).run sys.world
      return (nil, ⟨w, sys.live.erase p⟩)
  | .write p off byte =>
      let w := sys.world
      return (nil, ⟨{ w with mem := w.mem.store8 (p + off) byte }, sys.live⟩)

/-- Frees of live blocks, and stores inside them. -/
def Matched (sys : Sys) : Op → Prop
  | .alloc => True
  | .free p => p ∈ sys.live
  | .write p off _ => p ∈ sys.live ∧ off < sys.world.f.size

instance (sys : Sys) (op : Op) : Decidable (Matched sys op) :=
  match op with
  | .alloc => isTrue trivial
  | .free p => inferInstanceAs (Decidable (p ∈ sys.live))
  | .write p off _ => inferInstanceAs (Decidable (p ∈ sys.live ∧ off < sys.world.f.size))

/-! ## What is assumed of the runtime -/

/-- `memclrNoHeapPointers` clears the range it is given, and nothing else. -/
def Clears (rt : Runtime) : Prop := ∀ m p n, rt.memclrNoHeapPointers m p n = m.clear p n

/-- The address behind a region. -/
def Region.stop (r : Region) : Nat := r.addr.toNat + r.size.toNat

def Region.Apart (r s : Region) : Prop := r.stop ≤ s.addr.toNat ∨ s.stop ≤ r.addr.toNat

instance (r s : Region) : Decidable (r.Apart s) :=
  inferInstanceAs (Decidable (r.stop ≤ s.addr.toNat ∨ s.stop ≤ r.addr.toNat))

/-- `persistentAlloc` has returned pairwise disjoint memory, never nil. -/
def Fresh (rs : List Region) : Prop :=
  (∀ r ∈ rs, r.addr ≠ nil ∧ r.stop ≤ 2 ^ 64) ∧ rs.Pairwise Region.Apart

instance (rs : List Region) : Decidable (Fresh rs) :=
  inferInstanceAs
    (Decidable ((∀ r ∈ rs, r.addr ≠ nil ∧ r.stop ≤ 2 ^ 64) ∧ rs.Pairwise Region.Apart))

/-- One step of a run: a call that is allowed, what it returned, and regions
that are fresh. -/
def Version.Step (V : Version) (rt : Runtime) (Allowed : Sys → Op → Prop) (a : Sys)
    (l : Op × UInt64) (b : Sys) : Prop :=
  Allowed a l.1 ∧ V.perform rt a l.1 = .ok (l.2, b) ∧ Fresh b.world.regions

/-! ## What a call can do -/

/-- The system after a call, where `out` finds the block that a version cuts
from the chunk in `w`. -/
inductive Effect (rt : Runtime) (out : World → UInt64) (a : Sys) : Op → UInt64 → Sys → Prop
  | recycle : a.world.f.list ≠ nil →
      Effect rt out a .alloc a.world.f.list ⟨a.world.recycled rt, a.world.f.list :: a.live⟩
  | bump : a.world.f.list = nil →
      Effect rt out a .alloc (out (a.world.refilled rt))
        ⟨(a.world.refilled rt).bumped, out (a.world.refilled rt) :: a.live⟩
  | free (p : UInt64) : Effect rt out a (.free p) nil ⟨a.world.freed p, a.live.erase p⟩
  | write (p off : UInt64) (byte : UInt8) :
      Effect rt out a (.write p off byte) nil
        ⟨{ a.world with mem := a.world.mem.store8 (p + off) byte }, a.live⟩

/-- The Go code returns the start of the chunk. -/
def Go.out (w : World) : UInt64 := w.f.chunk

/-- The C code returns it once it has moved. -/
def C.out (w : World) : UInt64 := w.bumped.f.chunk

/-- What the two versions have in common. -/
structure Version.Cuts (V : Version) (out : World → UInt64) : Prop where
  recycled : ∀ rt w, w.f.size ≠ 0 → w.f.list ≠ nil →
    (V.alloc rt).run w = .ok (w.f.list, w.recycled rt)
  bumped : ∀ rt w, w.f.size ≠ 0 → w.f.list = nil →
    (V.alloc rt).run w = .ok (out (w.refilled rt), (w.refilled rt).bumped)
  freed : ∀ p w, (V.free p).run w = .ok ((), w.freed p)

theorem Go.cuts : version.Cuts out where
  recycled _ _ hsize hlist := run_alloc_recycled hsize hlist
  bumped _ _ hsize hlist := run_alloc_bumped hsize hlist
  freed p _ := run_free p

theorem C.cuts : version.Cuts out where
  recycled _ _ hsize hlist := run_alloc_recycled hsize hlist
  bumped _ _ hsize hlist := run_alloc_bumped hsize hlist
  freed p _ := run_dealloc p

section Effect

variable {V : Version} {out : World → UInt64} {rt : Runtime} {a b : Sys} {op : Op} {r : UInt64}

/-- After `init`, a call has one of the four effects. -/
theorem Version.Cuts.effect (hV : V.Cuts out) (hsize : a.world.f.size ≠ 0)
    (h : V.perform rt a op = .ok (r, b)) : Effect rt out a op r b := by
  cases op with
  | alloc =>
      by_cases hlist : a.world.f.list = nil
      · simp only [perform, hV.bumped rt _ hsize hlist, ok_bind] at h
        cases h
        exact .bump hlist
      · simp only [perform, hV.recycled rt _ hsize hlist, ok_bind] at h
        cases h
        exact .recycle hlist
  | free p =>
      simp only [perform, hV.freed, ok_bind] at h
      cases h
      exact .free p
  | write p off byte =>
      cases h
      exact .write p off byte

/-- The client holds what it was given. -/
theorem Effect.live_alloc (h : Effect rt out a .alloc r b) : b.live = r :: a.live := by
  cases h <;> rfl

/-- After `init`, no call panics. -/
theorem Version.Cuts.returns (hV : V.Cuts out) (hsize : a.world.f.size ≠ 0) (op : Op) :
    ∃ r b, V.perform rt a op = .ok (r, b) := by
  cases op with
  | alloc =>
      by_cases hlist : a.world.f.list = nil
      · exact ⟨_, _, by simp only [perform, hV.bumped rt _ hsize hlist, ok_bind]; rfl⟩
      · exact ⟨_, _, by simp only [perform, hV.recycled rt _ hsize hlist, ok_bind]; rfl⟩
  | free p => exact ⟨_, _, by simp only [perform, hV.freed, ok_bind]; rfl⟩
  | write p off byte => exact ⟨_, _, rfl⟩

end Effect

/-! ## Playing a script -/

/-- A runtime whose regions lie `step` bytes apart, and read as zero. -/
def regionsFrom (base step : UInt64) : Runtime where
  persistentAlloc k := (base + step * UInt64.ofNat k, fun _ => 0)
  memclrNoHeapPointers := Mem64.clear

theorem regionsFrom_clears (base step : UInt64) : Clears (regionsFrom base step) :=
  fun _ _ _ => rfl

/-- The world before `init`. -/
def World.blank : World := ⟨⟨0, nil, 0, 0, 0, 0, false⟩, fun _ => 0, []⟩


/-- The next step of a run, when there is one. -/
def Version.exec (V : Version) (rt : Runtime) (Allowed : Sys → Op → Prop)
    [∀ sys op, Decidable (Allowed sys op)] (a : Sys) (op : Op) : Option (UInt64 × Sys) :=
  if Allowed a op then
    (V.perform rt a op).toOption.bind fun p =>
      if Fresh p.2.world.regions then some p else none
  else none

theorem Version.step_of_exec {V : Version} {rt : Runtime} {Allowed : Sys → Op → Prop}
    [∀ sys op, Decidable (Allowed sys op)] {a b : Sys} {op : Op} {r : UInt64}
    (h : V.exec rt Allowed a op = some (r, b)) : V.Step rt Allowed a (op, r) b := by
  rw [exec] at h
  split at h
  · rename_i hallowed
    cases hperform : V.perform rt a op with
    | error e => simp [hperform, Except.toOption] at h
    | ok p =>
        rw [hperform, Except.toOption, Option.bind_some, Option.ite_none_right_eq_some] at h
        obtain ⟨hfresh, heq⟩ := h
        cases heq
        exact ⟨hallowed, hperform, hfresh⟩
  · cases h

/-- What is observed after a script is observed after a run. -/
theorem Version.exists_run {γ : Type} (V : Version) (rt : Runtime) (Allowed : Sys → Op → Prop)
    [∀ sys op, Decidable (Allowed sys op)] (a : Sys) (ops : List Op) (rs : List UInt64)
    (obs : Sys → γ) (v : γ)
    (h : ((play (V.exec rt Allowed) ops a).map fun p => (p.1, obs p.2)) = some (rs, v)) :
    ∃ tr b, Run (V.Step rt Allowed) a tr b ∧ labels tr = ops.zip rs ∧ obs b = v := by
  have hexec : ∀ a op r b, V.exec rt Allowed a op = some (r, b) →
      V.Step rt Allowed a (op, r) b := fun _ _ _ _ => step_of_exec
  exact exists_run_of_play hexec h

end Challenges.Slab

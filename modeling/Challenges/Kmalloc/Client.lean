import Challenges.Lib.Run
import Challenges.Kmalloc.SizeClass
import Challenges.Kmalloc.Original

/-!
# Client — runs of calls against an allocator

A client calls `kmalloc`, `kfree` and `realloc` in any order and writes
into the memory it was given. A system is the machine together with the
pointers the client holds; a run is a sequence of calls that the client's
discipline allows and the environment's assumption on `sbrk` covers. The
port and the original are two allocators under the same runs.
-/

namespace Challenges.Kmalloc

open Challenges.Lib

variable {σ : Type}

/-- A pointer the client holds, and the bytes it asked for. -/
structure Handle where
  ptr : UInt32
  req : UInt32
  deriving DecidableEq, Repr

/-- What a client does. -/
inductive Call where
  | kmalloc (nbytes : UInt32)
  | kfree (cp : UInt32)
  | realloc (cp nbytes : UInt32)
  /-- a store of the client's own, `off` bytes above `cp` -/
  | write (cp off : UInt32) (byte : UInt8)
  deriving DecidableEq, Repr

/-- The entry points of an allocator. -/
structure Allocator (σ : Type) where
  kmalloc : UInt32 → M σ UInt32
  kfree : UInt32 → M σ Unit
  realloc : UInt32 → UInt32 → M σ UInt32

/-- `kmalloc.rs` in the release build; `fuel` is for `findbucket`. -/
def Port.allocator (fuel : Nat) : Allocator Port.Statics :=
  ⟨Port.kmalloc release, Port.kfree release, Port.realloc release fuel⟩

/-- `original/kmalloc.c`. -/
def Original.allocator (getpagesize : Int32) (fuel : Nat) : Allocator Original.Statics :=
  ⟨Original.kmalloc getpagesize, Original.kfree, Original.krealloc getpagesize fuel⟩

/-- The machine, and what the client holds. -/
structure Sys (σ : Type) where
  machine : Machine σ
  live : List Handle

/-- Before the first call. -/
def Sys.start (vars : σ) (mem : Mem) (os : Nat → UInt32) : Sys σ :=
  ⟨⟨mem, os, [], vars⟩, []⟩

/-- The port before the first call, on zeroed memory. -/
def Port.boot (os : Nat → UInt32) : Sys Port.Statics :=
  .start .initial (fun _ => 0) os

/-- A break at 4092 and a page for the first `morecore`; the next one is
handed the memory after it. -/
def twoRegions : Nat → UInt32 := fun k => if k ≤ 1 then 4092 else 8188

/-- Two pages as in `twoRegions`, and every later call refused. -/
def twoPages : Nat → UInt32 := fun k =>
  if k ≤ 1 then 4092 else if k = 2 then 8188 else sbrkFailed

/-- The client holds `cp`. -/
def Held (live : List Handle) (cp : UInt32) : Prop := ∃ h ∈ live, h.ptr = cp

/-- A pointer returned for `n` bytes; a null pointer is not held. -/
def handOut (r n : UInt32) (live : List Handle) : List Handle :=
  if r = null then live else ⟨r, n⟩ :: live

/-- `cp` given back. -/
def takeBack (cp : UInt32) (live : List Handle) : List Handle :=
  live.filter (·.ptr ≠ cp)

theorem takeBack_of_not_held {live : List Handle} {cp : UInt32} (h : ¬ Held live cp) :
    takeBack cp live = live := by
  rw [takeBack, List.filter_eq_self]
  intro e he
  simpa using fun heq => h ⟨e, he, heq⟩

@[simp] theorem handOut_null (n : UInt32) (live : List Handle) :
    handOut null n live = live := if_pos rfl

theorem handOut_ne {r : UInt32} (hr : r ≠ null) (n : UInt32) (live : List Handle) :
    handOut r n live = ⟨r, n⟩ :: live := if_neg hr

/-- One call: the value it returns and the system after it. `realloc` has
given its block back also when it returns null. -/
def Allocator.perform (A : Allocator σ) (sys : Sys σ) :
    Call → Except Fault (UInt32 × Sys σ)
  | .kmalloc n => do
      let (r, m) ← (A.kmalloc n).run sys.machine
      return (r, ⟨m, handOut r n sys.live⟩)
  | .kfree cp => do
      let (_, m) ← (A.kfree cp).run sys.machine
      return (null, ⟨m, takeBack cp sys.live⟩)
  | .realloc cp n => do
      let (r, m) ← (A.realloc cp n).run sys.machine
      return (r, ⟨m, handOut r n (takeBack cp sys.live)⟩)
  | .write cp off byte =>
      let m := sys.machine
      return (null, ⟨{ m with mem := m.mem.store8 (cp + off) byte }, sys.live⟩)

/-- One step of a run: a call that is allowed, what it returned, and an
answer of the system that the assumption on its log covers. -/
def Allocator.Step (A : Allocator σ) (Allowed : Sys σ → Call → Prop)
    (Env : List SbrkCall → Prop) (a : Sys σ) (l : Call × UInt32) (b : Sys σ) : Prop :=
  Allowed a l.1 ∧ A.perform a l.1 = .ok (l.2, b) ∧ Env b.machine.log

/-- The discipline of a well-behaved client: requests that the classes
serve, frees of what it holds, and stores inside the bytes it asked for. -/
def Disciplined (sys : Sys σ) : Call → Prop
  | .kmalloc n => n.toNat ≤ maxReq
  | .kfree cp => cp = null ∨ Held sys.live cp
  | .realloc cp n => n.toNat ≤ maxReq ∧ (cp = null ∨ Held sys.live cp)
  | .write cp off _ => ∃ h ∈ sys.live, h.ptr = cp ∧ off < h.req

instance (live : List Handle) (cp : UInt32) : Decidable (Held live cp) :=
  inferInstanceAs (Decidable (∃ h ∈ live, h.ptr = cp))

instance (sys : Sys σ) (c : Call) : Decidable (Disciplined sys c) :=
  match c with
  | .kmalloc n => inferInstanceAs (Decidable (n.toNat ≤ maxReq))
  | .kfree cp => inferInstanceAs (Decidable (cp = null ∨ Held sys.live cp))
  | .realloc cp n =>
      inferInstanceAs (Decidable (n.toNat ≤ maxReq ∧ (cp = null ∨ Held sys.live cp)))
  | .write cp off _ =>
      inferInstanceAs (Decidable (∃ h ∈ sys.live, h.ptr = cp ∧ off < h.req))

section Perform

variable {A : Allocator σ} {sys b : Sys σ} {r : UInt32}

theorem perform_kmalloc {n : UInt32} :
    A.perform sys (.kmalloc n) = .ok (r, b) ↔
      ∃ m, (A.kmalloc n).run sys.machine = .ok (r, m) ∧ b = ⟨m, handOut r n sys.live⟩ := by
  simp only [Allocator.perform]
  cases (A.kmalloc n).run sys.machine with
  | error e => simp
  | ok p => simp [Prod.ext_iff]; grind

theorem perform_kfree {cp : UInt32} :
    A.perform sys (.kfree cp) = .ok (r, b) ↔
      ∃ m, (A.kfree cp).run sys.machine = .ok ((), m) ∧ r = null ∧
        b = ⟨m, takeBack cp sys.live⟩ := by
  simp only [Allocator.perform]
  cases (A.kfree cp).run sys.machine with
  | error e => simp
  | ok p => simp [Prod.ext_iff]; grind

theorem perform_realloc {cp n : UInt32} :
    A.perform sys (.realloc cp n) = .ok (r, b) ↔
      ∃ m, (A.realloc cp n).run sys.machine = .ok (r, m) ∧
        b = ⟨m, handOut r n (takeBack cp sys.live)⟩ := by
  simp only [Allocator.perform]
  cases (A.realloc cp n).run sys.machine with
  | error e => simp
  | ok p => simp [Prod.ext_iff]; grind

/-- A pointer that was returned is held. -/
theorem perform_held {c : Call} (h : A.perform sys c = .ok (r, b)) (hr : r ≠ null) :
    Held b.live r := by
  cases c with
  | kmalloc n =>
      obtain ⟨m, _, rfl⟩ := perform_kmalloc.mp h
      exact ⟨⟨r, n⟩, by simp [handOut_ne hr], rfl⟩
  | kfree cp =>
      obtain ⟨_, _, hnull, _⟩ := perform_kfree.mp h
      exact absurd hnull hr
  | realloc cp n =>
      obtain ⟨m, _, rfl⟩ := perform_realloc.mp h
      exact ⟨⟨r, n⟩, by simp [handOut_ne hr], rfl⟩
  | write cp off byte =>
      cases h
      exact absurd rfl hr

end Perform

/-! ## Playing a script -/

section Play

variable (A : Allocator σ) (Allowed : Sys σ → Call → Prop) (Env : List SbrkCall → Prop)
  [∀ sys c, Decidable (Allowed sys c)] [DecidablePred Env]

/-- Make the calls of a list in turn, and collect what they return; `none`
when one of them is not allowed, faults, or is answered outside the
assumption on `sbrk`. -/
def Allocator.play : List Call → Sys σ → Option (List UInt32 × Sys σ)
  | [], sys => some ([], sys)
  | c :: rest, sys =>
      if Allowed sys c then
        match A.perform sys c with
        | .ok (r, b) =>
            if Env b.machine.log then (play rest b).map fun p => (r :: p.1, p.2) else none
        | .error _ => none
      else none

/-- What the calls returned, and something to look at after the last one. -/
def Allocator.observe {γ : Type} (calls : List Call) (a : Sys σ) (obs : Sys σ → γ) :
    Option (List UInt32 × γ) :=
  (A.play Allowed Env calls a).map fun p => (p.1, obs p.2)

variable {A Allowed Env}

/-- What is observed after a script is observed after a run. -/
theorem exists_run_of_observe {γ : Type} {obs : Sys σ → γ} {v : γ} {calls : List Call} :
    ∀ {rs : List UInt32} {a : Sys σ}, A.observe Allowed Env calls a obs = some (rs, v) →
      ∃ tr b, Run (A.Step Allowed Env) a tr b ∧ labels tr = calls.zip rs ∧ obs b = v := by
  induction calls with
  | nil =>
      intro rs a h
      obtain ⟨_, hobs⟩ := Prod.ext_iff.mp (Option.some.inj h)
      exact ⟨[], a, .nil, rfl, hobs⟩
  | cons c rest ih =>
      intro rs a h
      rw [Allocator.observe, Allocator.play] at h
      split at h
      · rename_i hallowed
        cases hperform : A.perform a c with
        | error e => simp [hperform] at h
        | ok p =>
            obtain ⟨r, b⟩ := p
            simp only [hperform] at h
            split at h
            · rename_i henv
              rw [Option.map_map, Option.map_eq_some_iff] at h
              obtain ⟨q, hq, heq⟩ := h
              obtain ⟨rfl, rfl⟩ := Prod.ext_iff.mp heq
              have hrest : A.observe Allowed Env rest b obs = some (q.1, obs q.2) := by
                rw [Allocator.observe, hq, Option.map_some]
              obtain ⟨tr, b', hrun, hlabels, hobs⟩ := ih hrest
              exact ⟨_, b', hrun.cons (l := (c, r)) ⟨hallowed, hperform, henv⟩,
                congrArg ((c, r) :: ·) hlabels, hobs⟩
            · simp at h
      · simp at h

end Play

end Challenges.Kmalloc

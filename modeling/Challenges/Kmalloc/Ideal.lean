import Mathlib.Data.List.Induction
import Challenges.Kmalloc.Heap

/-!
# Ideal — what the allocator is for

The allocator with no memory behind it. A free list is a list of blocks, a
block in use is an object that carries what its client has stored, and the
calls of `sbrk` are all there is besides. `realloc` is a `kfree` and then a
`kmalloc` whose block gets the bytes of the old one: when the class is the same,
that block is the old one, since it is on top of its list by then.
-/

namespace Challenges.Kmalloc

open Challenges.Lib Challenges.Kmalloc.Port

/-- A block in use: the bytes asked for, and those stored since. -/
structure Object where
  block : Block
  req : UInt32
  data : Nat → Option UInt8

/-- The client's pointer to the object. -/
def Object.handle (o : Object) : Handle := ⟨o.block.ptr, o.req⟩

/-- The bytes that are left of an object that is given `n` bytes. -/
def resize (n : UInt32) (data : Nat → Option UInt8) : Nat → Option UInt8 :=
  fun k => if k < n.toNat then data k else none

theorem resize_eq_some {n : UInt32} {data : Nat → Option UInt8} {k : Nat} {v : UInt8} :
    resize n data k = some v ↔ k < n.toNat ∧ data k = some v := by
  simp only [resize]
  split <;> simp_all

/-- The class of a request. -/
def classOf (n : UInt32) : Option (Fin nbuckets) := (sizeClass n.toNat).map (Fin.ofNat nbuckets)

/-- The state of the ideal allocator. -/
structure Ideal where
  log : List SbrkCall
  parked : Fin nbuckets → List Block
  objects : List Object

namespace Ideal

/-- Before the first call. -/
def empty : Ideal := ⟨[], fun _ => [], []⟩

variable (os : Nat → UInt32)

/-- The first call asks for the break, and aligns it unless it is aligned. -/
def begin (I : Ideal) : Ideal :=
  if I.log = [] then
    let n := alignBy (os 0)
    { I with log := ⟨.query, 0, os 0⟩ :: if 0 < n then [⟨.align, n, os 1⟩] else [] }
  else I

/-- An empty list is filled with the blocks of a new region, if `sbrk` hands
one out. -/
def refill (b : Fin nbuckets) (I : Ideal) : Ideal :=
  if I.parked b = [] then
    let ret := os I.log.length
    { I with
      log := I.log ++ [growCall b ret]
      parked := Function.update I.parked b (if ret = sbrkFailed then [] else newBlocks b ret) }
  else I

/-- Hand out the first block of a list. -/
def serve (b : Fin nbuckets) (n : UInt32) (data : Nat → Option UInt8) (I : Ideal) :
    UInt32 × Ideal :=
  match I.parked b with
  | [] => (null, I)
  | x :: rest => (x.ptr, { I with
      parked := Function.update I.parked b rest, objects := ⟨x, n, data⟩ :: I.objects })

/-- A request for `n` bytes, of which `data` are set. -/
def obtain (n : UInt32) (data : Nat → Option UInt8) (I : Ideal) : UInt32 × Ideal :=
  match classOf n with
  | none => (null, I.begin os)
  | some b => serve b n data (refill os b (I.begin os))

/-- The object that `cp` points to. -/
def find (cp : UInt32) (I : Ideal) : Option Object :=
  I.objects.find? fun o => o.block.ptr = cp

/-- An object is given back, and its block goes on top of the list of its
class. -/
def release (o : Object) (I : Ideal) : Ideal :=
  { I with
    parked := Function.update I.parked o.block.bucket (o.block :: I.parked o.block.bucket)
    objects := I.objects.filter fun p => p.block.ptr ≠ o.block.ptr }

/-- One call of a client, and what it returns. -/
def call (I : Ideal) : Call → UInt32 × Ideal
  | .kmalloc n => I.obtain os n fun _ => none
  | .kfree cp => (null, ((I.find cp).map I.release).getD I)
  | .realloc cp n =>
      match I.find cp with
      | none => I.obtain os n fun _ => none
      | some o =>
          if n = 0 then (null, I.release o)
          else (I.release o).obtain os n (resize n o.data)
  | .write cp off byte =>
      (null, { I with objects := I.objects.map fun o =>
        if o.block.ptr = cp ∧ off < o.req then
          { o with data := Function.update o.data off.toNat (some byte) }
        else o })

/-- What a disciplined client may call. -/
def Allowed (I : Ideal) : Call → Prop
  | .kmalloc n => n.toNat ≤ maxReq
  | .kfree cp => cp = null ∨ Held (I.objects.map Object.handle) cp
  | .realloc cp n => n.toNat ≤ maxReq ∧ (cp = null ∨ Held (I.objects.map Object.handle) cp)
  | .write cp off _ => ∃ h ∈ I.objects.map Object.handle, h.ptr = cp ∧ off < h.req

/-- One step of a client of the ideal allocator. -/
def Step (Env : List SbrkCall → Prop) (I : Ideal) (l : Call × UInt32) (J : Ideal) : Prop :=
  I.Allowed l.1 ∧ I.call os l.1 = (l.2, J) ∧ Env J.log

/-! ## Where the blocks are, and not what is in them -/

/-- The calls of a list in turn: what they return, and the state after them. -/
def play (calls : List Call) : List UInt32 × Ideal :=
  calls.foldl (fun p c => (p.1 ++ [(p.2.call os c).1], (p.2.call os c).2)) ([], empty)

theorem play_snoc (calls : List Call) (c : Call) :
    play os (calls ++ [c]) = ((play os calls).1 ++ [((play os calls).2.call os c).1],
      ((play os calls).2.call os c).2) := by
  rw [play, List.foldl_append]
  rfl

/-- A run is determined by its calls. -/
theorem play_of_run {Env : List SbrkCall → Prop} {tr : List ((Call × UInt32) × Ideal)} {I : Ideal}
    (h : Run (Step os Env) empty tr I) :
    play os ((labels tr).map Prod.fst) = ((labels tr).map Prod.snd, I) := by
  induction h with
  | nil => rfl
  | @snoc tr I l J _ hs ih =>
      rw [labels_snoc, List.map_append, List.map_append, List.map_singleton, List.map_singleton,
        play_snoc, ih, hs.2.1]

end Ideal

/-- The call without the byte that it stores. -/
def Call.blank : Call → Call
  | .write cp off _ => .write cp off 0
  | c => c

/-- The object without its bytes. -/
def Object.erase (o : Object) : Object := { o with data := fun _ => none }

namespace Ideal

/-- The state without the bytes of its objects. -/
def erase (I : Ideal) : Ideal := { I with objects := I.objects.map Object.erase }

variable {os : Nat → UInt32} {I J : Ideal}

theorem erase_eq_iff : J.erase = I.erase ↔ J.log = I.log ∧ J.parked = I.parked ∧
    J.objects.map Object.erase = I.objects.map Object.erase := by
  rw [erase, erase, mk.injEq]

theorem erase_begin (h : J.erase = I.erase) : (J.begin os).erase = (I.begin os).erase := by
  obtain ⟨hlog, hparked, hobjects⟩ := erase_eq_iff.mp h
  rw [begin, begin, hlog]
  split
  · exact erase_eq_iff.mpr ⟨rfl, hparked, hobjects⟩
  · exact h

theorem erase_refill (b : Fin nbuckets) (h : J.erase = I.erase) :
    (J.refill os b).erase = (I.refill os b).erase := by
  obtain ⟨hlog, hparked, hobjects⟩ := erase_eq_iff.mp h
  rw [refill, refill, hlog, hparked]
  split
  · exact erase_eq_iff.mpr ⟨rfl, rfl, hobjects⟩
  · exact h

/-- A request is served alike, whatever bytes it is to have. -/
theorem erase_obtain (n : UInt32) (data data' : Nat → Option UInt8) (h : J.erase = I.erase) :
    (J.obtain os n data').1 = (I.obtain os n data).1 ∧
      (J.obtain os n data').2.erase = (I.obtain os n data).2.erase := by
  rw [obtain, obtain]
  cases classOf n with
  | none => exact ⟨rfl, erase_begin h⟩
  | some b =>
      obtain ⟨hlog, hparked, hobjects⟩ := erase_eq_iff.mp (erase_refill b (erase_begin h))
      dsimp only
      rw [serve, serve, hparked]
      cases ((I.begin os).refill os b).parked b with
      | nil => exact ⟨rfl, erase_eq_iff.mpr ⟨hlog, hparked, hobjects⟩⟩
      | cons x rest =>
          refine ⟨rfl, erase_eq_iff.mpr ⟨hlog, rfl, ?_⟩⟩
          simp [hobjects, Object.erase]

theorem erase_find (cp : UInt32) (h : J.erase = I.erase) :
    (J.find cp).map Object.erase = (I.find cp).map Object.erase := by
  have hfind (K : Ideal) : (K.find cp).map Object.erase
      = (K.objects.map Object.erase).find? fun o => o.block.ptr = cp := by
    rw [List.find?_map]
    rfl
  rw [hfind, hfind, (erase_eq_iff.mp h).2.2]

theorem erase_release {o p : Object} (hp : p.erase = o.erase) (h : J.erase = I.erase) :
    (J.release p).erase = (I.release o).erase := by
  have hblock : p.block = o.block := congrArg (fun q => q.block) hp
  obtain ⟨hlog, hparked, hobjects⟩ := erase_eq_iff.mp h
  have hfilter (K : Ideal) : (K.release o).objects.map Object.erase
      = (K.objects.map Object.erase).filter fun q => q.block.ptr ≠ o.block.ptr := by
    rw [List.filter_map]
    rfl
  have hsame : J.release p = J.release o := by rw [release, release, hblock]
  rw [hsame]
  refine erase_eq_iff.mpr ⟨hlog, ?_, ?_⟩
  · rw [release, release, hparked]
  · rw [hfilter, hfilter, hobjects]

variable (os) in
/-- A call does the same on states that differ in their bytes only, also when it
stores another byte. -/
theorem erase_call (c : Call) (h : J.erase = I.erase) :
    (J.call os c.blank).1 = (I.call os c).1 ∧
      (J.call os c.blank).2.erase = (I.call os c).2.erase := by
  cases c with
  | kmalloc n => exact erase_obtain n _ _ h
  | kfree cp =>
      have hfind := erase_find cp h
      have hblank : (Call.kfree cp).blank = .kfree cp := rfl
      refine ⟨rfl, ?_⟩
      rw [hblank, call, call]
      cases hI : I.find cp with
      | none =>
          rw [hI, Option.map_none, Option.map_eq_none_iff] at hfind
          rw [hfind]
          exact h
      | some o =>
          rw [hI, Option.map_some, Option.map_eq_some_iff] at hfind
          obtain ⟨p, hJ, hp⟩ := hfind
          rw [hJ]
          exact erase_release hp h
  | realloc cp n =>
      have hfind := erase_find cp h
      have hblank : (Call.realloc cp n).blank = .realloc cp n := rfl
      rw [hblank, call, call]
      cases hI : I.find cp with
      | none =>
          rw [hI, Option.map_none, Option.map_eq_none_iff] at hfind
          rw [hfind]
          exact erase_obtain n _ _ h
      | some o =>
          rw [hI, Option.map_some, Option.map_eq_some_iff] at hfind
          obtain ⟨p, hJ, hp⟩ := hfind
          rw [hJ]
          dsimp only
          split
          · exact ⟨rfl, erase_release hp h⟩
          · exact erase_obtain n _ _ (erase_release hp h)
  | write cp off byte =>
      obtain ⟨hlog, hparked, hobjects⟩ := erase_eq_iff.mp h
      have hstore (K : Ideal) (v : UInt8) :
          (K.call os (.write cp off v)).2.objects.map Object.erase
            = K.objects.map Object.erase := by
        rw [call, List.map_map]
        apply List.map_congr_left
        intro o _
        rw [Function.comp_apply]
        split <;> rfl
      refine ⟨rfl, erase_eq_iff.mpr ⟨hlog, hparked, ?_⟩⟩
      rw [Call.blank, hstore, hstore, hobjects]

variable (os) in
theorem erase_play (calls : List Call) :
    (play os (calls.map Call.blank)).1 = (play os calls).1 ∧
      (play os (calls.map Call.blank)).2.erase = (play os calls).2.erase := by
  induction calls using List.reverseRecOn with
  | nil => exact ⟨rfl, rfl⟩
  | append_singleton calls c ih =>
      obtain ⟨hret, herase⟩ := ih
      obtain ⟨hret', herase'⟩ := erase_call os c herase
      rw [List.map_append, List.map_singleton, play_snoc, play_snoc, hret, hret']
      exact ⟨rfl, herase'⟩

end Ideal

end Challenges.Kmalloc

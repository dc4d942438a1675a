import Challenges.Slab.Accounting

/-!
# Ideal — what `fixalloc` is for

The allocator with no memory behind it: regions, the place of the next block,
a stack of free blocks, and the blocks in use with what is in them. Blocks are
handed out `lag` bytes above their places, which is nothing in the Go version
and a block in the C version.
-/

namespace Challenges.Slab

open Challenges.Lib

/-- The state of the ideal allocator. -/
structure Ideal where
  regions : List Region
  /-- the place that is cut next -/
  next : UInt64
  /-- the places that are left in the region -/
  left : Nat
  free : List UInt64
  live : List UInt64
  /-- the bytes of a block, by their offsets -/
  data : UInt64 → UInt64 → UInt8

namespace Ideal

/-- After `init`. -/
def empty : Ideal := ⟨[], nil, 0, [], [], fun _ _ => 0⟩

variable (addr : Nat → UInt64) (size lag : UInt64)

/-- A region that is used up is followed by another. -/
def refill (I : Ideal) : Ideal :=
  if I.left = 0 then
    { I with
      regions := I.regions ++ [⟨addr I.regions.length, fixAllocChunk / size * size⟩]
      next := addr I.regions.length
      left := perChunk size.toNat }
  else I

/-- A block that is handed out is all zero. -/
def handOut (p : UInt64) (I : Ideal) : UInt64 × Ideal :=
  (p, { I with live := p :: I.live, data := Function.update I.data p fun _ => 0 })

/-- The block that was freed last, or else the next one of the region. -/
def alloc (I : Ideal) : UInt64 × Ideal :=
  match I.free with
  | p :: rest => { I with free := rest }.handOut p
  | [] =>
      let J := I.refill addr size
      { J with next := J.next + size, left := J.left - 1 }.handOut (J.next + lag)

/-- One call of a client, and what it returns. -/
def call (I : Ideal) : Op → UInt64 × Ideal
  | .alloc => I.alloc addr size lag
  | .free p => (nil, { I with free := p :: I.free, live := I.live.erase p })
  | .write p off byte =>
      (nil, { I with data := Function.update I.data p (Function.update (I.data p) off byte) })

/-- What a disciplined client may call. -/
def Allowed (I : Ideal) : Op → Prop
  | .alloc => True
  | .free p => p ∈ I.live
  | .write p off _ => p ∈ I.live ∧ off < size

/-- One step of a client of the ideal allocator. -/
def Step (Env : List Region → Prop) (I : Ideal) (l : Op × UInt64) (J : Ideal) : Prop :=
  I.Allowed size l.1 ∧ I.call addr size lag l.1 = (l.2, J) ∧ Env J.regions

theorem alloc_cons {I : Ideal} {p : UInt64} {rest : List UInt64} (h : I.free = p :: rest) :
    I.alloc addr size lag = { I with free := rest }.handOut p := by
  rw [alloc, h]

theorem alloc_nil {I : Ideal} (h : I.free = []) :
    I.alloc addr size lag
      = { I.refill addr size with
          next := (I.refill addr size).next + size
          left := (I.refill addr size).left - 1 }.handOut ((I.refill addr size).next + lag) := by
  rw [alloc, h]

end Ideal

/-! ## The same blocks further up -/

/-- A call whose pointers are `d` bytes higher. -/
def Op.moved (d : UInt64) : Op → Op
  | .alloc => .alloc
  | .free p => .free (p + d)
  | .write p off byte => .write (p + d) off byte

/-- The call and what it returns; only `alloc` returns a pointer. -/
def moved (d : UInt64) : Op × UInt64 → Op × UInt64
  | (.alloc, r) => (.alloc, r + d)
  | (op, r) => (op.moved d, r)

namespace Ideal

/-- The pointers that clients have are `d` bytes higher; the regions stay. -/
def moved (d : UInt64) (I : Ideal) : Ideal :=
  { I with
    free := I.free.map (· + d)
    live := I.live.map (· + d)
    data := fun p => I.data (p - d) }

variable {addr : Nat → UInt64} {size lag d : UInt64} {I J : Ideal} {Env : List Region → Prop}

theorem add_injective (d : UInt64) : Function.Injective (· + d : UInt64 → UInt64) :=
  fun p q h => by simpa using h

theorem add_neg_add (p d : UInt64) : p + -d + d = p := by
  rw [UInt64.add_assoc, UInt64.add_left_neg, UInt64.add_zero]

theorem update_moved {α : Type} (data : UInt64 → α) (p : UInt64) (v : α) :
    (fun q => Function.update data p v (q - d))
      = Function.update (fun q => data (q - d)) (p + d) v := by
  funext q
  by_cases hq : q = p + d
  · rw [hq, UInt64.add_sub_cancel, Function.update_self, Function.update_self]
  · have hne : q - d ≠ p := fun heq => hq (by rw [← heq, UInt64.sub_add_cancel])
    rw [Function.update_of_ne hne, Function.update_of_ne hq]

theorem handOut_moved (p : UInt64) (I : Ideal) :
    (I.moved d).handOut (p + d) = (p + d, (I.handOut p).2.moved d) := by
  simp [handOut, moved, update_moved]

theorem refill_moved (I : Ideal) : (I.moved d).refill addr size = (I.refill addr size).moved d := by
  have hleft : (I.moved d).left = I.left := rfl
  rw [refill, refill, hleft]
  split <;> rfl

theorem alloc_moved (I : Ideal) :
    (I.moved d).alloc addr size (lag + d)
      = ((I.alloc addr size lag).1 + d, (I.alloc addr size lag).2.moved d) := by
  cases hfree : I.free with
  | cons p rest =>
      have hfree' : (I.moved d).free = (p + d) :: rest.map (· + d) := by simp [moved, hfree]
      rw [alloc_cons _ _ _ hfree, alloc_cons _ _ _ hfree']
      exact handOut_moved p { I with free := rest }
  | nil =>
      have hfree' : (I.moved d).free = [] := by simp [moved, hfree]
      rw [alloc_nil _ _ _ hfree, alloc_nil _ _ _ hfree', refill_moved, ← UInt64.add_assoc]
      exact handOut_moved ((I.refill addr size).next + lag) { I.refill addr size with
        next := (I.refill addr size).next + size, left := (I.refill addr size).left - 1 }

theorem mem_moved {p : UInt64} {l : List UInt64} : p + d ∈ l.map (· + d) ↔ p ∈ l :=
  List.mem_map_of_injective (add_injective d)

/-- The ideal allocator does not care where the blocks are. -/
theorem step_moved {l : Op × UInt64} (h : Step addr size lag Env I l J) :
    Step addr size (lag + d) Env (I.moved d) (Slab.moved d l) (J.moved d) := by
  obtain ⟨hallowed, hcall, hregions⟩ := h
  obtain ⟨op, r⟩ := l
  cases op with
  | alloc =>
      refine ⟨trivial, ?_, hregions⟩
      have hcall : I.alloc addr size lag = (r, J) := hcall
      have hmoved : (I.moved d).alloc addr size (lag + d)
          = ((I.alloc addr size lag).1 + d, (I.alloc addr size lag).2.moved d) := alloc_moved I
      rw [hcall] at hmoved
      exact hmoved
  | free p =>
      cases hcall
      refine ⟨mem_moved.mpr hallowed, ?_, hregions⟩
      simp [Slab.moved, Op.moved, call, moved, List.map_erase (add_injective d)]
  | write p off byte =>
      cases hcall
      refine ⟨⟨mem_moved.mpr hallowed.1, hallowed.2⟩, ?_, hregions⟩
      simp [Slab.moved, Op.moved, call, moved, update_moved]

theorem run_moved (d : UInt64) {tr : List ((Op × UInt64) × Ideal)}
    (h : Run (Step addr size lag Env) empty tr I) :
    ∃ tr', Run (Step addr size (lag + d) Env) empty tr' (I.moved d) ∧
      labels tr' = (labels tr).map (Slab.moved d) := by
  induction h with
  | nil => exact ⟨[], .nil, rfl⟩
  | @snoc _ _ l J _ hs ih =>
      obtain ⟨tr', hrun, hlabels⟩ := ih
      exact ⟨tr' ++ [(Slab.moved d l, J.moved d)], .snoc hrun (step_moved hs), by simp [hlabels]⟩

theorem moved_neg (I : Ideal) : (I.moved (-d)).moved d = I := by
  have hadd : ((· + d) ∘ (· + -d) : UInt64 → UInt64) = id := by
    funext p
    exact add_neg_add p d
  have hsub : ∀ p : UInt64, p - d - -d = p := fun p => by
    rw [UInt64.sub_neg, UInt64.sub_add_cancel]
  simp only [moved, List.map_map, hadd, List.map_id, hsub]

end Ideal

/-- Labels can be moved back. -/
theorem map_moved_neg (d : UInt64) (ls : List (Op × UInt64)) :
    (ls.map (moved (-d))).map (moved d) = ls := by
  have hback : moved d ∘ moved (-d) = id := by
    funext l
    obtain ⟨op, r⟩ := l
    cases op <;> simp only [Function.comp_apply, moved, Op.moved, Ideal.add_neg_add, id_eq]
  rw [List.map_map, hback, List.map_id]

end Challenges.Slab

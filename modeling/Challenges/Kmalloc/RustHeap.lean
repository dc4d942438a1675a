import Challenges.Kmalloc.Contents
import Challenges.Kmalloc.GlobalAlloc
import Challenges.Kmalloc.Ideal

/-!
# RustHeap — a program whose global allocator is `Kmalloc`

`lib.rs` gives `GlobalAlloc` its two required methods; `alloc_zeroed` and
`realloc` are those that `core` provides, written with the two. `Heap` is
what a Rust program may rely on: allocations that lie apart, each with the
bytes that were stored in it. Every program that keeps its side of the
contract finds that heap behind `Kmalloc`, as long as no layout is beyond
the classes, nobody else moves the break and its first alignment is not
refused; only an alignment that the size does not imply is not promised.
-/

namespace Challenges.Kmalloc

open Challenges.Lib Challenges.Kmalloc.Port

namespace GlobalAlloc

variable (bld : Build)

/-- The `alloc_zeroed` that `GlobalAlloc` provides. -/
def allocZeroed (layout : Layout) : M Statics UInt32 := do
  let ptr ← alloc bld layout
  if ptr ≠ null then
    memset ptr 0 layout.size
  return ptr

/-- The `realloc` that `GlobalAlloc` provides; `newLayout` has the new size. -/
def realloc (ptr : UInt32) (layout newLayout : Layout) : M Statics UInt32 := do
  let newPtr ← alloc bld newLayout
  if newPtr ≠ null then
    memcpy newPtr ptr (min layout.size newLayout.size)
    dealloc bld ptr layout
  return newPtr

end GlobalAlloc

/-! ## Programs -/

instance : DecidableEq Layout := fun a b =>
  decidable_of_iff (a.size = b.size ∧ a.align = b.align) (by cases a; cases b; simp)

/-- A pointer that the program holds, with its layout. -/
structure Allocation where
  ptr : UInt32
  layout : Layout
  deriving DecidableEq

/-- The bytes the allocator was asked for. -/
def Allocation.handle (a : Allocation) : Handle := ⟨a.ptr, a.layout.size⟩

/-- What a program does with its allocator. -/
inductive Op where
  | alloc (layout : Layout)
  | allocZeroed (layout : Layout)
  | dealloc (a : Allocation)
  | realloc (a : Allocation) (newLayout : Layout)
  /-- a store of the program's own, `off` bytes above the pointer -/
  | write (a : Allocation) (off : UInt32) (byte : UInt8)

/-- A program on its machine, with the allocations that it holds. -/
structure Process where
  machine : Machine Statics
  allocs : List Allocation

namespace Process

/-- The process as a client of the port. -/
def sys (p : Process) : Sys Statics := ⟨p.machine, p.allocs.map Allocation.handle⟩

def start (mem : Mem) (os : Nat → UInt32) : Process := ⟨⟨mem, os, [], .initial⟩, []⟩

/-- The allocations without the one at `ptr`. -/
def without (ptr : UInt32) (allocs : List Allocation) : List Allocation :=
  allocs.filter fun a => a.ptr ≠ ptr

/-- One operation: the pointer it returns, and the process after it. An
`alloc` that is refused ends the process. -/
def perform (p : Process) : Op → Except Fault (UInt32 × Process)
  | .alloc layout => do
      let (r, m) ← (GlobalAlloc.alloc release layout).run p.machine
      return (r, ⟨m, ⟨r, layout⟩ :: p.allocs⟩)
  | .allocZeroed layout => do
      let (r, m) ← (GlobalAlloc.allocZeroed release layout).run p.machine
      return (r, ⟨m, ⟨r, layout⟩ :: p.allocs⟩)
  | .dealloc a => do
      let (_, m) ← (GlobalAlloc.dealloc release a.ptr a.layout).run p.machine
      return (null, ⟨m, without a.ptr p.allocs⟩)
  | .realloc a newLayout => do
      let (r, m) ← (GlobalAlloc.realloc release a.ptr a.layout newLayout).run p.machine
      return (r, ⟨m, ⟨r, newLayout⟩ :: without a.ptr p.allocs⟩)
  | .write a off byte =>
      let m := p.machine
      return (null, ⟨{ m with mem := m.mem.store8 (a.ptr + off) byte }, p.allocs⟩)

/-- The contract's side of the program, and a bound that the contract does not
have: beyond the largest class, `kmalloc` returns too small a block. -/
def Allowed (p : Process) : Op → Prop
  | .alloc layout => layout.size.toNat ≤ maxReq
  | .allocZeroed layout => layout.size.toNat ≤ maxReq
  | .dealloc a => a ∈ p.allocs
  | .realloc a newLayout => a ∈ p.allocs ∧ newLayout.align = a.layout.align ∧
      newLayout.size.toNat ≤ maxReq
  | .write a off _ => a ∈ p.allocs ∧ off < a.layout.size

instance (p : Process) (op : Op) : Decidable (p.Allowed op) :=
  match op with
  | .alloc layout => inferInstanceAs (Decidable (layout.size.toNat ≤ maxReq))
  | .allocZeroed layout => inferInstanceAs (Decidable (layout.size.toNat ≤ maxReq))
  | .dealloc a => inferInstanceAs (Decidable (a ∈ p.allocs))
  | .realloc a newLayout => inferInstanceAs (Decidable (a ∈ p.allocs ∧
      newLayout.align = a.layout.align ∧ newLayout.size.toNat ≤ maxReq))
  | .write a off _ => inferInstanceAs (Decidable (a ∈ p.allocs ∧ off < a.layout.size))

/-- One step of a program, with a break that only the allocator moves and that
it could align. -/
def Step (brk₀ : Nat) (p : Process) (l : Op × UInt32) (q : Process) : Prop :=
  p.Allowed l.1 ∧ p.perform l.1 = .ok (l.2, q) ∧ BreakOk brk₀ q.machine.log

end Process

/-! ## The heap of a program -/

/-- An allocation, and the bytes of it that are set. -/
structure Cell where
  alloc : Allocation
  data : Nat → Option UInt8

abbrev Heap := List Cell

namespace Heap

/-- Where a new allocation may lie: in the address space, apart from all
others, and aligned when its size implies it. -/
structure Places (H : Heap) (layout : Layout) (r : UInt32) : Prop where
  ne_null : r ≠ null
  fits : r.toNat + layout.size.toNat ≤ 2 ^ 32
  new : ∀ c ∈ H, c.alloc.ptr ≠ r
  apart : ∀ c ∈ H, Handle.Apart ⟨r, layout.size⟩ c.alloc.handle
  aligned : layout.Natural → layout.align.toNat ∣ r.toNat

/-- The heap without the allocation at `ptr`. -/
def without (ptr : UInt32) (H : Heap) : Heap := H.filter fun c => c.alloc.ptr ≠ ptr

/-- What is stored at an allocation is now `data`. -/
def put (ptr : UInt32) (data : Nat → Option UInt8) (H : Heap) : Heap :=
  H.map fun c => if c.alloc.ptr = ptr then { c with data := data } else c

/-- What each operation does to the heap. -/
inductive Step : Heap → Op × UInt32 → Heap → Prop
  | alloc {H : Heap} {layout : Layout} {r : UInt32} : Places H layout r →
      Step H (.alloc layout, r) (⟨⟨r, layout⟩, fun _ => none⟩ :: H)
  | allocZeroed {H : Heap} {layout : Layout} {r : UInt32} : Places H layout r →
      Step H (.allocZeroed layout, r)
        (⟨⟨r, layout⟩, resize layout.size fun _ => some 0⟩ :: H)
  | dealloc {H : Heap} {c : Cell} : c ∈ H →
      Step H (.dealloc c.alloc, null) (H.without c.alloc.ptr)
  | realloc {H : Heap} {c : Cell} {newLayout : Layout} {r : UInt32} : c ∈ H →
      Places H newLayout r →
      Step H (.realloc c.alloc newLayout, r)
        (⟨⟨r, newLayout⟩, resize newLayout.size c.data⟩ :: H.without c.alloc.ptr)
  | write {H : Heap} {c : Cell} {off : UInt32} {byte : UInt8} : c ∈ H →
      off < c.alloc.layout.size →
      Step H (.write c.alloc off byte, null)
        (H.put c.alloc.ptr (Function.update c.data off.toNat (some byte)))

end Heap

/-- What is stored in the allocation is in the memory. -/
def Cell.In (m : Mem) (c : Cell) : Prop :=
  ∀ k v, c.data k = some v →
    k < c.alloc.layout.size.toNat ∧ m (c.alloc.ptr + UInt32.ofNat k) = v

theorem Cell.In.frame {m m' : Mem} {c : Cell} {len : Nat} (h : c.In m)
    (hsize : c.alloc.layout.size.toNat ≤ len) (hfit : c.alloc.ptr.toNat + len ≤ 2 ^ 32)
    (hm : Mem.SameInside m m' c.alloc.ptr.toNat len) : c.In m' := by
  intro k v hk
  obtain ⟨hlt, hbyte⟩ := h k v hk
  exact ⟨hlt, (hm.byte rfl (by omega) hfit).trans hbyte⟩

namespace Heap

variable {H : Heap} {c : Cell} {d : Nat → Option UInt8}

theorem put_cons (hnew : ∀ e ∈ H, e.alloc.ptr ≠ c.alloc.ptr) :
    put c.alloc.ptr d (c :: H) = ⟨c.alloc, d⟩ :: H := by
  have hrest : H.map (fun e => if e.alloc.ptr = c.alloc.ptr then { e with data := d } else e)
      = H := by
    rw [List.map_congr_left (g := id), List.map_id]
    intro e he
    exact if_neg (hnew e he)
  rw [put, List.map_cons, if_pos rfl, hrest]

theorem without_cons {ptr : UInt32} (hne : ptr ≠ c.alloc.ptr) :
    without ptr (c :: H) = c :: H.without ptr := by
  rw [without, List.filter_cons_of_pos (by simpa using hne.symm)]
  rfl

theorem put_alloc (ptr : UInt32) : (H.put ptr d).map Cell.alloc = H.map Cell.alloc := by
  rw [put, List.map_map]
  apply List.map_congr_left
  intro e _
  rw [Function.comp_apply]
  split <;> rfl

theorem without_alloc (ptr : UInt32) :
    (H.without ptr).map Cell.alloc = Process.without ptr (H.map Cell.alloc) := by
  rw [without, Process.without, List.filter_map]
  rfl

end Heap

/-- The layout that an operation passes to `alloc`. -/
def Op.layout : Op → Option Layout
  | .alloc layout => some layout
  | .allocZeroed layout => some layout
  | .realloc _ newLayout => some newLayout
  | _ => none

/-- The answers of `sbrk` in the operation are within the assumption. -/
def Process.Answered (brk₀ : Nat) (p : Process) (op : Op) : Prop :=
  ∀ layout ∈ op.layout, ∀ r m,
    (GlobalAlloc.alloc release layout).run p.machine = .ok (r, m) → BreakOk brk₀ m.log

/-! ## What every operation keeps -/

/-- The process holds the heap. -/
structure Backs (brk₀ : Nat) (p : Process) (H : Heap) : Prop where
  sound : ∃ S, Sound p.sys S
  shaped : Shaped p.sys
  calls : BreakOk brk₀ p.machine.log
  allocs : p.allocs = H.map Cell.alloc
  bytes : ∀ c ∈ H, c.In p.machine.mem

section Operations

variable {brk₀ : Nat} {p : Process} {H : Heap} {S : Stock Block.bucket} {m : Machine Statics}
  {c : Cell} {layout : Layout} {r : UInt32}

/-- The block behind an allocation has room for it. -/
theorem Sound.cell (h : Sound p.sys S) (hallocs : p.allocs = H.map Cell.alloc) (hc : c ∈ H) :
    ∃ x ∈ S.held, x.ptr = c.alloc.ptr ∧ c.alloc.layout.size.toNat ≤ x.usable ∧
      x.ptr.toNat + x.usable ≤ 2 ^ 32 := by
  have hlive : c.alloc.handle ∈ p.sys.live := by
    rw [Process.sys, hallocs]
    exact List.mem_map_of_mem (List.mem_map_of_mem hc)
  obtain ⟨x, hx, hptr⟩ := h.1.owns.exists_held ⟨_, hlive, rfl⟩
  have hfits := h.2.1.fits _ hlive x hx hptr.symm
  have hin := h.1.owns.inside (.inl hx)
  have hxptr := h.1.owns.ptr_toNat (.inl hx)
  change c.alloc.layout.size.toNat + 4 ≤ x.size at hfits
  refine ⟨x, hx, hptr, ?_, ?_⟩ <;> rw [Block.usable] <;> omega

/-- The pointers of the allocations differ. -/
theorem Sound.ptrs_nodup (h : Sound p.sys S) (hallocs : p.allocs = H.map Cell.alloc) :
    (H.map fun c => c.alloc.ptr).Nodup := by
  have hptrs : H.map (fun c => c.alloc.ptr) = S.held.map Block.ptr := by
    rw [← h.1.owns.held, Process.sys, hallocs, List.map_map, List.map_map]
    rfl
  rw [hptrs]
  exact List.Nodup.map_on (fun x hx y hy heq => h.1.owns.ptr_inj (.inl hx) (.inl hy) heq)
    S.held_nodup

/-- **`alloc`** finds a place, and touches no other allocation. -/
theorem Backs.alloc (h : Backs brk₀ p H) (hmax : layout.size.toNat ≤ maxReq)
    (hrun : (GlobalAlloc.alloc release layout).run p.machine = .ok (r, m))
    (hok : BreakOk brk₀ m.log) :
    H.Places layout r ∧
      Backs brk₀ ⟨m, ⟨r, layout⟩ :: p.allocs⟩ (⟨⟨r, layout⟩, fun _ => none⟩ :: H) := by
  obtain ⟨S, hsound⟩ := h.sound
  obtain ⟨hne, hmalloc⟩ := run_alloc.mp hrun
  have hlive : handOut r layout.size p.sys.live = Allocation.handle ⟨r, layout⟩ :: p.sys.live :=
    handOut_ne hne _ _
  have hperform : (Port.allocator 0).perform p.sys (.kmalloc layout.size)
      = .ok (r, ⟨m, handOut r layout.size p.sys.live⟩) := perform_kmalloc.mpr ⟨m, hmalloc, rfl⟩
  have htame : Tame p.sys (.kmalloc layout.size) := trivial
  obtain ⟨hshaped, hfresh⟩ := hsound.1.shaped h.shaped htame hperform hok
  obtain ⟨S', hsound', _⟩ :=
    hsound.step (l := (.kmalloc layout.size, r)) ⟨.inl hmax, hperform, hfresh, hok.2⟩
  obtain ⟨x, hx, hxptr, n, hn, hclass⟩ := hsound.1.served htame hperform hfresh hok.2 hne
  cases hn
  rw [hlive] at hsound' hshaped
  have hallocs : (⟨r, layout⟩ :: p.allocs : List Allocation)
      = (⟨⟨r, layout⟩, fun _ => none⟩ :: H : Heap).map Cell.alloc := by
    rw [List.map_cons, h.allocs]
  have hdisjoint := (hsound'.1.owned hsound'.2.1).disjoint
  refine ⟨⟨hne, ?_, fun c hc => ?_, fun c hc => ?_, fun hnatural => ?_⟩,
    ⟨S', hsound'⟩, hshaped, hok, hallocs, fun c hc => ?_⟩
  · obtain ⟨y, _, hptr, hsize, hfit⟩ :=
      Sound.cell (p := ⟨m, ⟨r, layout⟩ :: p.allocs⟩) hsound' hallocs List.mem_cons_self
    rw [hptr] at hfit
    exact (Nat.add_le_add_left hsize _).trans hfit
  · obtain ⟨y, hy, hptr, _⟩ := hsound.cell h.allocs hc
    obtain ⟨S'', hrepr, hobtains⟩ := hsound.1.kmalloc hmalloc hfresh
    rw [← hptr]
    exact hobtains.ptr_ne hrepr.owns hy
  · apply List.rel_of_pairwise_cons hdisjoint
    rw [Process.sys, h.allocs]
    exact List.mem_map_of_mem (List.mem_map_of_mem hc)
  · rw [← hxptr]
    exact Nat.dvd_trans ((Layout.natural_iff hclass).mp hnatural)
      (hsound'.1.carved_paged hshaped hok hx)
  · rcases List.mem_cons.mp hc with rfl | hc
    · intro k v hk
      cases hk
    · obtain ⟨y, hy, hptr, hsize, hfit⟩ := hsound.cell h.allocs hc
      have hframe := (hsound.1.kmalloc_frame hmalloc hfresh (.inl hy)).1
      rw [hptr] at hfit hframe
      exact (h.bytes c hc).frame hsize hfit hframe

/-- **A store** into one allocation touches no other. -/
theorem Backs.put (h : Backs brk₀ p H) (hc : c ∈ H) {mem : Mem} {d : Nat → Option UInt8}
    (hmem : Mem.SameOutside p.machine.mem mem c.alloc.ptr.toNat c.alloc.layout.size.toNat)
    (hd : Cell.In mem ⟨c.alloc, d⟩) :
    Backs brk₀ ⟨{ p.machine with mem := mem }, p.allocs⟩ (H.put c.alloc.ptr d) := by
  obtain ⟨S, hsound⟩ := h.sound
  obtain ⟨x, hx, hptr, hsize, _⟩ := hsound.cell h.allocs hc
  obtain ⟨hrepr, hfit, hinit⟩ := id hsound
  have hxsize := hrepr.owns.size_ge (.inl hx)
  rw [← hptr] at hmem
  have howns : Owns { p.machine with mem := mem } p.sys.live S := by
    apply hrepr.owns.payload_frame (.inl hx) 0 hmem
    rw [Block.usable] at hsize
    omega
  refine ⟨⟨S, ⟨howns, hrepr.mode.congr rfl rfl rfl⟩, hfit, hinit⟩, h.shaped, h.calls, ?_, ?_⟩
  · rw [H.put_alloc]
    exact h.allocs
  · intro e' he'
    obtain ⟨e, he, rfl⟩ := List.mem_map.mp he'
    split
    · rename_i heq
      have hsame : e = c := List.inj_on_of_nodup_map (hsound.ptrs_nodup h.allocs) he hc heq
      subst hsame
      exact hd
    · rename_i hne
      obtain ⟨y, hy, hyptr, hysize, hyfit⟩ := hsound.cell h.allocs he
      have hxy : y ≠ x := by
        rintro rfl
        exact hne (hyptr.symm.trans hptr)
      have hapart := hrepr.owns.apart (.inl hy) (.inl hx) hxy
      have hxaddr := hrepr.owns.ptr_toNat (.inl hx)
      have hyaddr := hrepr.owns.ptr_toNat (.inl hy)
      have hframe : Mem.SameInside p.machine.mem mem y.ptr.toNat y.usable := by
        apply hmem.apart
        rw [Block.Apart] at hapart
        rw [Block.usable] at hsize ⊢
        omega
      rw [hyptr] at hyfit hframe
      exact (h.bytes e he).frame hysize hyfit hframe

/-- **`dealloc`** touches no allocation that is left. -/
theorem Backs.dealloc (h : Backs brk₀ p H) (hc : c ∈ H) :
    ∃ m, (GlobalAlloc.dealloc release c.alloc.ptr c.alloc.layout).run p.machine = .ok ((), m) ∧
      m.log = p.machine.log ∧
      Backs brk₀ ⟨m, Process.without c.alloc.ptr p.allocs⟩ (H.without c.alloc.ptr) := by
  obtain ⟨S, hsound⟩ := h.sound
  obtain ⟨x, hx, hptr, _⟩ := hsound.cell h.allocs hc
  have hrun := hsound.1.owns.run_kfree hx
  rw [hptr] at hrun
  have hheld : Held p.sys.live c.alloc.ptr := by
    rw [← hptr]
    exact (hsound.1.held_iff (.inl hx)).mpr hx
  have hperform : (Port.allocator 0).perform p.sys (.kfree c.alloc.ptr)
      = .ok (null, ⟨pushed p.machine x.bucket x.addr, takeBack c.alloc.ptr p.sys.live⟩) :=
    perform_kfree.mpr ⟨_, hrun, rfl, rfl⟩
  have hcalls : BreakOk brk₀ (pushed p.machine x.bucket x.addr).log := h.calls
  have htame : Tame p.sys (.kfree c.alloc.ptr) := Or.inr hheld
  have hcareful : Careful p.sys (.kfree c.alloc.ptr) := Or.inr hheld
  obtain ⟨hshaped, hfresh⟩ := hsound.1.shaped h.shaped htame hperform hcalls
  obtain ⟨S', hsound', _⟩ := hsound.step (l := (.kfree c.alloc.ptr, null))
    ⟨hcareful, hperform, hfresh, hcalls.2⟩
  have hlive : takeBack c.alloc.ptr p.sys.live
      = (Process.without c.alloc.ptr p.allocs).map Allocation.handle := by
    rw [takeBack, Process.sys, List.filter_map]
    rfl
  rw [hlive] at hsound' hshaped
  refine ⟨_, hrun, rfl, ⟨S', hsound'⟩, hshaped, hcalls, ?_, fun e he => ?_⟩
  · rw [H.without_alloc, h.allocs]
  · obtain ⟨he, _⟩ := List.mem_filter.mp he
    obtain ⟨y, hy, hyptr, hysize, hyfit⟩ := hsound.cell h.allocs he
    have hin := hsound.1.owns.inside (.inl hx)
    have hxsize := hsound.1.owns.size_ge (.inl hx)
    have hheader : Mem.SameOutside p.machine.mem (pushed p.machine x.bucket x.addr).mem
        x.addr.toNat 4 := Mem.store32_same _ _ (by omega)
    have hframe := (hsound.1.owns.header_frame (.inl hx) (.inl hy) hheader).1
    rw [hyptr] at hyfit hframe
    exact (h.bytes e he).frame hysize hyfit hframe

/-! ## Runs of the provided methods -/

/-- `alloc` returns, or reports that there is no memory. -/
theorem Backs.alloc_returns (h : Backs brk₀ p H) (layout : Layout) :
    (∃ r m, (GlobalAlloc.alloc release layout).run p.machine = .ok (r, m)) ∨
      (GlobalAlloc.alloc release layout).run p.machine = .error .allocError := by
  obtain ⟨S, hrepr, _, hinit⟩ := h.sound
  have hreturns : ∃ r m, (kmalloc release layout.size).run p.machine = .ok (r, m) :=
    kmalloc_returns hrepr.mode hinit layout.size
  obtain ⟨r, m, hmalloc⟩ := hreturns
  by_cases hr : r = null
  · subst hr
    right
    rw [GlobalAlloc.alloc, StateT.run_bind, hmalloc]
    rfl
  · exact .inl ⟨r, m, run_alloc.mpr ⟨hr, hmalloc⟩⟩

variable {newLayout : Layout} {s : Machine Statics}

theorem run_allocZeroed (hne : r ≠ null)
    (halloc : (GlobalAlloc.alloc release layout).run s = .ok (r, m)) :
    (GlobalAlloc.allocZeroed release layout).run s
      = .ok (r, { m with mem := m.mem.fill r 0 layout.size }) := by
  simp only [GlobalAlloc.allocZeroed, StateT.run_bind, halloc, ok_bind, ne_eq, hne,
    not_false_eq_true, if_true, run_memset]
  rfl

theorem run_realloc_layout {ptr : UInt32} (hne : r ≠ null)
    (halloc : (GlobalAlloc.alloc release newLayout).run s = .ok (r, m)) :
    (GlobalAlloc.realloc release ptr layout newLayout).run s =
      ((GlobalAlloc.dealloc release ptr layout).run
        { m with mem := m.mem.copy r ptr (min layout.size newLayout.size) }).map
          fun v => (r, v.2) := by
  simp only [GlobalAlloc.realloc, StateT.run_bind, halloc, ok_bind, ne_eq, hne,
    not_false_eq_true, if_true, run_memcpy]
  cases (GlobalAlloc.dealloc release ptr layout).run
    { m with mem := m.mem.copy r ptr (min layout.size newLayout.size) } <;> rfl

/-- The bytes that `realloc` copies. -/
theorem copied_cell (hplaces : H.Places newLayout r) {mem : Mem} (hin : c.In mem) :
    Mem.SameOutside mem (mem.copy r c.alloc.ptr (min c.alloc.layout.size newLayout.size))
        r.toNat newLayout.size.toNat ∧
      Cell.In (mem.copy r c.alloc.ptr (min c.alloc.layout.size newLayout.size))
        ⟨⟨r, newLayout⟩, resize newLayout.size c.data⟩ := by
  have hfits := hplaces.fits
  have hlen : (min c.alloc.layout.size newLayout.size).toNat
      = min c.alloc.layout.size.toNat newLayout.size.toNat := by
    rw [UInt32.toNat_min]
  constructor
  · exact (Mem.copy_same mem _ (by omega)).widen le_rfl (by omega)
  · intro k v hk
    obtain ⟨hkn, hk⟩ := resize_eq_some.mp hk
    obtain ⟨hlt, hbyte⟩ := hin k v hk
    rw [Mem.copy_inside (by omega), hbyte]
    exact ⟨hkn, rfl⟩

/-- The bytes that `alloc_zeroed` sets. -/
theorem zeroed_cell (hplaces : H.Places layout r) (mem : Mem) :
    Mem.SameOutside mem (mem.fill r 0 layout.size) r.toNat layout.size.toNat ∧
      Cell.In (mem.fill r 0 layout.size) ⟨⟨r, layout⟩, resize layout.size fun _ => some 0⟩ := by
  have hfits := hplaces.fits
  constructor
  · exact Mem.fill_same _ 0 hfits
  · intro k v hk
    dsimp only at hk ⊢
    obtain ⟨hlt, hv⟩ := resize_eq_some.mp hk
    have haddr : (r + UInt32.ofNat k).toNat = r.toNat + k := Mem.toNat_add_ofNat (by omega)
    rw [← Option.some.inj hv]
    exact ⟨hlt, Mem.fill_inside hfits (by omega) (by omega)⟩

/-- The byte that a program stores. -/
theorem Backs.written (h : Backs brk₀ p H) (hc : c ∈ H) {off : UInt32}
    (hoff : off < c.alloc.layout.size) (byte : UInt8) :
    Mem.SameOutside p.machine.mem (p.machine.mem.store8 (c.alloc.ptr + off) byte)
        c.alloc.ptr.toNat c.alloc.layout.size.toNat ∧
      Cell.In (p.machine.mem.store8 (c.alloc.ptr + off) byte)
        ⟨c.alloc, Function.update c.data off.toNat (some byte)⟩ := by
  obtain ⟨S, hsound⟩ := h.sound
  obtain ⟨x, hx, hptr, hsize, hfit⟩ := hsound.cell h.allocs hc
  rw [UInt32.lt_iff_toNat_lt] at hoff
  rw [hptr] at hfit
  have haddr : (c.alloc.ptr + off).toNat = c.alloc.ptr.toNat + off.toNat := by
    rw [UInt32.toNat_add, Nat.mod_eq_of_lt (by omega)]
  have hsame := Mem.store8_same p.machine.mem (c.alloc.ptr + off) byte
  constructor
  · exact hsame.widen (by omega) (by omega)
  · intro k v hk
    dsimp only at hk ⊢
    by_cases hkoff : k = off.toNat
    · subst hkoff
      rw [Function.update_self] at hk
      rw [UInt32.ofNat_toNat, Mem.store8, Function.update_self, Option.some.inj hk]
      exact ⟨hoff, rfl⟩
    · rw [Function.update_of_ne hkoff] at hk
      obtain ⟨hlt, hbyte⟩ := h.bytes c hc k v hk
      have hkaddr : (c.alloc.ptr + UInt32.ofNat k).toNat = c.alloc.ptr.toNat + k :=
        Mem.toNat_add_ofNat (by omega)
      exact ⟨hlt, (hsame _ (by omega)).trans hbyte⟩

/-- `kfree` never calls `sbrk`. -/
theorem kfree_log {cp : UInt32} {t : Machine Statics}
    (hrun : (kfree release cp).run s = .ok ((), t)) : t.log = s.log := by
  by_cases hcp : cp = null
  · rw [hcp, run_kfree_null] at hrun
    cases hrun
    rfl
  · by_cases hindex : (s.mem (cp - overheadSize + 1)).toNat < nbuckets
    · rw [run_kfree (b := ⟨_, hindex⟩) hcp rfl] at hrun
      cases hrun
      rfl
    · rw [run_kfree_outside hcp (Nat.not_lt.mp hindex)] at hrun
      cases hrun

/-- **The step lemma**: an operation that keeps the contract does what it does
to the heap, or there is no memory for it. -/
theorem Backs.perform (h : Backs brk₀ p H) {op : Op} (hop : p.Allowed op)
    (hok : p.Answered brk₀ op) :
    (∃ r q H', p.perform op = .ok (r, q) ∧ BreakOk brk₀ q.machine.log ∧ H.Step (op, r) H' ∧
        Backs brk₀ q H') ∨
      p.perform op = .error .allocError := by
  have hmem {a : Allocation} (ha : a ∈ p.allocs) : ∃ c ∈ H, c.alloc = a := by
    rw [h.allocs] at ha
    exact List.mem_map.mp ha
  cases op with
  | alloc layout =>
      rcases h.alloc_returns layout with ⟨r, m, halloc⟩ | hnone
      · obtain ⟨hplaces, hkeeps⟩ := h.alloc hop halloc (hok _ rfl _ _ halloc)
        refine .inl ⟨r, _, _, ?_, hkeeps.calls, .alloc hplaces, hkeeps⟩
        rw [Process.perform, halloc]
        rfl
      · right
        rw [Process.perform, hnone]
        rfl
  | allocZeroed layout =>
      rcases h.alloc_returns layout with ⟨r, m, halloc⟩ | hnone
      · obtain ⟨hplaces, hkeeps⟩ := h.alloc hop halloc (hok _ rfl _ _ halloc)
        have hrun := run_allocZeroed hplaces.ne_null halloc
        obtain ⟨hsame, hdata⟩ := zeroed_cell hplaces m.mem
        have hzeroed := hkeeps.put List.mem_cons_self hsame hdata
        rw [Heap.put_cons hplaces.new] at hzeroed
        refine .inl ⟨r, _, _, ?_, hzeroed.calls, .allocZeroed hplaces, hzeroed⟩
        rw [Process.perform, hrun]
        rfl
      · right
        rw [Process.perform, GlobalAlloc.allocZeroed, StateT.run_bind, hnone]
        rfl
  | dealloc a =>
      obtain ⟨c, hc, rfl⟩ := hmem hop
      obtain ⟨m, hrun, _, hkeeps⟩ := h.dealloc hc
      refine .inl ⟨null, _, _, ?_, hkeeps.calls, .dealloc hc, hkeeps⟩
      rw [Process.perform, hrun]
      rfl
  | realloc a newLayout =>
      obtain ⟨ha, _, hmax⟩ := hop
      obtain ⟨c, hc, rfl⟩ := hmem ha
      rcases h.alloc_returns newLayout with ⟨r, m, halloc⟩ | hnone
      · obtain ⟨hplaces, hkeeps⟩ := h.alloc hmax halloc (hok _ rfl _ _ halloc)
        obtain ⟨hsame, hdata⟩ :=
          copied_cell hplaces (hkeeps.bytes c (List.mem_cons_of_mem _ hc))
        have hcopied := hkeeps.put List.mem_cons_self hsame hdata
        rw [Heap.put_cons hplaces.new] at hcopied
        obtain ⟨m', hdealloc, _, hmoved⟩ := hcopied.dealloc (List.mem_cons_of_mem _ hc)
        rw [Heap.without_cons (hplaces.new c hc)] at hmoved
        have hkept : Process.without c.alloc.ptr (⟨r, newLayout⟩ :: p.allocs)
            = ⟨r, newLayout⟩ :: Process.without c.alloc.ptr p.allocs :=
          List.filter_cons_of_pos (by simpa using (hplaces.new c hc).symm)
        rw [hkept] at hmoved
        refine .inl ⟨r, _, _, ?_, hmoved.calls, .realloc hc hplaces, hmoved⟩
        rw [Process.perform, run_realloc_layout hplaces.ne_null halloc, hdealloc]
        rfl
      · right
        rw [Process.perform, GlobalAlloc.realloc, StateT.run_bind, hnone]
        rfl
  | write a off byte =>
      obtain ⟨ha, hoff⟩ := hop
      obtain ⟨c, hc, rfl⟩ := hmem ha
      obtain ⟨hsame, hdata⟩ := h.written hc hoff byte
      have hkeeps := h.put hc hsame hdata
      exact .inl ⟨null, _, _, rfl, hkeeps.calls, .write hc hoff, hkeeps⟩

/-- What a step of a program does, `sbrk` has answered within the assumption. -/
theorem answered_of_step {l : Op × UInt32} {q : Process} (hs : p.Step brk₀ l q) :
    p.Answered brk₀ l.1 := by
  obtain ⟨op, r⟩ := l
  obtain ⟨_, hperform, hok⟩ := hs
  intro layout hlayout r' m halloc
  cases op with
  | alloc layout' =>
      cases hlayout
      rw [Process.perform, halloc] at hperform
      cases hperform
      exact hok
  | allocZeroed layout' =>
      cases hlayout
      rw [Process.perform, run_allocZeroed (run_alloc.mp halloc).1 halloc] at hperform
      cases hperform
      exact hok
  | realloc a newLayout =>
      cases hlayout
      have hne := (run_alloc.mp halloc).1
      cases hdealloc : (GlobalAlloc.dealloc release a.ptr a.layout).run
          { m with mem := m.mem.copy r' a.ptr (min a.layout.size layout.size) } with
      | error e =>
          rw [Process.perform, run_realloc_layout hne halloc, hdealloc] at hperform
          cases hperform
      | ok v =>
          obtain ⟨_, m'⟩ := v
          rw [Process.perform, run_realloc_layout hne halloc, hdealloc] at hperform
          cases hperform
          rwa [kfree_log hdealloc] at hok
  | dealloc a => cases hlayout
  | write a off byte => cases hlayout

theorem Backs.step {l : Op × UInt32} {q : Process} (h : Backs brk₀ p H)
    (hs : p.Step brk₀ l q) : ∃ H', H.Step l H' ∧ Backs brk₀ q H' := by
  rcases h.perform hs.1 (answered_of_step hs) with ⟨r, q', H', hperform, _, hstep, hkeeps⟩ | hnone
  · rw [hs.2.1] at hperform
    cases hperform
    exact ⟨H', hstep, hkeeps⟩
  · rw [hs.2.1] at hnone
    cases hnone

end Operations

/-! ## The theorem -/

/-- **Behind `Kmalloc` a program finds its heap**: every run of a program that
keeps the contract and asks for no more than the classes serve, on a break of
its own, is a run of the heap, with each byte where it was stored; and the only
thing that stops it is that there is no memory. -/
theorem rust_heap {brk₀ : Nat} {mem : Mem} {os : Nat → UInt32}
    {tr : List ((Op × UInt32) × Process)} {p : Process}
    (hrun : Run (Process.Step brk₀) (Process.start mem os) tr p) :
    (∃ trH H, Run Heap.Step [] trH H ∧ labels trH = labels tr ∧
      p.allocs = H.map Cell.alloc ∧ ∀ c ∈ H, c.In p.machine.mem) ∧
    ∀ op, p.Allowed op → p.Answered brk₀ op →
      (∃ r q, p.Step brk₀ (op, r) q) ∨ p.perform op = .error .allocError := by
  have hstart : Backs brk₀ (Process.start mem os) [] :=
    ⟨⟨_, .start mem os⟩, fun hpage => absurd rfl hpage, ⟨rfl, by simp [InitOk, Process.start]⟩,
      rfl, fun _ hc => by cases hc⟩
  have hkeeps : ∃ H, Backs brk₀ p H :=
    hrun.invariant (I := fun p => ∃ H, Backs brk₀ p H) ⟨_, hstart⟩ fun _ _ _ h hs =>
      h.elim fun _ h => (h.step hs).imp fun _ h => h.2
  have hstep : ∀ p l q H, Backs brk₀ p H → Process.Step brk₀ p l q →
      ∃ H', H.Step l H' ∧ Backs brk₀ q H' := fun _ _ _ _ h hs => h.step hs
  constructor
  · obtain ⟨trH, H, hrunH, hlabels, h⟩ := hrun.simulation hstart hstep
    exact ⟨trH, H, hrunH, hlabels, h.allocs, h.bytes⟩
  · intro op hop hanswered
    obtain ⟨H, h⟩ := hkeeps
    rcases h.perform hop hanswered with ⟨r, q, _, hperform, hok, _⟩ | hnone
    · exact .inl ⟨r, q, hop, hperform, hok⟩
    · exact .inr hnone

/-- The step of an operation, when there is one. -/
def Process.exec (brk₀ : Nat) (p : Process) (op : Op) : Option (UInt32 × Process) :=
  if p.Allowed op then
    match p.perform op with
    | .ok (r, q) => if BreakOk brk₀ q.machine.log then some (r, q) else none
    | .error _ => none
  else none

theorem exists_run_of_exec {γ : Type} {brk₀ : Nat} {ops : List Op} {rs : List UInt32}
    {p : Process} (obs : Process → γ) {v : γ}
    (h : ((play (Process.exec brk₀) ops p).map fun w => (w.1, obs w.2)) = some (rs, v)) :
    ∃ tr q, Run (Process.Step brk₀) p tr q ∧ labels tr = ops.zip rs ∧ obs q = v := by
  have hexec : ∀ p op r q, p.exec brk₀ op = some (r, q) → Process.Step brk₀ p (op, r) q := by
    intro p op r q h
    rw [Process.exec] at h
    split at h
    · rename_i hallowed
      split at h
      · rename_i hperform
        rw [Option.ite_none_right_eq_some] at h
        obtain ⟨hok, heq⟩ := h
        cases heq
        exact ⟨hallowed, hperform, hok⟩
      · cases h
    · cases h
  exact exists_run_of_play hexec h

/-- Twenty zeroed bytes at 4096, one of them set, move to a block of 100. -/
theorem rust_heap_moved : ∃ tr p, Run (Process.Step 4092)
      (Process.start (fun _ => 0) twoRegions) tr p ∧
    (labels tr).map Prod.snd = [4096, 0, 8192] ∧ p.machine.mem 8194 = 7 ∧
    ∃ trH H, Run Heap.Step [] trH H ∧ labels trH = labels tr ∧ ∀ c ∈ H, c.In p.machine.mem := by
  obtain ⟨tr, p, hrun, hlabels, hbyte⟩ := exists_run_of_exec (fun p => p.machine.mem 8194)
    (show ((play (Process.exec 4092)
        [.allocZeroed ⟨20, 4, ⟨2, rfl⟩, by decide⟩,
          .write ⟨4096, ⟨20, 4, ⟨2, rfl⟩, by decide⟩⟩ 2 7,
          .realloc ⟨4096, ⟨20, 4, ⟨2, rfl⟩, by decide⟩⟩ ⟨100, 4, ⟨2, rfl⟩, by decide⟩]
        (Process.start (fun _ => 0) twoRegions)).map fun v => (v.1, v.2.machine.mem 8194))
          = some ([4096, 0, 8192], 7) by
      decide +kernel)
  obtain ⟨⟨trH, H, hrunH, hlabelsH, _, hin⟩, _⟩ := rust_heap hrun
  exact ⟨tr, p, hrun, by rw [hlabels]; rfl, hbyte, trH, H, hrunH, hlabelsH, hin⟩

end Challenges.Kmalloc

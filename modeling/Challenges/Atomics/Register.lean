import Challenges.Atomics.Add

/-!
# Register — loads, stores, swaps and adds

A register holds the value that was most recently written to it. The
functions make a register of each word, and the signed ones do what their
unsigned counterparts do; all but `load_int32`, which returns zero whatever
the register holds.
-/

namespace Challenges.Atomics

open Challenges.Lib

variable {w : Nat}

/-! ## Registers -/

def Variant.bits : (v : Variant w) → v.Value → BitVec w
  | int32, x => x.toBitVec
  | uint32, x => x.toBitVec
  | int64, x => x.toBitVec
  | uint64, x => x.toBitVec
  | uintptr, x => x.toBitVec
  | pointer, x => x

namespace RegisterCall

/-- What a call makes of the value in its register. -/
def writes : RegisterCall w → BitVec w → BitVec w
  | load .., value => value
  | store v _ val, _ => v.bits val
  | swap v _ new, _ => v.bits new
  | add c, value => value + BitVec.ofInt w c.delta

/-- What it returns. -/
def answer : RegisterCall w → BitVec w → Option (BitVec w)
  | load .., value => some value
  | store .., _ => none
  | swap .., value => some value
  | add c, value => some (value + BitVec.ofInt w c.delta)

/-- The value most recently written to `a`, and the first one when there is
none. -/
def lastWritten (m : Memory w) (calls : List (RegisterCall w)) : Memory w := fun a =>
  (calls.filter fun c => c.addr = a).foldl (fun value c => c.writes value) (m a)

/-- What registers answer to a sequence of calls. -/
def answers (m : Memory w) (calls : List (RegisterCall w)) : List (Option (BitVec w)) :=
  calls.mapIdx fun i c => c.answer (lastWritten m (calls.take i) c.addr)

/-- The unsigned counterpart of a call. -/
def unsigned : {w : Nat} → RegisterCall w → RegisterCall w
  | _, load .int32 addr => load .uint32 addr
  | _, load .int64 addr => load .uint64 addr
  | _, store .int32 addr val => store .uint32 addr val.toUInt32
  | _, store .int64 addr val => store .uint64 addr val.toUInt64
  | _, swap .int32 addr new => swap .uint32 addr new.toUInt32
  | _, swap .int64 addr new => swap .uint64 addr new.toUInt64
  | _, add (.int32 addr delta) => add (.uint32 addr delta.toUInt32)
  | _, add (.int64 addr delta) => add (.uint64 addr delta.toUInt64)
  | _, c => c

/-- A call of `load_int32`. -/
def Stub : {w : Nat} → RegisterCall w → Prop
  | _, load .int32 _ => True
  | _, _ => False

/-- One call to the registers. -/
def step (m : Memory w) (c : RegisterCall w) : Memory w :=
  Function.update m c.addr (c.writes (m c.addr))

variable {m : Memory w} {c : RegisterCall w} {calls : List (RegisterCall w)}

theorem lastWritten_cons :
    lastWritten m (c :: calls) = lastWritten (step m c) calls := by
  funext a
  by_cases ha : c.addr = a
  · subst ha
    simp [lastWritten, step]
  · simp [lastWritten, step, ha, Function.update_of_ne (Ne.symm ha)]

theorem answers_cons :
    answers m (c :: calls) = c.answer (m c.addr) :: answers (step m c) calls := by
  simp only [answers, List.mapIdx_cons, List.take_succ_cons, lastWritten_cons]
  rfl

/-! ## The functions -/

variable {cpu : Cpu}

theorem storeCall_eq (addr : Address) (rdx : BitVec w) (v : Variant w) (val : v.Value) :
    storeCall addr rdx v val = ⟨[.xchg .rsi .rdi, .ret], addr, v.bits val, rdx⟩ := by
  cases v <;> rfl

theorem swapCall_eq (addr : Address) (rdx : BitVec w) (v : Variant w) (new : v.Value) :
    swapCall addr rdx v new
      = ⟨[.mov .rsi .rax, .xchg .rax .rdi, .ret], addr, v.bits new, rdx⟩ := by
  cases v <;> rfl

theorem Variant.width_le (v : Variant w) : w ≤ 64 := by
  cases v <;> decide

/-- A store exchanges the word, and drops what was there. -/
theorem exec_store {v : Variant w} {addr : Address} {val : v.Value}
    (h : (store v addr val).Enters cpu) (m : Memory w) :
    (store v addr val).exec cpu m = (step m (store v addr val), none) := by
  simp only [Enters, code, Code.Enters, storeCall_eq] at h
  obtain ⟨hrdi, hrsi, _⟩ := h
  have hmem : (execAll [.xchg .rsi .rdi, .ret] cpu m).mem
      = Function.update m cpu.rdi (cpu.read w .rsi) := rfl
  simp only [exec, code, storeCall_eq, hmem, hrdi, hrsi, isVoid]
  rfl

/-- A swap returns it. -/
theorem exec_swap {v : Variant w} {addr : Address} {new : v.Value}
    (h : (swap v addr new).Enters cpu) (m : Memory w) :
    (swap v addr new).exec cpu m = (step m (swap v addr new), some (m addr)) := by
  simp only [Enters, code, Code.Enters, swapCall_eq] at h
  obtain ⟨hrdi, hrsi, _⟩ := h
  simp only at hrdi hrsi
  have hread := fun (c : Cpu) (x : BitVec w) => Cpu.read_write c .rax x (Variant.width_le v)
  have hmem : (execAll [.mov .rsi .rax, .xchg .rax .rdi, .ret] cpu m).mem
      = Function.update m cpu.rdi ((cpu.write .rax (cpu.read w .rsi)).read w .rax) := rfl
  have hrax : (execAll [.mov .rsi .rax, .xchg .rax .rdi, .ret] cpu m).cpu
      = (cpu.write .rax (cpu.read w .rsi)).write .rax (m cpu.rdi) := rfl
  simp only [exec, code, swapCall_eq, hmem, hrax, hread, hrdi, hrsi, isVoid]
  rfl

theorem exec_add {c : AddCall w} (h : (add c).Enters cpu) (m : Memory w) :
    (add c).exec cpu m
      = (step m (add c), some (m c.addr + BitVec.ofInt w c.delta)) := by
  have hcall : ((addApi w).code (c, cpu.read w .rdx)).Enters cpu := h
  obtain ⟨hmem, hrax⟩ := execAll_add hcall m
  exact Prod.ext hmem (congrArg some hrax)

/-- The functions do to the memory what a register does. -/
theorem exec_fst (h : c.Enters cpu) (m : Memory w) : (c.exec cpu m).1 = step m c := by
  cases c with
  | load v addr => exact (Function.update_eq_self addr m).symm
  | store v addr val => rw [exec_store h]
  | swap v addr new => rw [exec_swap h]
  | add c => rw [exec_add h]

/-- They answer as it does, all but one of them. -/
theorem exec_snd_iff (h : c.Enters cpu) (m : Memory w) :
    (c.exec cpu m).2 = c.answer (m c.addr) ↔ (c.Stub → m c.addr = 0) := by
  cases c with
  | load v addr =>
      cases v with
      | int32 =>
          constructor
          · intro heq _
            exact (Option.some.inj heq).symm
          · intro hzero
            exact congrArg some (hzero trivial).symm
      | _ => exact iff_of_true rfl False.elim
  | store v addr val =>
      rw [exec_store h]
      exact iff_of_true rfl False.elim
  | swap v addr new =>
      rw [exec_swap h]
      exact iff_of_true rfl False.elim
  | add c =>
      rw [exec_add h]
      exact iff_of_true rfl False.elim

/-! ## Sequences of calls -/

/-- Whenever `load_int32` is called, the register holds zero. -/
def StubsReadZero (m : Memory w) (calls : List (RegisterCall w)) : Prop :=
  ∀ i c, calls[i]? = some c → c.Stub → lastWritten m (calls.take i) c.addr = 0

theorem stubsReadZero_cons :
    StubsReadZero m (c :: calls) ↔
      (c.Stub → m c.addr = 0) ∧ StubsReadZero (step m c) calls := by
  constructor
  · intro h
    refine ⟨fun hstub => h 0 c rfl hstub, fun i d hd hstub => ?_⟩
    rw [← lastWritten_cons]
    exact h (i + 1) d hd hstub
  · intro h i d hd hstub
    obtain ⟨hfirst, hrest⟩ := h
    cases i with
    | zero =>
        cases hd
        exact hfirst hstub
    | succ i =>
        rw [List.take_succ_cons, lastWritten_cons]
        exact hrest i d hd hstub

section Sequences

variable {seq : List (RegisterCall w × Cpu)}

/-- The memory holds what has been written last. -/
theorem execCalls_fst (h : ∀ p ∈ seq, p.1.Enters p.2) (m : Memory w) :
    (execCalls seq m).1 = lastWritten m (seq.map Prod.fst) := by
  induction seq generalizing m with
  | nil => rfl
  | cons p seq ih =>
      obtain ⟨hp, hrest⟩ := List.forall_mem_cons.mp h
      rw [List.map_cons, lastWritten_cons, ← exec_fst hp m]
      exact ih hrest _

theorem execCalls_snd_iff (h : ∀ p ∈ seq, p.1.Enters p.2) (m : Memory w) :
    (execCalls seq m).2 = answers m (seq.map Prod.fst) ↔
      StubsReadZero m (seq.map Prod.fst) := by
  induction seq generalizing m with
  | nil => exact iff_of_true rfl fun i c hc => by cases hc
  | cons p seq ih =>
      obtain ⟨hp, hrest⟩ := List.forall_mem_cons.mp h
      rw [List.map_cons, answers_cons, stubsReadZero_cons, ← exec_snd_iff hp m, ← exec_fst hp m,
        ← ih hrest]
      exact List.cons_eq_cons

end Sequences

/-! ## Signed and unsigned -/

theorem unsigned_addr (c : RegisterCall w) : c.unsigned.addr = c.addr := by
  cases c with
  | add c => cases c <;> rfl
  | load v _ | store v _ _ | swap v _ _ => cases v <;> rfl

theorem not_stub_unsigned (c : RegisterCall w) : ¬ c.unsigned.Stub := by
  cases c with
  | add c => cases c <;> exact id
  | load v _ | store v _ _ | swap v _ _ => cases v <;> exact id

theorem unsigned_writes (c : RegisterCall w) (value : BitVec w) :
    c.unsigned.writes value = c.writes value := by
  cases c with
  | load v _ | store v _ _ | swap v _ _ => cases v <;> rfl
  | add c =>
      cases c with
      | int32 addr delta =>
          exact congrArg (value + ·) ((ofInt_toNat delta.toBitVec).trans BitVec.ofInt_toInt.symm)
      | int64 addr delta =>
          exact congrArg (value + ·) ((ofInt_toNat delta.toBitVec).trans BitVec.ofInt_toInt.symm)
      | _ => rfl

theorem unsigned_answer (c : RegisterCall w) (value : BitVec w) :
    c.unsigned.answer value = c.answer value := by
  have hwrites := unsigned_writes c value
  cases c with
  | load v _ | store v _ _ | swap v _ _ => cases v <;> rfl
  | add c => cases c <;> exact congrArg some hwrites

theorem step_unsigned (m : Memory w) (c : RegisterCall w) : step m c.unsigned = step m c := by
  rw [step, step, unsigned_addr, unsigned_writes]

/-- To the registers, a call and its unsigned counterpart are the same. -/
theorem lastWritten_unsigned (m : Memory w) (calls : List (RegisterCall w)) :
    lastWritten m (calls.map unsigned) = lastWritten m calls := by
  induction calls generalizing m with
  | nil => rfl
  | cons c calls ih => rw [List.map_cons, lastWritten_cons, lastWritten_cons, step_unsigned, ih]

theorem answers_unsigned (m : Memory w) (calls : List (RegisterCall w)) :
    answers m (calls.map unsigned) = answers m calls := by
  induction calls generalizing m with
  | nil => rfl
  | cons c calls ih =>
      rw [List.map_cons, answers_cons, answers_cons, step_unsigned, unsigned_addr, unsigned_answer,
        ih]

theorem stubsReadZero_unsigned (m : Memory w) (calls : List (RegisterCall w)) :
    StubsReadZero m (calls.map unsigned) := by
  intro i c hc hstub
  obtain ⟨d, _, rfl⟩ := List.mem_map.mp (List.mem_of_getElem? hc)
  exact absurd hstub (not_stub_unsigned d)

/-- **One register for each word**: the memory ends with what has been written
last, each call returns what the register holds at that moment, and the
unsigned counterparts leave the same memory and return the same bits, exactly
when every `load_int32` meets a zero. -/
theorem register_iff (m : Memory w) (seq : List (RegisterCall w × Cpu))
    (henters : ∀ p ∈ seq, p.1.Enters p.2) :
    (execCalls seq m = (lastWritten m (seq.map Prod.fst), answers m (seq.map Prod.fst)) ∧
      ∀ seq' : List (RegisterCall w × Cpu), (∀ p ∈ seq', p.1.Enters p.2) →
        seq'.map Prod.fst = (seq.map Prod.fst).map unsigned →
        execCalls seq' m = execCalls seq m) ↔
      StubsReadZero m (seq.map Prod.fst) := by
  rw [← execCalls_snd_iff henters m]
  constructor
  · intro h
    exact congrArg Prod.snd h.1
  · intro h
    refine ⟨Prod.ext (execCalls_fst henters m) h, fun seq' henters' hseq => Prod.ext ?_ ?_⟩
    · rw [execCalls_fst henters m, execCalls_fst henters' m, hseq, lastWritten_unsigned]
    · have hread : StubsReadZero m (seq'.map Prod.fst) := hseq ▸ stubsReadZero_unsigned m _
      rw [h, (execCalls_snd_iff henters' m).mpr hread, hseq, answers_unsigned]

/-- A word that is stored, read, exchanged and added to. -/
theorem register_iff_word : ∃ seq : List (RegisterCall 32 × Cpu),
    seq.map Prod.fst = [store .int32 0x40 (-1), load .uint32 0x40, load .int32 0x44,
      add (.uint32 0x40 3), swap .int32 0x40 7] ∧
      execCalls seq (fun _ => 0)
        = (lastWritten (fun _ => 0) (seq.map Prod.fst), answers (fun _ => 0) (seq.map Prod.fst)) ∧
      answers (fun _ => 0) (seq.map Prod.fst)
        = [none, some 0xffffffff, some 0, some 2, some 2] := by
  refine ⟨[(store .int32 0x40 (-1), ⟨0, 0x40, 0xffffffff, 0, false⟩),
    (load .uint32 0x40, ⟨1, 0x40, 2, 3, true⟩), (load .int32 0x44, ⟨1, 0x44, 2, 3, true⟩),
    (add (.uint32 0x40 3), ⟨9, 0x40, 3, 0, false⟩),
    (swap .int32 0x40 7, ⟨8, 0x40, 7, 1, true⟩)], rfl, ?_, by decide⟩
  exact ((register_iff _ _ (by decide)).mpr
    ((execCalls_snd_iff (by decide) _).mp (by decide))).1

/-- `load_int32` does not see what `store_int32` has written, and `load_uint32`
does. -/
theorem load_int32_reads_zero :
    (store .int32 0x40 5).Enters ⟨0, 0x40, 5, 0, false⟩ ∧
      (load .int32 0x40).Enters ⟨0, 0x40, 0, 0, false⟩ ∧
      (execCalls [(store .int32 0x40 5, ⟨0, 0x40, 5, 0, false⟩),
        (load .int32 0x40, ⟨0, 0x40, 0, 0, false⟩)] fun _ => 0).2 = [none, some 0] ∧
      (execCalls [(store .uint32 0x40 5, ⟨0, 0x40, 5, 0, false⟩),
        (load .uint32 0x40, ⟨0, 0x40, 0, 0, false⟩)] fun _ => 0).2 = [none, some 5] ∧
      answers (fun _ => 0) [store .int32 0x40 5, load .int32 0x40] = [none, some 5] := by
  refine ⟨?_, ?_, ?_, ?_, ?_⟩ <;> decide

end RegisterCall

end Challenges.Atomics

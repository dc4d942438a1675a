import Challenges.Atomics.Interface

/-!
# Linearizable — the interface as a whole

Whatever calls the threads make, on words of any width, on whatever addresses,
the calls take effect in one order: one word read, computed and written back
after the other. Only the loads are to be of words that are aligned; the others
have a `lock`, or an `xchg`. The order is settled as the run goes on, and each
call has its place in it by the time it returns. No call waits for another, and
none is tried again.

Flags of several threads share a byte. What a thread does to a bit with
`_or8`, `_and8`, `_or`, `_and` and `_store8` is not undone by what the others
do to the bits beside it.
-/

namespace Challenges.Atomics

open Challenges.Lib

variable {w : Nat}

/-! ## The order of the calls -/

/-- The steps of a call: it is entered, executes its instructions, and returns. -/
theorem steps_le (calls : List (List AnyCall)) :
    (calls.map fun l => (l.map fun k => (routines.code k).length + 2).sum).sum
      ≤ 6 * calls.flatten.length := by
  have hone : ∀ l : List AnyCall,
      (l.map fun k => (routines.code k).length + 2).sum ≤ 6 * l.length := by
    intro l
    induction l with
    | nil => exact Nat.le_refl 0
    | cons c l ih =>
        have hcode : (routines.code c).length = c.2.code.length := List.length_map _
        have := c.2.length_code_le
        simp only [List.map_cons, List.sum_cons, List.length_cons, hcode]
        omega
  induction calls with
  | nil => exact Nat.le_refl 0
  | cons l calls ih =>
      have := hone l
      simp only [List.map_cons, List.sum_cons, List.flatten_cons, List.length_append]
      omega

/-- **The functions are linearizable**, all of them together, when the address of
each load is a multiple of the size of its word. In every interleaving the calls
have an order in which each of them, on its own, gives the reply that it gave and
leaves the memory that is there; thread by thread it is the order of the program.
It only grows as the run goes on, so a call that
has returned comes before all calls that begin later. A call takes no more than
six steps, whatever the other threads do, and no interleaving is stuck before
all calls have returned. -/
theorem linearizable (m : Bytes 64) (calls : List (List AnyCall))
    (tr : List ((Nat × Cpu) × System (Bytes 64) Core))
    (a : System (Bytes 64) Core)
    (hwhole : ∀ c ∈ calls.flatten, c.2.Whole)
    (hrun : Run routines.Step ⟨m, calls.map .ready⟩ tr a) :
    Routines.Linearizes AtomicCall.op m calls
      (routines.order AtomicCall.op ⟨m, calls.map .ready⟩ tr) a ∧
    (∀ tr₁ tr₂, tr = tr₁ ++ tr₂ → routines.order AtomicCall.op ⟨m, calls.map .ready⟩ tr₁
      <+: routines.order AtomicCall.op ⟨m, calls.map .ready⟩ tr) ∧
    tr.length ≤ 6 * calls.flatten.length ∧
    ∃ tr' b, Run routines.Step a tr' b ∧ ∀ t ∈ b.threads, t.Finished := by
  refine ⟨Routines.linearizes_order routines_local routines_once
    (fun c hc => routines_does (hwhole c hc)) hrun, ?_, ?_,
    Routines.exists_finished (fun c => c.2.exists_enters) a⟩
  · intro tr₁ tr₂ htr
    rw [htr]
    exact Routines.order_prefix _ tr₁ tr₂
  · have hsteps := Routines.steps_eq hrun
    have := steps_le calls
    omega

/-- What is left in the memory when two words overlap, and what a load reads:
the byte at `0x41` is the second one of the word at `0x40`. -/
theorem linearizable_overlap : ∃ tr a,
    Run routines.Step ⟨fun _ => 0,
      [[⟨32, .register (.add (.uint32 0x40 5))⟩, ⟨32, .compareAndSwap (.uint32 0x40 0x105 9)⟩],
        [⟨8, .bits (.or8 0x41 1)⟩, ⟨32, .register (.load .uint32 0x40)⟩]].map .ready⟩ tr a ∧
      (labels tr).map Prod.fst
        = [0, 0, 0, 1, 1, 0, 0, 0, 0, 0, 1, 1, 1, 1, 0, 0, 0, 0, 1, 1] ∧
      Routines.Linearizes AtomicCall.op (fun _ => 0)
        [[⟨32, .register (.add (.uint32 0x40 5))⟩, ⟨32, .compareAndSwap (.uint32 0x40 0x105 9)⟩],
          [⟨8, .bits (.or8 0x41 1)⟩, ⟨32, .register (.load .uint32 0x40)⟩]]
        (routines.order AtomicCall.op ⟨fun _ => 0,
          [[⟨32, .register (.add (.uint32 0x40 5))⟩, ⟨32, .compareAndSwap (.uint32 0x40 0x105 9)⟩],
            [⟨8, .bits (.or8 0x41 1)⟩, ⟨32, .register (.load .uint32 0x40)⟩]].map .ready⟩ tr) a ∧
      a.state.load 32 0x40 = 9 ∧
      a.threads.map (fun t => t.done.map Prod.snd) = [[some 1, some 5], [some 0x105, none]] := by
  obtain ⟨tr, a, hrun, hlabels, hstate⟩ := routines.exists_run
    ⟨fun _ => 0,
      [[⟨32, .register (.add (.uint32 0x40 5))⟩, ⟨32, .compareAndSwap (.uint32 0x40 0x105 9)⟩],
        [⟨8, .bits (.or8 0x41 1)⟩, ⟨32, .register (.load .uint32 0x40)⟩]].map .ready⟩
    [(0, ⟨3, 0x40, 5, 0, false⟩), (0, .zero), (0, .zero), (1, ⟨7, 0x41, 1, 0, true⟩),
      (1, .zero), (0, .zero), (0, .zero), (0, .zero), (0, ⟨1, 0x40, 0x105, 9, false⟩), (0, .zero),
      (1, .zero), (1, .zero), (1, ⟨8, 0x40, 2, 0, false⟩), (1, .zero), (0, .zero), (0, .zero),
      (0, .zero), (0, .zero), (1, .zero), (1, .zero)]
    (fun b => (b.state.load 32 0x40, b.threads.map fun t => t.done.map Prod.snd))
    (9, [[some 1, some 5], [some 0x105, none]]) (by decide +kernel)
  obtain ⟨hword, hreplies⟩ := Prod.ext_iff.mp hstate
  exact ⟨tr, a, hrun, by rw [hlabels]; rfl,
    (linearizable _ _ tr a (by simp [AtomicCall.Whole, Aligned]) hrun).1, hword, hreplies⟩

/-! ## Bits -/

/-- What the call makes of a bit of its word, `bit` being that of its argument;
`none` when it leaves it. -/
def BitCall.onBit (bit : Bool) : BitCall w → Option Bool
  | store8 .. => some bit
  | or8 .. | or .. => if bit then some true else none
  | and8 .. | and .. => if bit then none else some false

theorem BitCall.getLsbD_writes (c : BitCall w) (v : BitVec w) (i : Nat) :
    (c.writes v).getLsbD i = (c.onBit (c.code.rsi.getLsbD i)).getD (v.getLsbD i) := by
  cases c with
  | store8 ptr val => rfl
  | or8 ptr val | or ptr val =>
      refine (BitVec.getLsbD_or ..).trans ?_
      simp only [onBit, code, Atomics.or8, Atomics.or]
      by_cases hbit : val.toBitVec.getLsbD i = true <;> simp [hbit]
  | and8 ptr val | and ptr val =>
      refine (BitVec.getLsbD_and ..).trans ?_
      simp only [onBit, code, Atomics.and8, Atomics.and]
      by_cases hbit : val.toBitVec.getLsbD i = true <;> simp [hbit]

/-- What a call makes of bit `j` of the byte at `x`. The functions of `atomic.c`
are to keep to other bytes. -/
def effect (x : Address) (j : Nat) (c : AnyCall) : Option Bool :=
  match c.2 with
  | .bits d =>
      if (x - d.code.rdi).toNat < c.1 / 8 then
        d.onBit (d.code.rsi.getLsbD (8 * (x - d.code.rdi).toNat + j))
      else none
  | _ => none

/-- The call is one of a routine for bits, or its word does not contain the
byte at `x`. -/
def OnBits (x : Address) (c : AnyCall) : Prop :=
  match c.2 with
  | .bits _ => True
  | d => c.1 / 8 ≤ (x - d.target).toNat

theorem getLsbD_op {x : Address} {j : Nat} (hj : j < 8) {c : AnyCall} (h : OnBits x c)
    (m : Bytes 64) :
    ((AtomicCall.op c m).1 x).getLsbD j = (effect x j c).getD ((m x).getLsbD j) := by
  obtain ⟨w, c⟩ := c
  refine (Bytes.getLsbD_store m hj (c.writes (m.load w c.target))).trans ?_
  cases c with
  | bits c =>
      by_cases hx : (x - c.code.rdi).toNat < w / 8
      · have hold := Bytes.getLsbD_load_of_mem (AtomicCall.bits c).dvd (m := m) hj hx
        refine (if_pos hx).trans ?_
        simp only [effect, if_pos hx]
        rw [← hold]
        exact c.getLsbD_writes _ _
      · simp only [effect, if_neg hx]
        exact if_neg hx
  | register c | compareAndSwap c => exact if_neg (Nat.not_lt.mpr h)

/-- The last effect on a bit stays. -/
theorem getLsbD_serial {x : Address} {j : Nat} (hj : j < 8) {m m' : Bytes 64}
    {steps : List ((AnyCall × Unit) × Bytes 64)}
    (hrun : Run (Serial AtomicCall.mute) m steps m')
    (hbits : ∀ l ∈ labels steps, OnBits x l.1) :
    (m' x).getLsbD j
      = (((labels steps).map Prod.fst).filterMap (effect x j)).getLast?.getD ((m x).getLsbD j) := by
  induction hrun with
  | nil => rfl
  | @snoc steps b l c _ hserial ih =>
      obtain ⟨k, r⟩ := l
      rw [labels_snoc] at hbits ⊢
      have hk : OnBits x k := hbits (k, r) (by simp)
      have hc : c = (AtomicCall.op k b).1 := (congrArg Prod.fst hserial).symm
      rw [hc, getLsbD_op hj hk, ih fun l hl => hbits l (List.mem_append_left _ hl), List.map_append,
        List.filterMap_append]
      cases hke : effect x j k with
      | none => simp [hke]
      | some bit => simp [hke]

section Runs

variable {m : Bytes 64} {calls : List (List AnyCall)}
  {l : List (Nat × AnyCall × Unit)}
  {a : System (Bytes 64) (Worker (Σ w, Micro w) Cpu AnyCall Unit)}
  {x : Address} {j : Nat}

/-- A bit after the calls of an order. -/
theorem getLsbD_of_linearizes 
    (h : Routines.Linearizes AtomicCall.mute m calls l a) (hj : j < 8)
    (hbits : ∀ c ∈ calls.flatten, OnBits x c) :
    (a.state x).getLsbD j
      = ((l.map fun c => c.2.1).filterMap (effect x j)).getLast?.getD ((m x).getLsbD j) := by
  obtain ⟨steps, hserial, hlabels⟩ := h.serial
  have hon : ∀ d ∈ labels steps, OnBits x d.1 := by
    intro d hd
    rw [hlabels] at hd
    obtain ⟨c, hc, rfl⟩ := List.mem_map.mp hd
    obtain ⟨own, hown, hmem⟩ := h.mem_calls hc
    exact hbits _ (List.mem_flatten.mpr ⟨own, List.mem_of_getElem? hown, hmem⟩)
  rw [getLsbD_serial hj hserial hon, hlabels, List.map_map]
  rfl

end Runs

/-- **Flags are not lost.** A bit that one thread alone changes is as the last
of its calls has left it, in every state of every interleaving in which that
thread is not in a call; so threads may keep their flags in one byte. And once
all threads have finished, a bit that all of them change to one value has that
value, if any of them changes it. -/
theorem flags_kept (m : Bytes 64) (calls : List (List AnyCall))
    (tr : List ((Nat × Cpu) × System (Bytes 64) Core))
    (a : System (Bytes 64) Core)
    (hrun : Run routines.Step ⟨m, calls.map .ready⟩ tr a) (x : Address) (j : Nat) (hj : j < 8)
    (hbits : ∀ c ∈ calls.flatten, OnBits x c) :
    (∀ (i : Nat) (t : Core), a.threads[i]? = some t → t.running = none →
      (∀ (i' : Nat) (other : List AnyCall), i' ≠ i → calls[i']? = some other →
        ∀ c ∈ other, effect x j c = none) →
      (a.state x).getLsbD j
        = ((t.done.reverse.map Prod.fst).filterMap (effect x j)).getLast?.getD ((m x).getLsbD j)) ∧
    ((∀ t ∈ a.threads, t.Finished) → ∀ bit,
      (∀ c ∈ calls.flatten, effect x j c = none ∨ effect x j c = some bit) →
      (∃ c ∈ calls.flatten, effect x j c = some bit) → (a.state x).getLsbD j = bit) := by
  -- the replies do not matter here, and neither does it whether a load is aligned
  obtain ⟨tr', b, hmute, hstate, hthreads⟩ := Routines.exists_mute hrun
  have hlin := Routines.linearizes_order (R := routines.mute) routines_local routines_once
    (fun c _ => routines_mute_does c) hmute
  rw [← hstate, getLsbD_of_linearizes hlin hj hbits]
  constructor
  · intro i t hget hidle hothers
    have hmuted : b.threads[i]? = some t.mute := by
      rw [hthreads, List.getElem?_map, hget, Option.map_some]
    have hpart : Routines.part i (routines.mute.order AtomicCall.mute ⟨m, calls.map .ready⟩ tr')
        = t.mute.done.reverse := by
      rcases hlin.returned i t.mute hmuted with hdone | ⟨k, rest, q, r, hrunning, _⟩
      · exact hdone
      · rw [show t.mute.running = t.running from rfl, hidle] at hrunning
        cases hrunning
    rw [Routines.filterMap_part (i := i), hpart, List.map_reverse, t.map_fst_mute,
      ← List.map_reverse]
    intro c hc hne
    obtain ⟨own, hown, hmem⟩ := hlin.mem_calls hc
    exact hothers c.1 own hne hown c.2.1 hmem
  · intro hfinished bit hagree hsome
    obtain ⟨c, hc, hbit⟩ := hsome
    obtain ⟨own, hown, hmem⟩ := List.mem_flatten.mp hc
    obtain ⟨i, hi⟩ := List.mem_iff_getElem?.mp hown
    have hmuted : ∀ t ∈ b.threads, t.Finished := by
      intro t ht
      rw [hthreads] at ht
      obtain ⟨u, hu, rfl⟩ := List.mem_map.mp ht
      exact hfinished u hu
    -- the call is in the order, so that the effects are not empty
    have hin : bit ∈ ((routines.mute.order AtomicCall.mute ⟨m, calls.map .ready⟩ tr').map
        fun c => c.2.1).filterMap (effect x j) := by
      rw [← hlin.part_eq hmuted hi] at hmem
      obtain ⟨p, hp, rfl⟩ := List.mem_map.mp hmem
      obtain ⟨d, hd, rfl⟩ := List.mem_map.mp hp
      exact List.mem_filterMap.mpr ⟨_, List.mem_map_of_mem (List.mem_filter.mp hd).1, hbit⟩
    have hall : ∀ b ∈ ((routines.mute.order AtomicCall.mute ⟨m, calls.map .ready⟩ tr').map
        fun c => c.2.1).filterMap (effect x j), b = bit := by
      intro b hb
      obtain ⟨k, hk, hkb⟩ := List.mem_filterMap.mp hb
      obtain ⟨d, hd, rfl⟩ := List.mem_map.mp hk
      obtain ⟨other, hother, hd'⟩ := hlin.mem_calls hd
      rcases hagree _ (List.mem_flatten.mpr ⟨other, List.mem_of_getElem? hother, hd'⟩) with h | h
      · rw [h] at hkb
        cases hkb
      · rw [h] at hkb
        exact (Option.some.inj hkb).symm
    have hlast := List.getLast?_eq_some_getLast (List.ne_nil_of_mem hin)
    rw [hlast, Option.getD_some]
    exact hall _ (List.getLast_mem _)

/-- Two threads set and clear flags of one byte. -/
theorem flags_kept_byte : ∃ tr a,
    Run routines.Step ⟨fun _ => 0x10,
      [[⟨8, .bits (.or8 0x40 1)⟩, ⟨8, .bits (.or8 0x40 2)⟩], [⟨32, .bits (.and 0x40 0xffffffef)⟩]].map
        .ready⟩ tr a ∧
      (labels tr).map Prod.fst = [0, 1, 1, 0, 0, 0, 0, 0, 1, 1, 0, 0] ∧
      (a.state 0x40).getLsbD 0 = true ∧ (a.state 0x40).getLsbD 4 = false := by
  obtain ⟨tr, a, hrun, hlabels, hthreads⟩ := routines.exists_run
    ⟨fun _ => 0x10,
      [[⟨8, .bits (.or8 0x40 1)⟩, ⟨8, .bits (.or8 0x40 2)⟩], [⟨32, .bits (.and 0x40 0xffffffef)⟩]].map
        .ready⟩
    [(0, ⟨3, 0x40, 1, 0, false⟩), (1, ⟨5, 0x40, 0xffffffef, 0, false⟩), (1, .zero), (0, .zero),
      (0, .zero), (0, .zero), (0, ⟨7, 0x40, 2, 0, true⟩), (0, .zero), (1, .zero), (1, .zero),
      (0, .zero), (0, .zero)]
    (fun b => b.threads.all fun t => t.todo.isEmpty && t.running.isNone) true (by decide +kernel)
  have hfinished : ∀ t ∈ a.threads, t.Finished := by
    intro t ht
    have hreturned := List.all_eq_true.mp hthreads t ht
    rwa [Bool.and_eq_true, List.isEmpty_iff, Option.isNone_iff_eq_none] at hreturned
  have hkept := fun (j : Nat) (hj : j < 8) =>
    (flags_kept _ _ tr a hrun 0x40 j hj (by simp [OnBits])).2 hfinished
  exact ⟨tr, a, hrun, by rw [hlabels]; rfl, hkept 0 (by decide) true (by decide) (by decide),
    hkept 4 (by decide) false (by decide) (by decide)⟩

end Challenges.Atomics

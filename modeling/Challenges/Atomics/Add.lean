import Mathlib.Algebra.BigOperators.Group.List.Basic
import Mathlib.Data.BitVec
import Challenges.Atomics.Program

/-!
# Add — the add functions

The word is changed in the `lock xadd`, and the `add` after it computes from
private registers what the word has become. Threads that call the functions
call an object whose operation is addition, and sums do not depend on the
order.
-/

namespace Challenges.Atomics

open Challenges.Lib

variable {w : Nat}

/-- Addition on the first argument, which answers with the sum. -/
def addOp (c : AddCall w × BitVec w) (m : Memory w) : Memory w × BitVec w :=
  let sum := m c.1.addr + BitVec.ofInt w c.1.delta
  (Function.update m c.1.addr sum, sum)

/-- The answer is what the word has become. -/
theorem addOp_self (c : AddCall w × BitVec w) (m : Memory w) :
    (addOp c m).1 c.1.addr = (addOp c m).2 :=
  Function.update_self ..

theorem ofInt_toNat (v : BitVec w) : BitVec.ofInt w v.toNat = v := by
  rw [BitVec.ofInt_natCast, BitVec.ofNat_toNat, BitVec.setWidth_eq]

namespace AddCall

/-- All functions run the same instructions. -/
theorem code_eq (c : AddCall w) (rdx : BitVec w) :
    c.code rdx
      = ⟨[.mov .rsi .rax, .lockXadd .rax .rdi, .add .rsi .rax, .ret], c.addr,
          BitVec.ofInt w c.delta, rdx⟩ := by
  cases c with
  | int32 addr delta => exact congrArg (Call.mk _ addr · rdx) BitVec.ofInt_toInt.symm
  | uint32 addr delta => exact congrArg (Call.mk _ addr · rdx) (ofInt_toNat _).symm
  | int64 addr delta => exact congrArg (Call.mk _ addr · rdx) BitVec.ofInt_toInt.symm
  | uint64 addr delta => exact congrArg (Call.mk _ addr · rdx) (ofInt_toNat _).symm
  | uintptr addr delta => exact congrArg (Call.mk _ addr · rdx) (ofInt_toNat _).symm

theorem width_le (c : AddCall w) : w ≤ 64 := by
  cases c <;> decide

end AddCall

theorem addApi_code (c : AddCall w × BitVec w) :
    (addApi w).code c
      = ⟨[.mov .rsi .rax, .lockXadd .rax .rdi, .add .rsi .rax, .ret], c.1.addr,
          BitVec.ofInt w c.1.delta, c.2⟩ :=
  c.1.code_eq c.2

/-! ## One instruction after the other -/

section Instructions

variable {c : AddCall w × BitVec w} {cpu : Cpu}

/-- After the `mov`, the delta is in both registers. -/
structure Loaded (c : AddCall w × BitVec w) (cpu : Cpu) : Prop where
  base : cpu.get .rdi = c.1.addr
  delta : cpu.read w .rsi = BitVec.ofInt w c.1.delta
  addend : cpu.read w .rax = BitVec.ofInt w c.1.delta

theorem loaded_mov (h : ((addApi w).code c).Enters cpu) (m : Memory w) :
    Loaded c (Instr.exec cpu m (.mov .rsi .rax)).1 := by
  rw [addApi_code] at h
  obtain ⟨hrdi, hrsi, _⟩ := h
  constructor
  · exact hrdi
  · exact hrsi
  · rw [Instr.exec, Cpu.read_write _ _ _ c.1.width_le, hrsi]

/-- The `xadd` adds to the word; what it leaves in the registers sums up to
the same. -/
theorem exec_xadd (h : Loaded c cpu) (m : Memory w) :
    (Instr.exec cpu m (.lockXadd .rax .rdi)).2 = (addOp c m).1 ∧
      (Instr.exec cpu m (.lockXadd .rax .rdi)).1.read w .rax
        + (Instr.exec cpu m (.lockXadd .rax .rdi)).1.read w .rsi = (addOp c m).2 := by
  have hread : ∀ v : BitVec w, (cpu.write .rax v).read w .rax = v :=
    fun v => Cpu.read_write cpu .rax v c.1.width_le
  constructor
  · rw [Instr.exec, h.base, h.addend, addOp]
  · rw [addOp, ← h.base, ← h.delta]
    exact congrArg (· + cpu.read w .rsi) (hread _)

/-- The `add` puts the sum into the register of the result. -/
theorem read_add (hw : w ≤ 64) (m : Memory w) :
    (Instr.exec cpu m (.add .rsi .rax : Instr w)).1.read w .rax
      = cpu.read w .rax + cpu.read w .rsi :=
  Cpu.read_write cpu .rax (cpu.read w .rax + cpu.read w .rsi) hw

/-- A call that nobody interrupts. -/
theorem execAll_add (h : ((addApi w).code c).Enters cpu) (m : Memory w) :
    (execAll ((addApi w).code c).body cpu m).mem = (addOp c m).1 ∧
      (execAll ((addApi w).code c).body cpu m).cpu.read w .rax = (addOp c m).2 := by
  have hloaded := loaded_mov h m
  obtain ⟨hmem, hsum⟩ := exec_xadd hloaded m
  rw [addApi_code]
  exact ⟨hmem, (read_add c.1.width_le m).trans hsum⟩

end Instructions

/-! ## Threads -/

/-- A thread and what it looks like to the object. The word is changed in the
`xadd`; the two registers, and then their sum, carry the reply. -/
inductive Adding : Thread (AddCall w × BitVec w) w (BitVec w) →
    Caller (AddCall w × BitVec w) (BitVec w) → Prop
  | idle (todo : List (AddCall w × BitVec w)) (done : List ((AddCall w × BitVec w) × BitVec w)) :
      Adding ⟨todo, none, done⟩ ⟨todo, .idle, done⟩
  | entered {c : AddCall w × BitVec w} {cpu : Cpu} (todo : List (AddCall w × BitVec w))
      (done : List ((AddCall w × BitVec w) × BitVec w)) : ((addApi w).code c).Enters cpu →
      Adding ⟨todo, some (c, [.mov .rsi .rax, .lockXadd .rax .rdi, .add .rsi .rax, .ret], cpu), done⟩
        ⟨todo, .before c, done⟩
  | loaded {c : AddCall w × BitVec w} {cpu : Cpu} (todo : List (AddCall w × BitVec w))
      (done : List ((AddCall w × BitVec w) × BitVec w)) : Loaded c cpu →
      Adding ⟨todo, some (c, [.lockXadd .rax .rdi, .add .rsi .rax, .ret], cpu), done⟩
        ⟨todo, .before c, done⟩
  | added {c : AddCall w × BitVec w} {cpu : Cpu} (todo : List (AddCall w × BitVec w))
      (done : List ((AddCall w × BitVec w) × BitVec w)) :
      Adding ⟨todo, some (c, [.add .rsi .rax, .ret], cpu), done⟩
        ⟨todo, .after c (cpu.read w .rax + cpu.read w .rsi), done⟩
  | summed {c : AddCall w × BitVec w} {cpu : Cpu} (todo : List (AddCall w × BitVec w))
      (done : List ((AddCall w × BitVec w) × BitVec w)) :
      Adding ⟨todo, some (c, [.ret], cpu), done⟩ ⟨todo, .after c (cpu.read w .rax), done⟩

/-- The call that the thread is in, when its locked instruction comes next. -/
def Thread.locking {κ ρ : Type} (t : Thread κ w ρ) : Option κ :=
  match t.running with
  | some (k, .lockXadd _ _ :: _, _) => some k
  | _ => none

/-- A step of a thread is a move of an object that adds, and takes effect when
it is the locked one. -/
theorem Adding.next {e : Cpu} {m m' : Memory w} {t t' : Thread (AddCall w × BitVec w) w (BitVec w)}
    {u : Caller (AddCall w × BitVec w) (BitVec w)} (h : Adding t u)
    (hnext : t.next (addApi w) e m = some (m', t')) :
    ∃ u', Move addOp m u m' u' ∧ Adding t' u' ∧
      u'.taken = (t.locking.toList.map fun c => (c, m' c.1.addr)) ++ u.taken := by
  cases h with
  | idle todo done =>
      cases Thread.next_iff.mp hnext with
      | @enter c todo _ henters =>
          rw [congrArg Call.body (addApi_code c)]
          exact ⟨_, .enter c todo done, .entered todo done henters, rfl⟩
  | @entered c cpu todo done henters =>
      cases hnext
      exact ⟨_, .stay _, .loaded todo done (loaded_mov henters m), rfl⟩
  | @loaded c cpu todo done hloaded =>
      -- the one instruction that writes, and where the call takes effect
      obtain ⟨hmem, hreply⟩ := exec_xadd hloaded m
      cases hnext
      rw [hmem]
      refine ⟨_, .commit c todo done, ?_, ?_⟩
      · rw [← hreply]
        exact .added todo done
      · rw [← addOp_self]
        rfl
  | @added c cpu todo done =>
      cases hnext
      refine ⟨_, .stay _, ?_, rfl⟩
      rw [← read_add c.1.width_le m]
      exact .summed todo done
  | @summed c cpu todo done =>
      cases hnext
      exact ⟨_, .leave c (cpu.read w .rax) todo done, .idle todo _, rfl⟩

theorem Adding.done_eq {t : Thread (AddCall w × BitVec w) w (BitVec w)}
    {u : Caller (AddCall w × BitVec w) (BitVec w)} (h : Adding t u) : t.done = u.done := by
  cases h <;> rfl

theorem Adding.finished {t : Thread (AddCall w × BitVec w) w (BitVec w)}
    {u : Caller (AddCall w × BitVec w) (BitVec w)} (h : Adding t u) (ht : t.Finished) :
    u.Finished := by
  cases h with
  | idle todo done => exact ⟨ht.1, rfl⟩
  | _ => exact absurd ht.2 (Option.some_ne_none _)

/-! ## Interleavings -/

/-- The sum of the numbers to add. -/
def total (calls : List (AddCall w × BitVec w)) : Int := (calls.map fun c => c.1.delta).sum

/-- Calls on one word, one after the other. -/
theorem serial_add {addr : Address} {m m' : Memory w}
    {order : List (((AddCall w × BitVec w) × BitVec w) × Memory w)}
    (hrun : Run (Serial addOp) m order m')
    (haddr : ∀ l ∈ labels order, l.1.1.addr = addr) :
    m' = Function.update m addr (m addr + BitVec.ofInt w (total ((labels order).map Prod.fst))) := by
  induction hrun with
  | nil => simp [total]
  | @snoc order a l b _ hserial ih =>
      obtain ⟨c, r⟩ := l
      rw [labels_snoc] at haddr ⊢
      have hc : c.1.addr = addr := haddr (c, r) (by simp)
      have hbefore := ih fun l hl => haddr l (List.mem_append_left _ hl)
      have hb : b = (addOp c a).1 := (congrArg Prod.fst hserial).symm
      rw [hb, addOp, hc, hbefore, Function.update_self, Function.update_idem]
      simp only [total, List.map_append, List.sum_append, List.map_cons, List.map_nil,
        List.sum_singleton, BitVec.ofInt_add, BitVec.add_assoc]

/-- The locked steps of thread `i`: the call, and its word right after the
step. -/
def lockedSteps (i : Nat) :
    System (Memory w) (Thread (AddCall w × BitVec w) w (BitVec w)) →
    List ((Nat × Cpu) × System (Memory w) (Thread (AddCall w × BitVec w) w (BitVec w))) →
    List ((AddCall w × BitVec w) × BitVec w) :=
  observed fun a l b =>
    if l.1 = i then
      (a.threads[i]?.bind Thread.locking).toList.map fun c => (c, b.state c.1.addr)
    else []

section Runs

variable {addr : Address} {m : Memory w} {calls : List (List (AddCall w × BitVec w))}
  {tr tr' : List ((Nat × Cpu) × System (Memory w) (Thread (AddCall w × BitVec w) w (BitVec w)))}
  {a b : System (Memory w) (Thread (AddCall w × BitVec w) w (BitVec w))} {i : Nat}
  {t : Thread (AddCall w × BitVec w) w (BitVec w)}

/-- The calls that have taken effect are those of the locked steps. -/
theorem exists_taken (hrun : Run (addApi w).Step ⟨m, calls.map .ready⟩ tr a) :
    ∃ us, List.Forall₂ Adding a.threads us ∧ ∀ i u, us[i]? = some u →
      u.taken.reverse = lockedSteps i ⟨m, calls.map .ready⟩ tr := by
  induction hrun with
  | nil =>
      refine ⟨calls.map .ready, ?_, fun i u hu => ?_⟩
      · rw [List.forall₂_map_left_iff, List.forall₂_map_right_iff]
        exact List.forall₂_same.mpr fun l _ => .idle l []
      · obtain ⟨l, _, rfl⟩ := List.mem_map.mp (List.mem_of_getElem? hu)
        rfl
  | @snoc tr a l b hrun hstep ih =>
      obtain ⟨us, hrelated, htaken⟩ := ih
      obtain ⟨t, s, t', hget, hnext, rfl⟩ := hstep
      obtain ⟨u, hu, hR⟩ := forall₂_getElem? hrelated hget
      obtain ⟨u', _, hR', hu'⟩ := hR.next hnext
      refine ⟨us.set l.1 u', forall₂_set hrelated hR', fun i v hv => ?_⟩
      rw [lockedSteps, hrun.observed_snoc]
      by_cases hi : l.1 = i
      · -- the thread that moves
        subst hi
        have hv' : v = u' := by
          rw [List.getElem?_set_self (List.getElem?_eq_some_iff.mp hu).1] at hv
          exact (Option.some.inj hv).symm
        rw [hv', hu', List.reverse_append, htaken l.1 u hu, if_pos rfl, hget,
          Option.bind_some]
        cases t.locking <;> rfl
      · rw [List.getElem?_set_ne hi] at hv
        rw [htaken i v hv, if_neg hi, List.append_nil, lockedSteps]

/-- A call that has returned has returned the word right after its own locked
step. -/
theorem done_prefix (hrun : Run (addApi w).Step ⟨m, calls.map .ready⟩ tr a)
    (hget : a.threads[i]? = some t) :
    t.done.reverse <+: lockedSteps i ⟨m, calls.map .ready⟩ tr := by
  obtain ⟨us, hrelated, htaken⟩ := exists_taken hrun
  obtain ⟨u, hu, hR⟩ := forall₂_getElem? hrelated hget
  rw [← htaken i u hu, hR.done_eq]
  obtain ⟨todo, phase, done⟩ := u
  cases phase with
  | after c r => exact ⟨[(c, r)], (List.reverse_cons).symm⟩
  | _ => exact List.prefix_refl _

theorem done_eq_of_finished (hrun : Run (addApi w).Step ⟨m, calls.map .ready⟩ tr a)
    (hget : a.threads[i]? = some t) (hfinished : t.Finished) :
    t.done.reverse = lockedSteps i ⟨m, calls.map .ready⟩ tr := by
  obtain ⟨us, hrelated, htaken⟩ := exists_taken hrun
  obtain ⟨u, hu, hR⟩ := forall₂_getElem? hrelated hget
  rw [← htaken i u hu, hR.done_eq, Caller.taken, (hR.finished hfinished).2]

/-- What the threads have added up. -/
theorem state_of_finished (haddr : ∀ c ∈ calls.flatten, c.1.addr = addr)
    (hrun : Run (addApi w).Step ⟨m, calls.map .ready⟩ tr a)
    (hfinished : ∀ t ∈ a.threads, t.Finished) :
    a.state = Function.update m addr (m addr + BitVec.ofInt w (total calls.flatten)) := by
  obtain ⟨_, b, hobject, hstate, hrelated⟩ := Api.exists_object (R := Adding)
    (fun l => .idle l [])
    (fun _ _ _ _ _ _ h hnext => (h.next hnext).imp fun _ h => ⟨h.1, h.2.1⟩) hrun
  have hfinished' : ∀ u ∈ b.threads, u.Finished :=
    forall₂_forall hrelated (fun _ _ h => h.finished) hfinished
  obtain ⟨htaken, hcalls⟩ := finished_calls hobject hfinished'
  obtain ⟨order, hserial, hperm⟩ := exists_order hobject
  rw [htaken] at hperm
  have hall : ((labels order).map Prod.fst).Perm calls.flatten := (hperm.map _).trans hcalls
  have htotal : total ((labels order).map Prod.fst) = total calls.flatten :=
    (hall.map _).sum_eq
  rw [← hstate, ← htotal]
  refine serial_add hserial fun l hl => haddr l.1 ?_
  exact hall.subset (List.mem_map_of_mem hl)

end Runs

/-- **No update is lost**: whatever the interleaving of threads that add to
one word, it can be carried to its end, and a call that has returned has
returned the word right after its own locked step. At the end all calls have
returned, the word is the first one plus the sum of all deltas, and no other
word has changed; so the interleavings all end in the same memory. -/
theorem atomic_adds (addr : Address) (m : Memory w) (calls : List (List (AddCall w × BitVec w)))
    (haddr : ∀ c ∈ calls.flatten, c.1.addr = addr)
    (tr : List ((Nat × Cpu) × System (Memory w) (Thread (AddCall w × BitVec w) w (BitVec w))))
    (a : System (Memory w) (Thread (AddCall w × BitVec w) w (BitVec w)))
    (hrun : Run (addApi w).Step ⟨m, calls.map .ready⟩ tr a) :
    (∃ tr' b, Run (addApi w).Step a tr' b ∧ ∀ t ∈ b.threads, t.Finished) ∧
    (∀ i t, a.threads[i]? = some t →
      t.done.reverse <+: lockedSteps i ⟨m, calls.map .ready⟩ tr) ∧
    ((∀ t ∈ a.threads, t.Finished) →
      a.state = Function.update m addr (m addr + BitVec.ofInt w (total calls.flatten)) ∧
      ∀ i t, a.threads[i]? = some t →
        t.done.reverse = lockedSteps i ⟨m, calls.map .ready⟩ tr ∧
          calls[i]? = some (t.done.reverse.map Prod.fst)) := by
  refine ⟨Api.exists_finished (fun c => ?_) (fun c => ?_) hrun, fun i t => done_prefix hrun,
    fun hfinished => ⟨state_of_finished haddr hrun hfinished, fun i t hget => ⟨?_, ?_⟩⟩⟩
  · simp [addApi_code]
  · exact Call.exists_enters _ c.1.width_le
  · exact done_eq_of_finished hrun hget (hfinished t (List.mem_of_getElem? hget))
  · exact Api.calls_of_finished hrun hget (hfinished t (List.mem_of_getElem? hget))

/-- Two threads have both loaded their registers before the first `xadd`. -/
theorem atomic_adds_race : ∃ tr a,
    Run (addApi 32).Step
      ⟨fun _ => 7, [[(.int32 0x40 5, 1)], [(.uint32 0x40 0xfffffffe, 2)]].map .ready⟩ tr a ∧
      labels tr = [(0, ⟨3, 0x40, 5, 1, false⟩), (1, ⟨4, 0x40, 0xfffffffe, 2, true⟩), (0, .zero),
        (1, .zero), (0, .zero), (1, .zero), (1, .zero), (1, .zero), (0, .zero), (0, .zero)] ∧
      a.state 0x40 = 10 ∧ results a = [12, 10] := by
  obtain ⟨tr, a, hrun, hlabels, hfinished, hresults⟩ := Api.exists_run (addApi 32)
    ⟨fun _ => 7, [[(.int32 0x40 5, 1)], [(.uint32 0x40 0xfffffffe, 2)]].map .ready⟩
    [(0, ⟨3, 0x40, 5, 1, false⟩), (1, ⟨4, 0x40, 0xfffffffe, 2, true⟩), (0, .zero), (1, .zero),
      (0, .zero), (1, .zero), (1, .zero), (1, .zero), (0, .zero), (0, .zero)]
    results [12, 10] (by decide +kernel)
  have hstate := ((atomic_adds 0x40 (fun _ => 7)
    [[(.int32 0x40 5, 1)], [(.uint32 0x40 0xfffffffe, 2)]] (by decide) tr a hrun).2.2 hfinished).1
  refine ⟨tr, a, hrun, hlabels, ?_, hresults⟩
  rw [hstate]
  decide

end Challenges.Atomics

import Challenges.Atomics.Program

/-!
# CompareAndSwap — what the six functions do

A call swaps the word at one address, its target. For five of the functions
this is the first argument. `_casp1` names the wrong register, and the
target of the pointer function is the pointer that it expects to find.
Where targets are first arguments, threads that call the functions call an
object whose operation is compare-and-swap, in whatever order their
instructions are executed.
-/

namespace Challenges.Atomics

open Challenges.Lib

variable {w : Nat}

/-- Compare-and-swap on the first argument. -/
def casOp (c : CasCall w) (m : Memory w) : Memory w × BitVec 8 :=
  if m c.addr = c.old then (Function.update m c.addr c.new, 1) else (m, 0)

/-- A call has done this, and accessed no other word. -/
structure Swaps (c : CasCall w) (m : Memory w) (out : Outcome w) : Prop where
  memory : out.mem = (casOp c m).1
  result : out.cpu.al = (casOp c m).2
  only : ∀ a ∈ out.accessed, a = c.addr

namespace CasCall

/-- The pointer function is called with the address as the old value. -/
def Sound : CasCall w → Prop
  | pointer addr old _ => addr = old
  | _ => True

/-- The register that the routine goes through. -/
def base : CasCall w → Reg
  | pointer .. => .rsi
  | _ => .rdi

/-- The word that the routine compares. -/
def target : CasCall w → Address
  | pointer _ old _ => old
  | c => c.addr

theorem sound_iff (c : CasCall w) : c.Sound ↔ c.target = c.addr := by
  cases c with
  | pointer addr old new => exact eq_comm
  | _ => exact iff_of_true trivial rfl

theorem base_ne (c : CasCall w) : c.base ≠ .rax := by
  cases c <;> simp [base]

/-- What the functions run differs in the base register alone. -/
theorem code_eq (c : CasCall w) :
    c.code = ⟨[.mov .rsi .rax, .lockCmpxchg .rdx c.base, .sete, .ret], c.addr, c.old, c.new⟩ := by
  cases c <;> rfl

theorem width_le (c : CasCall w) : w ≤ 64 := by
  cases c <;> decide

theorem get_base (c : CasCall w) {cpu : Cpu} (h : c.code.Enters cpu) :
    cpu.get c.base = c.target := by
  rw [code_eq] at h
  obtain ⟨hrdi, hrsi, _⟩ := h
  cases c with
  | pointer addr old new =>
      rw [Cpu.read, BitVec.setWidth_eq] at hrsi
      exact hrsi
  | _ => exact hrdi

end CasCall

/-- Compare-and-swap on the target. -/
def targetOp (c : CasCall w) (m : Memory w) : Memory w × BitVec 8 :=
  if m c.target = c.old then (Function.update m c.target c.new, 1) else (m, 0)

theorem targetOp_eq {c : CasCall w} (h : c.Sound) (m : Memory w) : targetOp c m = casOp c m := by
  rw [targetOp, c.sound_iff.mp h, casOp]

/-! ## One instruction after the other -/

theorem Cpu.al_setAl (c : Cpu) (v : BitVec 8) : (c.setAl v).al = v := by
  rw [setAl, al]
  exact BitVec.setWidth_append_eq_right

/-- After the `mov`, the operands of the `cmpxchg` are in place. -/
structure Armed (c : CasCall w) (cpu : Cpu) : Prop where
  base : cpu.get c.base = c.target
  expected : cpu.read w .rax = c.old
  source : cpu.read w .rdx = c.new

theorem armed_mov {c : CasCall w} {cpu : Cpu} (h : c.code.Enters cpu) (m : Memory w) :
    Armed c (Instr.exec cpu m (.mov .rsi .rax)).1 := by
  have hbase := c.get_base h
  rw [c.code_eq] at h
  obtain ⟨_, hrsi, hrdx⟩ := h
  constructor
  · rw [← hbase]
    cases hreg : c.base with
    | rax => exact absurd hreg c.base_ne
    | _ => rfl
  · rw [Instr.exec, Cpu.read_write _ _ _ c.width_le, hrsi]
  · exact hrdx

/-- The `cmpxchg` swaps the target, and leaves the reply in the zero flag. -/
theorem exec_cmpxchg {c : CasCall w} {cpu : Cpu} (h : Armed c cpu) (m : Memory w) :
    (Instr.exec cpu m (.lockCmpxchg .rdx c.base)).2 = (targetOp c m).1 ∧
      (if (Instr.exec cpu m (.lockCmpxchg .rdx c.base)).1.zf then 1 else 0)
        = (targetOp c m).2 := by
  simp only [Instr.exec, h.base, h.expected, h.source, targetOp]
  split <;> exact ⟨rfl, rfl⟩

/-- A call that nobody interrupts swaps its target, and accesses no other
word. -/
theorem execAll_code {c : CasCall w} {cpu : Cpu} (h : c.code.Enters cpu) (m : Memory w) :
    (execAll c.code.body cpu m).mem = (targetOp c m).1 ∧
      (execAll c.code.body cpu m).cpu.al = (targetOp c m).2 ∧
      (execAll c.code.body cpu m).accessed = [c.target] := by
  have harmed := armed_mov h m
  obtain ⟨hmem, hzf⟩ := exec_cmpxchg harmed m
  rw [c.code_eq]
  exact ⟨hmem, (Cpu.al_setAl _ _).trans hzf, congrArg (fun a => [a]) harmed.base⟩

/-- One call compares and swaps exactly when it is sound. -/
theorem swaps_iff {c : CasCall w} {cpu : Cpu} (h : c.code.Enters cpu) (m : Memory w) :
    Swaps c m (execAll c.code.body cpu m) ↔ c.Sound := by
  obtain ⟨hmem, hal, haccessed⟩ := execAll_code h m
  constructor
  · intro hswaps
    exact c.sound_iff.mpr (hswaps.only c.target (by simp [haccessed]))
  · intro hsound
    rw [targetOp_eq hsound] at hmem hal
    exact ⟨hmem, hal, by simp [haccessed, c.sound_iff.mp hsound]⟩

/-! ## Threads -/

/-- A thread and what it looks like to the object. The word is swapped in the
`cmpxchg`; the flag, and then `%al`, carry the reply. -/
inductive Related : Thread (CasCall w) w (BitVec 8) → Caller (CasCall w) (BitVec 8) → Prop
  | idle (todo : List (CasCall w)) (done : List (CasCall w × BitVec 8)) :
      Related ⟨todo, none, done⟩ ⟨todo, .idle, done⟩
  | entered {c : CasCall w} {cpu : Cpu} (todo : List (CasCall w))
      (done : List (CasCall w × BitVec 8)) : c.code.Enters cpu →
      Related ⟨todo, some (c, c.code.body, cpu), done⟩ ⟨todo, .before c, done⟩
  | armed {c : CasCall w} {cpu : Cpu} (todo : List (CasCall w))
      (done : List (CasCall w × BitVec 8)) : Armed c cpu →
      Related ⟨todo, some (c, [.lockCmpxchg .rdx c.base, .sete, .ret], cpu), done⟩
        ⟨todo, .before c, done⟩
  | compared {c : CasCall w} {cpu : Cpu} (todo : List (CasCall w))
      (done : List (CasCall w × BitVec 8)) :
      Related ⟨todo, some (c, [.sete, .ret], cpu), done⟩
        ⟨todo, .after c (if cpu.zf then 1 else 0), done⟩
  | flagged {c : CasCall w} {cpu : Cpu} (todo : List (CasCall w))
      (done : List (CasCall w × BitVec 8)) :
      Related ⟨todo, some (c, [.ret], cpu), done⟩ ⟨todo, .after c cpu.al, done⟩

/-- A step of a thread is a move of an object that swaps targets. -/
theorem Related.next {e : Cpu} {m m' : Memory w} {t t' : Thread (CasCall w) w (BitVec 8)}
    {u : Caller (CasCall w) (BitVec 8)} (h : Related t u)
    (hnext : t.next (casApi w) e m = some (m', t')) :
    ∃ u', Move targetOp m u m' u' ∧ Related t' u' := by
  cases h with
  | idle todo done =>
      cases Thread.next_iff.mp hnext with
      | @enter c todo _ henters => exact ⟨_, .enter c todo done, .entered todo done henters⟩
  | @entered c cpu todo done henters =>
      have hbody := congrArg Call.body c.code_eq
      rw [hbody] at hnext
      cases hnext
      exact ⟨_, .stay _, .armed todo done (armed_mov henters m)⟩
  | @armed c cpu todo done harmed =>
      -- the one instruction that writes, and where the call takes effect
      obtain ⟨hmem, hreply⟩ := exec_cmpxchg harmed m
      cases hnext
      rw [hmem]
      refine ⟨_, .commit c todo done, ?_⟩
      rw [← hreply]
      exact .compared todo done
  | @compared c cpu todo done =>
      cases hnext
      refine ⟨_, .stay _, ?_⟩
      rw [← Cpu.al_setAl cpu (if cpu.zf then 1 else 0)]
      exact .flagged todo done
  | @flagged c cpu todo done =>
      cases hnext
      exact ⟨_, .leave c cpu.al todo done, .idle todo _⟩

theorem Related.done_eq {t : Thread (CasCall w) w (BitVec 8)} {u : Caller (CasCall w) (BitVec 8)}
    (h : Related t u) : t.done = u.done := by
  cases h <;> rfl

theorem Related.finished {t : Thread (CasCall w) w (BitVec 8)}
    {u : Caller (CasCall w) (BitVec 8)} (h : Related t u) (ht : t.Finished) : u.Finished := by
  cases h with
  | idle todo done => exact ⟨ht.1, rfl⟩
  | _ => exact absurd ht.2 (Option.some_ne_none _)

/-! ## Interleavings -/

/-- Calls that expect the same word at one address, and install another. -/
def Compete (addr : Address) (old : BitVec w) (c : CasCall w) : Prop :=
  c.addr = addr ∧ c.old = old ∧ c.new ≠ old

/-- **One of them wins**: in a sequence of such calls, the first one swaps
the word if it was the expected one, and those after it find another. -/
theorem count_swaps {addr : Address} {old : BitVec w} {m m' : Memory w}
    {order : List ((CasCall w × BitVec 8) × Memory w)} (hrun : Run (Serial targetOp) m order m')
    (hall : ∀ l ∈ labels order, l.1.Sound ∧ Compete addr old l.1) (hm : m addr = old) :
    (order = [] ∧ m' addr = old) ∨
      (m' addr ≠ old ∧ ((labels order).map Prod.snd).count 1 = 1 ∧
        ∀ r ∈ (labels order).map Prod.snd, r = 0 ∨ r = 1) := by
  induction hrun with
  | nil => exact .inl ⟨rfl, hm⟩
  | @snoc order a l b _ hserial ih =>
      obtain ⟨c, r⟩ := l
      rw [labels_snoc] at hall
      obtain ⟨hsound, haddr, hold, hnew⟩ := hall (c, r) (by simp)
      have hbefore := ih fun l hl => hall l (List.mem_append_left _ hl)
      simp only [Serial, targetOp_eq hsound, casOp, haddr, hold] at hserial
      refine .inr ?_
      rw [labels_snoc, List.map_append, List.count_append]
      rcases hbefore with ⟨rfl, hword⟩ | ⟨hword, hcount, hreplies⟩
      · rw [if_pos hword] at hserial
        cases hserial
        simp [hnew]
      · rw [if_neg hword] at hserial
        cases hserial
        refine ⟨hword, by rw [hcount]; rfl, fun r hr => ?_⟩
        rcases List.mem_append.mp hr with hr | hr
        · exact hreplies r hr
        · exact .inl (List.mem_singleton.mp hr)

section Runs

variable {m : Memory w} {calls : List (List (CasCall w))}
  {tr : List ((Nat × Cpu) × System (Memory w) (Thread (CasCall w) w (BitVec 8)))}
  {a : System (Memory w) (Thread (CasCall w) w (BitVec 8))}

/-- Threads that have made sound competing calls, one of them or more. -/
theorem count_results {addr : Address} {old : BitVec w} (hsome : calls.flatten ≠ [])
    (hall : ∀ c ∈ calls.flatten, c.Sound ∧ Compete addr old c) (hm : m addr = old)
    (hrun : Run (casApi w).Step ⟨m, calls.map .ready⟩ tr a)
    (hfinished : ∀ t ∈ a.threads, t.Finished) :
    (results a).length = calls.flatten.length ∧ (results a).count 1 = 1 ∧
      ∀ r ∈ results a, r = 0 ∨ r = 1 := by
  obtain ⟨_, b, hobject, _, hrelated⟩ := Api.exists_object (R := Related) (fun l => .idle l [])
    (fun _ _ _ _ _ _ h hnext => h.next hnext) hrun
  have hdone : a.threads.flatMap Thread.done = b.threads.flatMap Caller.done :=
    forall₂_flatMap hrelated fun _ _ h => h.done_eq
  have hfinished' : ∀ u ∈ b.threads, u.Finished :=
    forall₂_forall hrelated (fun _ _ h => h.finished) hfinished
  obtain ⟨htaken, hcalls⟩ := finished_calls hobject hfinished'
  obtain ⟨order, hserial, hperm⟩ := exists_order hobject
  rw [htaken, ← hdone] at hperm
  rw [← hdone] at hcalls
  have hresults : ((labels order).map Prod.snd).Perm (results a) := hperm.map Prod.snd
  have hlength : (results a).length = calls.flatten.length := by
    rw [← hcalls.length_eq, results, List.length_map, List.length_map]
  have hsound : ∀ l ∈ labels order, l.1.Sound ∧ Compete addr old l.1 := by
    intro l hl
    exact hall l.1 (hcalls.subset (List.mem_map_of_mem (hperm.subset hl)))
  rcases count_swaps hserial hsound hm with ⟨rfl, _⟩ | ⟨_, hcount, hreplies⟩
  · have hnone := hresults.length_eq
    rw [hlength] at hnone
    exact absurd (List.length_eq_zero_iff.mp hnone.symm) hsome
  · exact ⟨hlength, by rw [← hresults.count_eq, hcount],
      fun r hr => hreplies r (hresults.symm.subset hr)⟩

end Runs

/-! ## Exact condition, and the winner -/

/-- **The six functions compare and swap** the word at their first argument,
and access no other, exactly when it is not the pointer function or its
address is also the old value. Where this is so of the calls that threads
make on one address, all expecting the word that is there and installing
another, each interleaving of their instructions can be carried to its end,
and one call has succeeded then. -/
theorem compare_and_swap_iff (w : Nat) :
    (∀ (c : CasCall w) (m : Memory w) (cpu : Cpu), c.code.Enters cpu →
      (Swaps c m (execAll c.code.body cpu m) ↔ c.Sound)) ∧
    ∀ (addr : Address) (old : BitVec w) (m : Memory w) (calls : List (List (CasCall w))),
      calls.flatten ≠ [] → (∀ c ∈ calls.flatten, c.Sound ∧ Compete addr old c) → m addr = old →
      ∀ tr a, Run (casApi w).Step ⟨m, calls.map .ready⟩ tr a →
        (∃ tr' b, Run (casApi w).Step a tr' b ∧ ∀ t ∈ b.threads, t.Finished) ∧
        ((∀ t ∈ a.threads, t.Finished) →
          (results a).length = calls.flatten.length ∧ (results a).count 1 = 1 ∧
            ∀ r ∈ results a, r = 0 ∨ r = 1) := by
  constructor
  · intro c m cpu henters
    exact swaps_iff henters m
  · intro addr old m calls hsome hall hm tr a hrun
    refine ⟨Api.exists_finished (fun c => ?_) (fun c => c.code.exists_enters c.width_le) hrun,
      count_results hsome hall hm hrun⟩
    have hbody := congrArg Call.body c.code_eq
    simp [casApi, hbody]

/-- Two threads reach their `cmpxchg` at once. -/
theorem compare_and_swap_iff_race : ∃ tr a,
    Run (casApi 64).Step ⟨fun _ => 5, [[.uint64 0x40 5 7], [.int64 0x40 5 9]].map .ready⟩ tr a ∧
      labels tr = [(0, ⟨1, 0x40, 5, 7, false⟩), (1, ⟨2, 0x40, 5, 9, true⟩), (1, .zero), (0, .zero),
        (1, .zero), (0, .zero), (0, .zero), (0, .zero), (1, .zero), (1, .zero)] ∧
      (results a).count 1 = 1 ∧
      Swaps (.uint64 0x40 5 7) (fun _ => 5)
        (execAll (CasCall.uint64 0x40 5 7).code.body ⟨1, 0x40, 5, 7, false⟩ fun _ => 5) := by
  obtain ⟨tr, a, hrun, hlabels, hfinished, _⟩ := Api.exists_run (casApi 64)
    ⟨fun _ => 5, [[.uint64 0x40 5 7], [.int64 0x40 5 9]].map .ready⟩
    [(0, ⟨1, 0x40, 5, 7, false⟩), (1, ⟨2, 0x40, 5, 9, true⟩), (1, .zero), (0, .zero),
      (1, .zero), (0, .zero), (0, .zero), (0, .zero), (1, .zero), (1, .zero)]
    (fun _ => ()) () (by decide +kernel)
  have hcompete : ∀ c ∈ [[CasCall.uint64 0x40 5 7], [.int64 0x40 5 9]].flatten,
      c.Sound ∧ Compete 0x40 5 c := by
    intro c hc
    rcases List.mem_cons.mp hc with rfl | hc
    · exact ⟨trivial, rfl, rfl, by decide⟩
    · rw [List.mem_singleton.mp hc]
      exact ⟨trivial, rfl, rfl, by decide⟩
  exact ⟨tr, a, hrun, hlabels,
    ((compare_and_swap_iff 64).2 0x40 5 (fun _ => 5) [[.uint64 0x40 5 7], [.int64 0x40 5 9]]
      (by simp) hcompete rfl tr a hrun).2 hfinished |>.2.1,
    ((compare_and_swap_iff 64).1 (.uint64 0x40 5 7) (fun _ => 5) ⟨1, 0x40, 5, 7, false⟩
      (by decide)).mpr trivial⟩

/-- The word at `0x100` is the one that the pointer function is to find
there; it looks at `0x200`. -/
theorem compare_and_swap_pointer_misses :
    ∃ (c : CasCall 64) (m : Memory 64) (cpu : Cpu), c = .pointer 0x100 0x200 0x300 ∧
      c.code.Enters cpu ∧ m c.addr = c.old ∧
      (execAll c.code.body cpu m).cpu.al = 0 ∧ (execAll c.code.body cpu m).mem c.addr = c.old ∧
      (execAll c.code.body cpu m).accessed = [0x200] ∧
      ¬ Swaps c m (execAll c.code.body cpu m) := by
  refine ⟨.pointer 0x100 0x200 0x300, fun a => if a = 0x100 then 0x200 else 0,
    ⟨0, 0x100, 0x200, 0x300, false⟩, rfl, by decide, by decide, by decide, by decide, by decide, ?_⟩
  intro hswaps
  exact absurd hswaps.result (by decide)

end Challenges.Atomics

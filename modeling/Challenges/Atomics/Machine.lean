import Mathlib.Logic.Function.Basic
import Challenges.Lib.Atomic

/-!
# Machine — the instructions of `atomic_amd64.s`

Registers and flags are private to a thread, the memory is shared, and maps
addresses to words of one width `w`. An instruction of operand size `w`
reads the low `w` bits of a register, and clears the bits above them when it
writes one. The instructions with a `lock` prefix, and `xchg`, are one step
each. A `Call` is what a C function hands to a routine: the code, and the
arguments in the registers of the calling convention; the bits above a
narrow argument, and the other registers, hold anything.
-/

namespace Challenges.Atomics

open Challenges.Lib

abbrev Address := BitVec 64

/-- Words of `w` bits at 64-bit addresses. -/
abbrev Memory (w : Nat) := Address → BitVec w

/-- The registers that the routines name. -/
inductive Reg where
  | rax | rdi | rsi | rdx
  deriving DecidableEq, Repr

/-- The registers and the zero flag of a thread. -/
structure Cpu where
  rax : BitVec 64
  rdi : BitVec 64
  rsi : BitVec 64
  rdx : BitVec 64
  zf : Bool
  deriving DecidableEq, Repr

namespace Cpu

def zero : Cpu := ⟨0, 0, 0, 0, false⟩

def get (c : Cpu) : Reg → BitVec 64
  | .rax => c.rax
  | .rdi => c.rdi
  | .rsi => c.rsi
  | .rdx => c.rdx

def set (c : Cpu) (r : Reg) (v : BitVec 64) : Cpu :=
  match r with
  | .rax => { c with rax := v }
  | .rdi => { c with rdi := v }
  | .rsi => { c with rsi := v }
  | .rdx => { c with rdx := v }

/-- A register as an operand of `w` bits. -/
def read (w : Nat) (c : Cpu) (r : Reg) : BitVec w := (c.get r).setWidth w

/-- A result of `w` bits. -/
def write {w : Nat} (c : Cpu) (r : Reg) (v : BitVec w) : Cpu := c.set r (v.setWidth 64)

def al (c : Cpu) : BitVec 8 := c.rax.setWidth 8

/-- A result in `%al`, which keeps the bits above. -/
def setAl (c : Cpu) (v : BitVec 8) : Cpu := { c with rax := c.rax.extractLsb' 8 56 ++ v }

theorem read_write {w : Nat} (c : Cpu) (r : Reg) (v : BitVec w) (hw : w ≤ 64) :
    (c.write r v).read w r = v := by
  have hget : (c.write r v).get r = v.setWidth 64 := by
    cases r <;> rfl
  rw [read, hget, BitVec.setWidth_setWidth_of_le _ hw, BitVec.setWidth_eq]

end Cpu

/-- Instructions of operand size `w`; sources come first. -/
inductive Instr (w : Nat) where
  | mov (src dst : Reg)
  /-- `lock cmpxchg %src, (%base)` -/
  | lockCmpxchg (src base : Reg)
  /-- `lock xadd %src, (%base)` -/
  | lockXadd (src base : Reg)
  | add (src dst : Reg)
  /-- `xchg %reg, (%base)` -/
  | xchg (reg base : Reg)
  /-- `sete %al` -/
  | sete
  | ret
  deriving DecidableEq, Repr

namespace Instr

variable {w : Nat}

/-- One instruction; `ret` ends a call, and changes nothing here. -/
def exec (c : Cpu) (m : Memory w) : Instr w → Cpu × Memory w
  | mov src dst => (c.write dst (c.read w src), m)
  | lockCmpxchg src base =>
      let a := c.get base
      if m a = c.read w .rax then
        ({ c with zf := true }, Function.update m a (c.read w src))
      else
        -- the accumulator gets the word, which is written back as it was
        ({ c.write .rax (m a) with zf := false }, m)
  | lockXadd src base =>
      let a := c.get base
      let sum := m a + c.read w src
      ({ c.write src (m a) with zf := sum == 0 }, Function.update m a sum)
  | add src dst =>
      let sum := c.read w dst + c.read w src
      ({ c.write dst sum with zf := sum == 0 }, m)
  | xchg reg base =>
      let a := c.get base
      (c.write reg (m a), Function.update m a (c.read w reg))
  | sete => (c.setAl (if c.zf then 1 else 0), m)
  | ret => (c, m)

/-- The words that an instruction reads or writes. -/
def accesses (c : Cpu) : Instr w → List Address
  | lockCmpxchg _ base | lockXadd _ base | xchg _ base => [c.get base]
  | _ => []

end Instr

/-! ## Calls -/

/-- A routine with its arguments. -/
structure Call (w : Nat) where
  body : List (Instr w)
  rdi : Address
  rsi : BitVec w
  rdx : BitVec w

/-- The registers hold the arguments. -/
def Call.Enters {w : Nat} (call : Call w) (c : Cpu) : Prop :=
  c.rdi = call.rdi ∧ c.read w .rsi = call.rsi ∧ c.read w .rdx = call.rdx

instance {w : Nat} (call : Call w) (c : Cpu) : Decidable (call.Enters c) :=
  inferInstanceAs (Decidable (c.rdi = call.rdi ∧ c.read w .rsi = call.rsi ∧ c.read w .rdx = call.rdx))

/-- A caller can put the arguments into the registers. -/
theorem Call.exists_enters {w : Nat} (call : Call w) (hw : w ≤ 64) : ∃ c, call.Enters c := by
  have hfit : ∀ v : BitVec w, (v.setWidth 64).setWidth w = v := by
    intro v
    rw [BitVec.setWidth_setWidth_of_le _ hw, BitVec.setWidth_eq]
  exact ⟨⟨0, call.rdi, call.rsi.setWidth 64, call.rdx.setWidth 64, false⟩, rfl, hfit _, hfit _⟩

/-- What a call leaves: the registers, the memory, and the words it has
accessed on the way. -/
structure Outcome (w : Nat) where
  cpu : Cpu
  mem : Memory w
  accessed : List Address

/-- A routine that nobody interrupts. -/
def execAll {w : Nat} : List (Instr w) → Cpu → Memory w → Outcome w
  | [], c, m => ⟨c, m, []⟩
  | i :: rest, c, m =>
      let out := execAll rest (i.exec c m).1 (i.exec c m).2
      { out with accessed := i.accesses c ++ out.accessed }

/-! ## Threads -/

/-- The calls of a thread: those it will make, the one it is in, with the
instructions left, and those that have returned. -/
structure Thread (κ : Type) (w : Nat) (ρ : Type) where
  todo : List κ
  running : Option (κ × List (Instr w) × Cpu)
  done : List (κ × ρ)

/-- The calls of an interface: what they run, and where the result is. -/
structure Api (κ : Type) (w : Nat) (ρ : Type) where
  code : κ → Call w
  reply : Cpu → ρ

section Threads

variable {κ ρ : Type} {w : Nat}

/-- A thread goes on: it enters its next call, with the registers `c`,
executes an instruction, or returns. -/
def Thread.next (api : Api κ w ρ) (c : Cpu) (m : Memory w) (t : Thread κ w ρ) :
    Option (Memory w × Thread κ w ρ) :=
  match t.running, t.todo with
  | none, [] => none
  | none, k :: rest =>
      if (api.code k).Enters c then
        some (m, { t with todo := rest, running := some (k, (api.code k).body, c) })
      else none
  | some (_, [], _), _ => none
  | some (k, .ret :: _, cpu), _ =>
      some (m, { t with running := none, done := (k, api.reply cpu) :: t.done })
  | some (k, i :: rest, cpu), _ =>
      some ((i.exec cpu m).2, { t with running := some (k, rest, (i.exec cpu m).1) })

/-- One step of an interleaving: thread `l.1` goes on, `l.2` being what the
registers hold when it enters a call. -/
def Api.Step (api : Api κ w ρ) :
    System (Memory w) (Thread κ w ρ) → Nat × Cpu → System (Memory w) (Thread κ w ρ) → Prop :=
  System.Step fun c m t m' t' => t.next api c m = some (m', t')

/-- Before the first call. -/
def Thread.ready (calls : List κ) : Thread κ w ρ := ⟨calls, none, []⟩

/-- All calls have returned. -/
def Thread.Finished (t : Thread κ w ρ) : Prop := t.todo = [] ∧ t.running = none

section Runs

variable {api : Api κ w ρ} {m : Memory w} {calls : List (List κ)}
  {tr : List ((Nat × Cpu) × System (Memory w) (Thread κ w ρ))} {a : System (Memory w) (Thread κ w ρ)}

/-- Threads whose steps are moves of an object call that object. -/
theorem Api.exists_object {op : κ → Memory w → Memory w × ρ} {R : Thread κ w ρ → Caller κ ρ → Prop}
    (hready : ∀ l, R (.ready l) (.ready l))
    (hnext : ∀ (e : Cpu) m t m' t' u, R t u → t.next api e m = some (m', t') →
      ∃ u', Move op m u m' u' ∧ R t' u')
    (hrun : Run api.Step ⟨m, calls.map .ready⟩ tr a) :
    ∃ (tr' : List ((Nat × Cpu) × System (Memory w) (Caller κ ρ)))
      (b : System (Memory w) (Caller κ ρ)), Run (objectStep op) ⟨m, calls.map .ready⟩ tr' b ∧
        b.state = a.state ∧ List.Forall₂ R a.threads b.threads := by
  have hstart : List.Forall₂ R (calls.map .ready) (calls.map .ready) := by
    rw [List.forall₂_map_left_iff, List.forall₂_map_right_iff]
    exact List.forall₂_same.mpr fun l _ => hready l
  obtain ⟨tr', b, hobject, _, hstate, hrelated⟩ := System.simulation hnext hrun hstart
  exact ⟨tr', b, hobject, hstate, hrelated⟩

/-- The steps of a thread, one for each branch that can be taken. -/
inductive Thread.StepsTo (api : Api κ w ρ) (c : Cpu) (m : Memory w) :
    Thread κ w ρ → Memory w → Thread κ w ρ → Prop
  | enter {k : κ} (todo : List κ) (done : List (κ × ρ)) (henters : (api.code k).Enters c) :
      StepsTo api c m ⟨k :: todo, none, done⟩ m ⟨todo, some (k, (api.code k).body, c), done⟩
  | exec {i : Instr w} (todo : List κ) (done : List (κ × ρ)) (k : κ) (rest : List (Instr w))
      (cpu : Cpu) (hi : i ≠ .ret) :
      StepsTo api c m ⟨todo, some (k, i :: rest, cpu), done⟩ (i.exec cpu m).2
        ⟨todo, some (k, rest, (i.exec cpu m).1), done⟩
  | ret (todo : List κ) (done : List (κ × ρ)) (k : κ) (rest : List (Instr w)) (cpu : Cpu) :
      StepsTo api c m ⟨todo, some (k, .ret :: rest, cpu), done⟩ m
        ⟨todo, none, (k, api.reply cpu) :: done⟩

theorem Thread.next_iff {e : Cpu} {m' : Memory w} {t t' : Thread κ w ρ} :
    t.next api e m = some (m', t') ↔ Thread.StepsTo api e m t m' t' := by
  have hinstr (todo : List κ) (done : List (κ × ρ)) (k : κ) {i : Instr w} (hi : i ≠ .ret)
      (rest : List (Instr w)) (cpu : Cpu) :
      Thread.next api e m ⟨todo, some (k, i :: rest, cpu), done⟩
        = some ((i.exec cpu m).2, ⟨todo, some (k, rest, (i.exec cpu m).1), done⟩) := by
    cases i <;> first | exact absurd rfl hi | rfl
  constructor
  · intro hnext
    obtain ⟨todo, running, done⟩ := t
    cases running with
    | none =>
        cases todo with
        | nil => cases hnext
        | cons k todo =>
            simp only [Thread.next, Option.ite_none_right_eq_some] at hnext
            obtain ⟨henters, heq⟩ := hnext
            cases heq
            exact .enter todo done henters
    | some r =>
        obtain ⟨k, code, cpu⟩ := r
        cases code with
        | nil => cases hnext
        | cons i rest =>
            by_cases hi : i = .ret
            · subst hi
              cases hnext
              exact .ret todo done k rest cpu
            · rw [hinstr todo done k hi] at hnext
              cases hnext
              exact .exec todo done k rest cpu hi
  · intro hstep
    cases hstep with
    | enter todo done henters => exact if_pos henters
    | exec todo done k rest cpu hi => exact hinstr todo done k hi rest cpu
    | ret => rfl

/-- All calls of a thread, in the order in which it makes them. -/
def Thread.script (t : Thread κ w ρ) : List κ :=
  t.done.reverse.map Prod.fst ++ t.running.toList.map Prod.fst ++ t.todo

theorem Thread.script_next {e : Cpu} {m' : Memory w} {t t' : Thread κ w ρ}
    (hnext : t.next api e m = some (m', t')) : t'.script = t.script := by
  cases Thread.next_iff.mp hnext with
  | enter | ret => simp [script]
  | exec => rfl

/-- The threads make the calls that they were given. -/
theorem Api.script_eq (hrun : Run api.Step ⟨m, calls.map .ready⟩ tr a) :
    a.threads.map Thread.script = calls := by
  refine hrun.invariant (I := fun a => a.threads.map Thread.script = calls) ?_ ?_
  · simp only [List.map_map]
    exact List.map_id'' (fun l => rfl) calls
  · intro a l b ha hstep
    obtain ⟨t, s, t', hget, hnext, rfl⟩ := hstep
    obtain ⟨hlt, rfl⟩ := List.getElem?_eq_some_iff.mp hget
    rw [← ha, List.map_set, Thread.script_next hnext, ← List.map_set, List.set_getElem_self]

/-- A thread that has finished has made them all. -/
theorem Api.calls_of_finished (hrun : Run api.Step ⟨m, calls.map .ready⟩ tr a) {i : Nat}
    {t : Thread κ w ρ} (hget : a.threads[i]? = some t) (hfinished : t.Finished) :
    calls[i]? = some (t.done.reverse.map Prod.fst) := by
  rw [← Api.script_eq hrun, List.getElem?_map, hget, Option.map_some, Thread.script, hfinished.1,
    hfinished.2]
  simp

/-- The thread is on its way to a `ret`. -/
def Thread.Returns (t : Thread κ w ρ) : Prop := ∀ r ∈ t.running, .ret ∈ r.2.1

/-- The instructions to the end, and one more for each call to come. -/
def Thread.rank (api : Api κ w ρ) (t : Thread κ w ρ) : Nat :=
  (t.todo.map fun k => (api.code k).body.length + 1).sum + t.running.elim 0 fun r => r.2.1.length

theorem Thread.Returns.next (hret : ∀ k, .ret ∈ (api.code k).body) {e : Cpu} {m' : Memory w}
    {t t' : Thread κ w ρ} (h : t.Returns) (hnext : t.next api e m = some (m', t')) :
    t'.Returns := by
  cases Thread.next_iff.mp hnext with
  | enter =>
      intro r hr
      cases hr
      exact hret _
  | exec todo done k rest cpu hi =>
      intro r hr
      cases hr
      exact (List.mem_cons.mp (h _ rfl)).resolve_left (Ne.symm hi)
  | ret =>
      intro r hr
      cases hr

/-- A thread that has not finished can go on, and gets nearer to its end. -/
theorem Thread.Returns.exists_next (henters : ∀ k, ∃ cpu, (api.code k).Enters cpu)
    {t : Thread κ w ρ} (h : t.Returns) (hopen : ¬ t.Finished) (m : Memory w) :
    ∃ e m' t', t.next api e m = some (m', t') ∧ t'.rank api < t.rank api := by
  obtain ⟨todo, running, done⟩ := t
  cases running with
  | none =>
      cases todo with
      | nil => exact absurd ⟨rfl, rfl⟩ hopen
      | cons k todo =>
          obtain ⟨cpu, hcpu⟩ := henters k
          refine ⟨cpu, m, _, Thread.next_iff.mpr (.enter todo done hcpu), ?_⟩
          simp only [rank, List.map_cons, List.sum_cons, Option.elim]
          omega
  | some r =>
      obtain ⟨k, code, cpu⟩ := r
      cases code with
      | nil => exact absurd (h _ rfl) List.not_mem_nil
      | cons i rest =>
          by_cases hi : i = .ret
          · subst hi
            refine ⟨.zero, m, _, Thread.next_iff.mpr (.ret todo done k rest cpu), ?_⟩
            simp only [rank, Option.elim, List.length_cons]
            omega
          · refine ⟨.zero, _, _, Thread.next_iff.mpr (.exec todo done k rest cpu hi), ?_⟩
            simp only [rank, Option.elim, List.length_cons]
            omega

/-- No interleaving is stuck before all calls have returned. -/
theorem Api.exists_finished (hret : ∀ k, .ret ∈ (api.code k).body)
    (henters : ∀ k, ∃ cpu, (api.code k).Enters cpu)
    (hrun : Run api.Step ⟨m, calls.map .ready⟩ tr a) :
    ∃ tr' b, Run api.Step a tr' b ∧ ∀ t ∈ b.threads, t.Finished := by
  have hall : ∀ t ∈ a.threads, t.Returns := by
    refine hrun.invariant (I := fun a => ∀ t ∈ a.threads, t.Returns) ?_ ?_
    · intro t ht r hr
      obtain ⟨l, _, rfl⟩ := List.mem_map.mp ht
      cases hr
    · intro a l b ha hstep u hu
      obtain ⟨t, s, t', hget, hnext, rfl⟩ := hstep
      rcases List.mem_or_eq_of_mem_set hu with hold | rfl
      · exact ha u hold
      · exact (ha t (List.mem_of_getElem? hget)).next hret hnext
  refine System.exists_finished (Thread.rank api) ?_ hall
  intro m t h hopen
  obtain ⟨e, m', t', hnext, hrank⟩ := h.exists_next henters hopen m
  exact ⟨e, m', t', hnext, h.next hret hnext, hrank⟩

end Runs

/-- A schedule after which all calls have returned is a run. -/
theorem Api.exists_run {γ : Type} (api : Api κ w ρ) (a : System (Memory w) (Thread κ w ρ))
    (ls : List (Nat × Cpu)) (obs : System (Memory w) (Thread κ w ρ) → γ) (v : γ)
    (h : (ls.foldlM (System.exec fun c m t => t.next api c m) a).map
      (fun s => (s.threads.all fun t => t.todo.isEmpty && t.running.isNone, obs s))
        = some (true, v)) :
    ∃ tr b, Run api.Step a tr b ∧ labels tr = ls ∧ (∀ t ∈ b.threads, t.Finished) ∧ obs b = v := by
  obtain ⟨tr, b, hrun, hlabels, heq⟩ := System.exists_run_of_exec h
  obtain ⟨hall, hobs⟩ := Prod.ext_iff.mp heq
  refine ⟨tr, b, hrun, hlabels, fun t ht => ?_, hobs⟩
  have hreturned := List.all_eq_true.mp hall t ht
  rwa [Bool.and_eq_true, List.isEmpty_iff, Option.isNone_iff_eq_none] at hreturned

/-- The results of the calls that have returned. -/
def results (a : System (Memory w) (Thread κ w ρ)) : List ρ :=
  (a.threads.flatMap Thread.done).map Prod.snd

end Threads

end Challenges.Atomics

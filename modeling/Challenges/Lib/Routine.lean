import Challenges.Lib.Atomic

/-!
# Routine — calls that touch the shared state once

A routine is a list of instructions; an instruction works on the registers of
its thread and on the state that the threads share. Where one instruction of
each routine touches the shared state, and the others do not, a call takes
effect there: what the routine does when nobody interrupts it, `Does`, is what
it does in every interleaving.

`order` lines the calls up by the steps that touch the shared state. It is
read off the run as it goes, so the order of a run is the beginning of the
order of every longer one; a call that has returned comes before a call that
has not begun.
-/

namespace Challenges.Lib

variable {α π σ κ ρ : Type}

/-- What the instructions do, and which of them touch the shared state; the
code of a call, the registers that it is entered with, and where its reply is. -/
structure Routines (α π σ κ ρ : Type) where
  exec : α → π → σ → π × σ
  touches : α → Bool
  code : κ → List α
  Enters : κ → π → Prop
  reply : κ → π → ρ

/-- A thread: the calls to come, the one it is in, with the instructions left
and its registers, and the calls that have returned. -/
structure Worker (α π κ ρ : Type) where
  todo : List κ
  running : Option (κ × List α × π)
  done : List (κ × ρ)

namespace Worker

def ready (calls : List κ) : Worker α π κ ρ := ⟨calls, none, []⟩

/-- All calls have returned. -/
def Finished (t : Worker α π κ ρ) : Prop := t.todo = [] ∧ t.running = none

/-- All calls, in the order in which they are made. -/
def script (t : Worker α π κ ρ) : List κ :=
  t.done.reverse.map Prod.fst ++ t.running.toList.map Prod.fst ++ t.todo

/-- A step of a thread; a call is entered with the registers `p`. -/
inductive Next (R : Routines α π σ κ ρ) (p : π) (s : σ) :
    Worker α π κ ρ → σ → Worker α π κ ρ → Prop
  | enter {k : κ} (todo : List κ) (done : List (κ × ρ)) (henters : R.Enters k p) :
      Next R p s ⟨k :: todo, none, done⟩ s ⟨todo, some (k, R.code k, p), done⟩
  | exec (todo : List κ) (done : List (κ × ρ)) (k : κ) (i : α) (rest : List α) (q : π) :
      Next R p s ⟨todo, some (k, i :: rest, q), done⟩ (R.exec i q s).2
        ⟨todo, some (k, rest, (R.exec i q s).1), done⟩
  | leave (todo : List κ) (done : List (κ × ρ)) (k : κ) (q : π) :
      Next R p s ⟨todo, some (k, [], q), done⟩ s ⟨todo, none, (k, R.reply k q) :: done⟩

/-- The step, computed. -/
def next (R : Routines α π σ κ ρ) [∀ k p, Decidable (R.Enters k p)] (p : π) (s : σ)
    (t : Worker α π κ ρ) : Option (σ × Worker α π κ ρ) :=
  match t.running, t.todo with
  | none, [] => none
  | none, k :: todo =>
      if R.Enters k p then some (s, { t with todo := todo, running := some (k, R.code k, p) })
      else none
  | some (k, i :: rest, q), _ =>
      some ((R.exec i q s).2, { t with running := some (k, rest, (R.exec i q s).1) })
  | some (k, [], q), _ => some (s, { t with running := none, done := (k, R.reply k q) :: t.done })

theorem next_sound {R : Routines α π σ κ ρ} [∀ k p, Decidable (R.Enters k p)] {p : π} {s s' : σ}
    {t t' : Worker α π κ ρ} (h : t.next R p s = some (s', t')) : Next R p s t s' t' := by
  obtain ⟨todo, running, done⟩ := t
  cases running with
  | none =>
      cases todo with
      | nil => cases h
      | cons k todo =>
          simp only [next, Option.ite_none_right_eq_some] at h
          obtain ⟨henters, heq⟩ := h
          cases heq
          exact .enter todo done henters
  | some r =>
      obtain ⟨k, code, q⟩ := r
      cases code with
      | nil =>
          cases h
          exact .leave todo done k q
      | cons i rest =>
          cases h
          exact .exec todo done k i rest q

/-- The call that the thread is in, when the next instruction touches the
shared state. -/
def touching (R : Routines α π σ κ ρ) (t : Worker α π κ ρ) : Option κ :=
  match t.running with
  | some (k, i :: _, _) => if R.touches i then some k else none
  | _ => none

theorem Next.script_eq {R : Routines α π σ κ ρ} {p : π} {s s' : σ} {t t' : Worker α π κ ρ}
    (h : Next R p s t s' t') : t'.script = t.script := by
  cases h with
  | enter | leave => simp [script]
  | exec => rfl

end Worker

namespace Routines

variable (R : Routines α π σ κ ρ)

/-- One step of an interleaving: thread `l.1` goes on, `l.2` being what the
registers hold when it enters a call. -/
def Step : System σ (Worker α π κ ρ) → Nat × π → System σ (Worker α π κ ρ) → Prop :=
  System.Step fun p s t s' t' => Worker.Next R p s t s' t'

/-- Instructions that nobody interrupts. -/
def runAll : List α → π → σ → π × σ
  | [], p, s => (p, s)
  | i :: rest, p, s => runAll rest (R.exec i p s).1 (R.exec i p s).2

/-- An instruction that does not touch the shared state neither changes it nor
depends on it. -/
def Local : Prop :=
  ∀ i, R.touches i = false → ∀ p s s', (R.exec i p s).2 = s ∧ (R.exec i p s).1 = (R.exec i p s').1

/-- Each routine has one instruction that does. -/
def Once : Prop := ∀ k, (R.code k).countP R.touches = 1

/-- What a call does when nobody interrupts it. -/
def Does (op : κ → σ → σ × ρ) (k : κ) : Prop :=
  ∀ p s, R.Enters k p →
    (R.runAll (R.code k) p s).2 = (op k s).1 ∧
      R.reply k (R.runAll (R.code k) p s).1 = (op k s).2

end Routines

/-! ## One thread -/

section Moves

variable {R : Routines α π σ κ ρ} {op : κ → σ → σ × ρ} {p : π} {s s' : σ}
  {t t' : Worker α π κ ρ} {u : Caller κ ρ}

/-- A thread and what it looks like to the object. Before the call takes effect,
the instructions left would do all of it; after it, they carry the reply to its
place. -/
inductive Worker.Follows (R : Routines α π σ κ ρ) (op : κ → σ → σ × ρ) :
    Worker α π κ ρ → Caller κ ρ → Prop
  | idle (todo : List κ) (done : List (κ × ρ)) : Follows R op ⟨todo, none, done⟩ ⟨todo, .idle, done⟩
  | before {k : κ} {rest : List α} {q : π} (todo : List κ) (done : List (κ × ρ))
      (honce : rest.countP R.touches = 1)
      (hdoes : ∀ s, (R.runAll rest q s).2 = (op k s).1 ∧
        R.reply k (R.runAll rest q s).1 = (op k s).2) :
      Follows R op ⟨todo, some (k, rest, q), done⟩ ⟨todo, .before k, done⟩
  | after {k : κ} {rest : List α} {q : π} {r : ρ} (todo : List κ) (done : List (κ × ρ))
      (hnone : rest.countP R.touches = 0) (hreply : ∀ s, R.reply k (R.runAll rest q s).1 = r) :
      Follows R op ⟨todo, some (k, rest, q), done⟩ ⟨todo, .after k r, done⟩

/-- Instructions that do not touch the shared state leave it as it is. -/
theorem Routines.runAll_snd (hlocal : R.Local) {code : List α} (hnone : code.countP R.touches = 0)
    (q : π) (s : σ) : (R.runAll code q s).2 = s := by
  induction code generalizing q s with
  | nil => rfl
  | cons i rest ih =>
      rw [List.countP_eq_zero] at hnone
      obtain ⟨hi, hrest⟩ := List.forall_mem_cons.mp hnone
      rw [runAll, ih (List.countP_eq_zero.mpr hrest), (hlocal i (Bool.eq_false_iff.mpr hi) q s s).1]

/-- ... and do not depend on it. -/
theorem Routines.runAll_fst (hlocal : R.Local) {code : List α} (hnone : code.countP R.touches = 0)
    (q : π) (s s' : σ) : (R.runAll code q s).1 = (R.runAll code q s').1 := by
  induction code generalizing q s s' with
  | nil => rfl
  | cons i rest ih =>
      rw [List.countP_eq_zero] at hnone
      obtain ⟨hi, hrest⟩ := List.forall_mem_cons.mp hnone
      rw [runAll, runAll, (hlocal i (Bool.eq_false_iff.mpr hi) q s s').2]
      exact ih (List.countP_eq_zero.mpr hrest) _ _ _

/-- **A step is a move of the object**, and takes effect when it touches the
shared state. -/
theorem Worker.Follows.next (hlocal : R.Local) (honce : R.Once)
    (hdoes : ∀ k ∈ t.todo, R.Does op k) (h : Follows R op t u) (hnext : Next R p s t s' t') :
    ∃ u', Move op s u s' u' ∧ Follows R op t' u' ∧
      u'.taken = ((t.touching R).toList.map fun k => (k, (op k s).2)) ++ u.taken := by
  cases h with
  | idle todo done =>
      cases hnext with
      | @enter k todo _ henters =>
          have hk : R.Does op k := hdoes k (by simp)
          exact ⟨_, .enter k todo done, .before todo done (honce k) (hk p · henters), rfl⟩
  | @before k rest q todo done hone hrest =>
      cases hnext with
      | leave => simp at hone
      | exec _ _ _ i rest =>
          cases hi : R.touches i with
          | false =>
              rw [List.countP_cons_of_neg (Bool.eq_false_iff.mp hi)] at hone
              refine ⟨.mk todo (.before k) done, ?_, .before todo done hone fun s' => ?_, ?_⟩
              · rw [(hlocal i hi q s s).1]
                exact .stay _
              · have hsame := hlocal i hi q s' s
                rw [← hsame.2]
                have hall := hrest s'
                rwa [Routines.runAll, hsame.1] at hall
              · simp [touching, hi]
          | true =>
              -- the call takes effect here, and the rest carries its reply
              have hnone : rest.countP R.touches = 0 := by
                rw [List.countP_cons_of_pos hi] at hone
                omega
              obtain ⟨hstate, hreply⟩ := hrest s
              rw [Routines.runAll, Routines.runAll_snd hlocal hnone] at hstate
              rw [Routines.runAll] at hreply
              rw [hstate]
              refine ⟨_, .commit k todo done, .after todo done hnone fun s' => ?_, ?_⟩
              · rw [← hreply, Routines.runAll_fst hlocal hnone _ s' (R.exec i q s).2]
              · simp [touching, hi, Caller.taken]
  | @after k rest q r todo done hnone hreply =>
      cases hnext with
      | leave =>
          rw [show R.reply k q = r from hreply s]
          exact ⟨_, .leave k r todo done, .idle todo _, rfl⟩
      | exec _ _ _ i rest =>
          rw [List.countP_eq_zero] at hnone
          obtain ⟨hi, hrest⟩ := List.forall_mem_cons.mp hnone
          have hi := Bool.eq_false_iff.mpr hi
          refine ⟨.mk todo (.after k r) done, ?_,
            .after todo done (List.countP_eq_zero.mpr hrest) fun s' => ?_, ?_⟩
          · rw [(hlocal i hi q s s).1]
            exact .stay _
          · have hsame := hlocal i hi q s' s
            rw [← hsame.2]
            have hall := hreply s'
            rwa [Routines.runAll, hsame.1] at hall
          · simp [touching, hi]

/-- The calls that have taken effect are those that have returned, and perhaps
the one that the thread is in. -/
theorem Worker.Follows.taken (h : Follows R op t u) :
    u.taken = t.done ∨ ∃ k rest q r, t.running = some (k, rest, q) ∧ u.taken = (k, r) :: t.done := by
  cases h with
  | idle | before => exact .inl rfl
  | @after k rest q r => exact .inr ⟨k, rest, q, r, rfl, rfl⟩

end Moves

/-! ## The order of the calls -/

namespace Routines

/-- The calls as they take effect: the thread, the call, and its reply. -/
def order (R : Routines α π σ κ ρ) (op : κ → σ → σ × ρ) :
    System σ (Worker α π κ ρ) → List ((Nat × π) × System σ (Worker α π κ ρ)) → List (Nat × κ × ρ) :=
  observed fun a l _ =>
    (a.threads[l.1]?.bind (Worker.touching R)).toList.map fun k => (l.1, k, (op k a.state).2)

/-- The calls of one thread. -/
def part (i : Nat) (l : List (Nat × κ × ρ)) : List (κ × ρ) :=
  (l.filter fun c => c.1 = i).map Prod.snd

theorem part_append (i : Nat) (l l' : List (Nat × κ × ρ)) :
    part i (l ++ l') = part i l ++ part i l' := by
  simp [part]

/-- **A linearization**: one after the other, the calls lead the object from `s`
to the state that the threads share, with these replies. Thread by thread they
are the calls that have returned, in the order in which the thread has made them,
and perhaps the call that it is in. -/
structure Linearizes (op : κ → σ → σ × ρ) (s : σ) (calls : List (List κ))
    (l : List (Nat × κ × ρ)) (a : System σ (Worker α π κ ρ)) : Prop where
  serial : ∃ steps, Run (Serial op) s steps a.state ∧ labels steps = l.map Prod.snd
  script : a.threads.map Worker.script = calls
  index : ∀ c ∈ l, c.1 < calls.length
  returned : ∀ i t, a.threads[i]? = some t → part i l = t.done.reverse ∨
    ∃ k rest q r, t.running = some (k, rest, q) ∧ part i l = t.done.reverse ++ [(k, r)]

variable {R : Routines α π σ κ ρ} {op : κ → σ → σ × ρ} {s : σ} {calls : List (List κ)}
  {tr : List ((Nat × π) × System σ (Worker α π κ ρ))} {a : System σ (Worker α π κ ρ)}

/-- The threads make the calls that they were given. -/
theorem script_eq (hrun : Run R.Step ⟨s, calls.map .ready⟩ tr a) :
    a.threads.map Worker.script = calls := by
  refine hrun.invariant (I := fun a => a.threads.map Worker.script = calls) ?_ ?_
  · simp only [List.map_map]
    exact List.map_id'' (fun l => rfl) calls
  · intro a l b ha hstep
    obtain ⟨t, s, t', hget, hnext, rfl⟩ := hstep
    obtain ⟨hlt, rfl⟩ := List.getElem?_eq_some_iff.mp hget
    rw [← ha, List.map_set, hnext.script_eq, ← List.map_set, List.set_getElem_self]

/-- Only threads make calls. -/
theorem index_lt (hrun : Run R.Step ⟨s, calls.map .ready⟩ tr a) :
    ∀ c ∈ R.order op ⟨s, calls.map .ready⟩ tr, c.1 < calls.length := by
  induction hrun with
  | nil =>
      intro c hc
      cases hc
  | @snoc tr a l b hrun hstep ih =>
      obtain ⟨t, s', t', hget, _, rfl⟩ := hstep
      have hlt : l.1 < calls.length := by
        rw [← script_eq hrun, List.length_map]
        exact (List.getElem?_eq_some_iff.mp hget).1
      intro c hc
      rw [order, hrun.observed_snoc] at hc
      rcases List.mem_append.mp hc with hc | hc
      · exact ih c hc
      · obtain ⟨k, _, rfl⟩ := List.mem_map.mp hc
        exact hlt

/-- ... and no others. -/
theorem mem_calls_of_todo (hrun : Run R.Step ⟨s, calls.map .ready⟩ tr a) {t : Worker α π κ ρ}
    (ht : t ∈ a.threads) {k : κ} (hk : k ∈ t.todo) : k ∈ calls.flatten := by
  refine List.mem_flatten.mpr ⟨t.script, ?_, List.mem_append_right _ hk⟩
  rw [← script_eq hrun]
  exact List.mem_map_of_mem ht

/-- The threads as the object sees them, and the order so far. -/
theorem exists_callers (hlocal : R.Local) (honce : R.Once)
    (hdoes : ∀ k ∈ calls.flatten, R.Does op k)
    (hrun : Run R.Step ⟨s, calls.map .ready⟩ tr a) :
    (∃ steps, Run (Serial op) s steps a.state ∧
      labels steps = (R.order op ⟨s, calls.map .ready⟩ tr).map Prod.snd) ∧
    ∃ us, List.Forall₂ (Worker.Follows R op) a.threads us ∧ ∀ i u, us[i]? = some u →
      part i (R.order op ⟨s, calls.map .ready⟩ tr) = u.taken.reverse := by
  induction hrun with
  | nil =>
      refine ⟨⟨[], .nil, rfl⟩, calls.map .ready, ?_, fun i u hu => ?_⟩
      · rw [List.forall₂_map_left_iff, List.forall₂_map_right_iff]
        exact List.forall₂_same.mpr fun l _ => .idle l []
      · obtain ⟨l, _, rfl⟩ := List.mem_map.mp (List.mem_of_getElem? hu)
        rfl
  | @snoc tr a l b hrun hstep ih =>
      obtain ⟨⟨steps, hserial, hlabels⟩, us, hfollows, htaken⟩ := ih
      obtain ⟨t, s', t', hget, hnext, rfl⟩ := hstep
      obtain ⟨u, hu, hR⟩ := forall₂_getElem? hfollows hget
      have htodo : ∀ k ∈ t.todo, R.Does op k := fun k hk =>
        hdoes k (mem_calls_of_todo hrun (List.mem_of_getElem? hget) hk)
      obtain ⟨u', hmove, hR', hu'⟩ := hR.next hlocal honce htodo hnext
      have horder : R.order op ⟨s, calls.map .ready⟩ (tr ++ [(l, ⟨s', a.threads.set l.1 t'⟩)])
          = R.order op ⟨s, calls.map .ready⟩ tr
            ++ (t.touching R).toList.map fun k => (l.1, k, (op k a.state).2) := by
        rw [order, hrun.observed_snoc, hget, Option.bind_some]
      constructor
      · rcases hmove.taken_cases with ⟨rfl, hsame⟩ | ⟨c, rfl, hc⟩
        · -- no call takes effect
          have hnone : t.touching R = none := by
            rw [hsame] at hu'
            cases ht : t.touching R with
            | none => rfl
            | some k => simp [ht] at hu'
          refine ⟨steps, hserial, ?_⟩
          rw [horder, hnone, hlabels]
          simp
        · have hsome : (t.touching R).toList.map (fun k => (k, (op k a.state).2))
              = [(c, (op c a.state).2)] := by
            rw [hc] at hu'
            exact (List.append_left_injective u.taken hu').symm
          refine ⟨_, hserial.snoc (l := (c, (op c a.state).2)) rfl, ?_⟩
          rw [labels_snoc, hlabels, horder, List.map_append, ← hsome, List.map_map]
          rfl
      · refine ⟨us.set l.1 u', forall₂_set hfollows hR', fun i v hv => ?_⟩
        rw [horder, part_append]
        by_cases hi : l.1 = i
        · -- the thread that moves
          subst hi
          have hv' : v = u' := by
            rw [List.getElem?_set_self (List.getElem?_eq_some_iff.mp hu).1] at hv
            exact (Option.some.inj hv).symm
          rw [hv', hu', List.reverse_append, htaken l.1 u hu]
          cases t.touching R <;> simp [part]
        · rw [List.getElem?_set_ne hi] at hv
          rw [htaken i v hv]
          cases t.touching R <;> simp [part, hi]

/-- **Routines that touch the shared state once are linearizable.** -/
theorem linearizes_order (hlocal : R.Local) (honce : R.Once)
    (hdoes : ∀ k ∈ calls.flatten, R.Does op k)
    (hrun : Run R.Step ⟨s, calls.map .ready⟩ tr a) :
    Linearizes op s calls (R.order op ⟨s, calls.map .ready⟩ tr) a := by
  obtain ⟨hserial, us, hfollows, htaken⟩ := exists_callers hlocal honce hdoes hrun
  refine ⟨hserial, script_eq hrun, index_lt hrun, fun i t hget => ?_⟩
  obtain ⟨u, hu, hR⟩ := forall₂_getElem? hfollows hget
  rw [htaken i u hu]
  rcases hR.taken with hdone | ⟨k, rest, q, r, hrunning, hcall⟩
  · exact .inl (congrArg List.reverse hdone)
  · refine .inr ⟨k, rest, q, r, hrunning, ?_⟩
    rw [hcall, List.reverse_cons]

/-- The order of a run is the beginning of the order of a longer one. -/
theorem order_prefix (a : System σ (Worker α π κ ρ))
    (tr tr' : List ((Nat × π) × System σ (Worker α π κ ρ))) :
    R.order op a tr <+: R.order op a (tr ++ tr') := by
  induction tr generalizing a with
  | nil => exact List.nil_prefix
  | cons l tr ih =>
      obtain ⟨l, b⟩ := l
      exact (List.prefix_append_right_inj _).mpr (ih b)

/-- When the threads have finished, each of them has all of its calls in the order. -/
theorem Linearizes.part_eq {l : List (Nat × κ × ρ)} (h : Linearizes op s calls l a)
    (hfinished : ∀ t ∈ a.threads, t.Finished) {i : Nat} {own : List κ} (hown : calls[i]? = some own) :
    (part i l).map Prod.fst = own := by
  rw [← h.script, List.getElem?_map, Option.map_eq_some_iff] at hown
  obtain ⟨t, hget, rfl⟩ := hown
  have hend := hfinished t (List.mem_of_getElem? hget)
  have hpart : part i l = t.done.reverse := by
    rcases h.returned i t hget with hdone | ⟨k, rest, q, r, hrunning, _⟩
    · exact hdone
    · rw [hend.2] at hrunning
      cases hrunning
  rw [hpart, Worker.script, hend.1, hend.2]
  simp

theorem mem_part {l : List (Nat × κ × ρ)} {c : Nat × κ × ρ} (hc : c ∈ l) : c.2 ∈ part c.1 l := by
  refine List.mem_map_of_mem (List.mem_filter.mpr ⟨hc, ?_⟩)
  simp

/-- A call in the order is one that its thread makes. -/
theorem Linearizes.mem_calls {l : List (Nat × κ × ρ)} (h : Linearizes op s calls l a)
    {c : Nat × κ × ρ} (hc : c ∈ l) : ∃ own, calls[c.1]? = some own ∧ c.2.1 ∈ own := by
  have hlt : c.1 < a.threads.length := by
    rw [← List.length_map (f := Worker.script), h.script]
    exact h.index c hc
  have hget := List.getElem?_eq_getElem hlt
  refine ⟨a.threads[c.1].script, ?_, ?_⟩
  · rw [← h.script, List.getElem?_map, hget, Option.map_some]
  · have hpart := mem_part hc
    rw [Worker.script, List.append_assoc, List.mem_append, List.mem_append]
    rcases h.returned _ _ hget with hdone | ⟨k, rest, q, r, hrunning, hdone⟩
    · rw [hdone] at hpart
      exact .inl (List.mem_map_of_mem hpart)
    · rw [hdone, List.mem_append] at hpart
      rcases hpart with hpart | hpart
      · exact .inl (List.mem_map_of_mem hpart)
      · rw [hrunning, List.mem_singleton.mp hpart]
        exact .inr (.inl (List.mem_singleton.mpr rfl))

/-- What the calls of the other threads do not have is left to one thread. -/
theorem filterMap_part {β : Type} {f : κ → Option β} {i : Nat} {l : List (Nat × κ × ρ)}
    (h : ∀ c ∈ l, c.1 ≠ i → f c.2.1 = none) :
    (l.map fun c => c.2.1).filterMap f = ((part i l).map Prod.fst).filterMap f := by
  induction l with
  | nil => rfl
  | cons c l ih =>
      obtain ⟨hc, hrest⟩ := List.forall_mem_cons.mp h
      have hl := ih hrest
      by_cases hi : c.1 = i
      · have hpart : part i (c :: l) = c.2 :: part i l := by simp [part, hi]
        rw [hpart, List.map_cons, List.map_cons, List.filterMap_cons, List.filterMap_cons, hl]
      · have hpart : part i (c :: l) = part i l := by simp [part, hi]
        rw [hpart, List.map_cons, List.filterMap_cons, hc hi, hl]

end Routines

/-! ## Replies that nobody looks at -/

section Mute

variable {R : Routines α π σ κ ρ} {op : κ → σ → σ × ρ} {s : σ} {calls : List (List κ)}
  {tr : List ((Nat × π) × System σ (Worker α π κ ρ))} {a : System σ (Worker α π κ ρ)}

/-- The routines without their replies. -/
def Routines.mute (R : Routines α π σ κ ρ) : Routines α π σ κ Unit where
  exec := R.exec
  touches := R.touches
  code := R.code
  Enters := R.Enters
  reply _ _ := ()

def Worker.mute (t : Worker α π κ ρ) : Worker α π κ Unit where
  todo := t.todo
  running := t.running
  done := t.done.map fun c => (c.1, ())

theorem Worker.map_fst_mute (t : Worker α π κ ρ) : t.mute.done.map Prod.fst = t.done.map Prod.fst := by
  simp [mute]

theorem Worker.Next.mute {p : π} {s s' : σ} {t t' : Worker α π κ ρ} (h : Next R p s t s' t') :
    Next R.mute p s t.mute s' t'.mute := by
  cases h with
  | enter todo done henters => exact .enter todo _ henters
  | exec todo done k i rest q => exact .exec todo _ k i rest q
  | leave todo done k q => exact .leave todo _ k q

theorem Routines.runAll_mute (code : List α) (p : π) (s : σ) :
    R.mute.runAll code p s = R.runAll code p s := by
  induction code generalizing p s with
  | nil => rfl
  | cons i rest ih => exact ih _ _

/-- Without its reply, a call does what it makes of the state. -/
theorem Routines.does_mute {k : κ}
    (h : ∀ p s, R.Enters k p → (R.runAll (R.code k) p s).2 = (op k s).1) :
    R.mute.Does (fun k s => ((op k s).1, ())) k := by
  intro p s henters
  refine ⟨?_, rfl⟩
  rw [runAll_mute]
  exact h p s henters

/-- The same interleaving, without the replies. -/
theorem Routines.exists_mute (hrun : Run R.Step ⟨s, calls.map .ready⟩ tr a) :
    ∃ tr' b, Run R.mute.Step ⟨s, calls.map .ready⟩ tr' b ∧ b.state = a.state ∧
      b.threads = a.threads.map Worker.mute := by
  have hstart : List.Forall₂ (fun (t : Worker α π κ ρ) u => u = t.mute) (calls.map .ready)
      (calls.map .ready) := by
    rw [List.forall₂_map_left_iff, List.forall₂_map_right_iff]
    exact List.forall₂_same.mpr fun l _ => rfl
  have hnext : ∀ (p : π) (s : σ) (t : Worker α π κ ρ) s' t' u, u = t.mute →
      Worker.Next R p s t s' t' → ∃ u', Worker.Next R.mute p s u s' u' ∧ u' = t'.mute := by
    intro p s t s' t' u hu hnext
    exact ⟨t'.mute, hu ▸ hnext.mute, rfl⟩
  obtain ⟨tr', b, hmute, _, hstate, hthreads⟩ := System.simulation hnext hrun hstart
  refine ⟨tr', b, hmute, hstate, ?_⟩
  have hflip := hthreads.flip
  rw [← List.forall₂_map_right_iff (f := Worker.mute), List.forall₂_eq_eq_eq] at hflip
  exact hflip

end Mute

namespace Routines

variable {R : Routines α π σ κ ρ} {s : σ} {calls : List (List κ)}
  {tr : List ((Nat × π) × System σ (Worker α π κ ρ))} {a : System σ (Worker α π κ ρ)}

/-- What is observed after a schedule is observed after a run. -/
theorem exists_run {γ : Type} (R : Routines α π σ κ ρ) [∀ k p, Decidable (R.Enters k p)]
    (a : System σ (Worker α π κ ρ)) (ls : List (Nat × π)) (obs : System σ (Worker α π κ ρ) → γ) (v : γ)
    (h : (ls.foldlM (System.exec (Worker.next R)) a).map obs = some v) :
    ∃ tr b, Run R.Step a tr b ∧ labels tr = ls ∧ obs b = v := by
  obtain ⟨tr, b, hrun, hlabels, hobs⟩ := System.exists_run_of_exec h
  have hstep : ∀ (b : System σ (Worker α π κ ρ)) (l : Nat × π) (c : System σ (Worker α π κ ρ)), True →
      System.Step (fun p s t s' t' => Worker.next R p s t = some (s', t')) b l c →
      R.Step b l c ∧ True := by
    intro b l c _ h
    obtain ⟨t, s, t', hget, hnext, hc⟩ := h
    exact ⟨⟨t, s, t', hget, Worker.next_sound hnext, hc⟩, trivial⟩
  exact ⟨tr, b, (hrun.mono (I := fun _ => True) trivial hstep).1, hlabels, hobs⟩

/-! ## Progress -/

/-- The steps that a thread has still to take. -/
def rank (R : Routines α π σ κ ρ) (t : Worker α π κ ρ) : Nat :=
  (t.todo.map fun k => (R.code k).length + 2).sum + t.running.elim 0 fun r => r.2.1.length + 1

/-- Each step is one of them. -/
theorem rank_next {p : π} {s s' : σ} {t t' : Worker α π κ ρ} (h : Worker.Next R p s t s' t') :
    R.rank t' + 1 = R.rank t := by
  cases h <;> simp only [rank, List.map_cons, List.sum_cons, Option.elim, List.length_cons,
    List.length_nil] <;> omega

/-- **No retries**: the steps that the threads have taken and those that they
have still to take are as many as their code has. -/
theorem steps_eq (hrun : Run R.Step ⟨s, calls.map .ready⟩ tr a) :
    tr.length + (a.threads.map R.rank).sum
      = (calls.map fun l => (l.map fun k => (R.code k).length + 2).sum).sum := by
  induction hrun with
  | nil => simp [List.map_map, Function.comp_def, rank, Worker.ready]
  | @snoc tr a l b _ hstep ih =>
      obtain ⟨t, s', t', hget, hnext, rfl⟩ := hstep
      have hsum := sum_map_modify hget (fun _ => t') R.rank
      have hrank := rank_next hnext
      rw [← List.set_eq_modify] at hsum
      rw [List.length_append, List.length_singleton, ← ih]
      simp only
      omega

/-- No interleaving is stuck before all calls have returned. -/
theorem exists_finished (henters : ∀ k, ∃ p, R.Enters k p) (a : System σ (Worker α π κ ρ)) :
    ∃ tr b, Run R.Step a tr b ∧ ∀ t ∈ b.threads, t.Finished := by
  refine System.exists_finished (I := fun _ => True) R.rank ?_ fun _ _ => trivial
  intro s t _ hopen
  have hprogress : ∃ p s' t', Worker.Next R p s t s' t' := by
    obtain ⟨todo, running, done⟩ := t
    cases running with
    | none =>
        cases todo with
        | nil => exact absurd ⟨rfl, rfl⟩ hopen
        | cons k todo =>
            obtain ⟨p, hp⟩ := henters k
            exact ⟨p, s, _, .enter todo done hp⟩
    | some r =>
        obtain ⟨k, code, q⟩ := r
        cases code with
        | nil => exact ⟨q, s, _, .leave todo done k q⟩
        | cons i rest => exact ⟨q, _, _, .exec todo done k i rest q⟩
  obtain ⟨p, s', t', hnext⟩ := hprogress
  have hrank := rank_next hnext
  exact ⟨p, s', t', hnext, trivial, by omega⟩

end Routines

end Challenges.Lib

import Mathlib.Data.List.Perm.Basic
import Challenges.Lib.Run

/-!
# Atomic — calls that take effect at one moment

`System` is a state that threads share, and the threads; in a step of an
interleaving one thread moves. Two systems that agree thread by thread
agree in every interleaving (`System.simulation`).

An object answers a call `c` in state `s` with `op c s`, the next state and
a reply. Threads call it in turn and at once; each call takes effect at one
moment between its start and its end. `exists_order` lines these moments up:
whatever the threads did, the object has seen one sequence of calls, and
every reply is the one of that sequence. An implementation is shown to be
such an object by a simulation, each of its own steps being a `Move` of the
thread, most of them `stay`.
-/

namespace Challenges.Lib

variable {σ θ θ' ι ρ ε : Type}

/-! ## Interleavings -/

/-- A shared state and the threads that work on it. -/
structure System (σ θ : Type) where
  state : σ
  threads : List θ

/-- Thread `l.1` moves; `l.2` is what its surroundings put in. -/
def System.Step (next : ε → σ → θ → σ → θ → Prop) (a : System σ θ) (l : Nat × ε)
    (b : System σ θ) : Prop :=
  ∃ t s t', a.threads[l.1]? = some t ∧ next l.2 a.state t s t' ∧ b = ⟨s, a.threads.set l.1 t'⟩

/-- The step of a system whose threads compute their moves. -/
def System.exec (next : ε → σ → θ → Option (σ × θ)) (a : System σ θ) (l : Nat × ε) :
    Option (System σ θ) :=
  a.threads[l.1]?.bind fun t =>
    (next l.2 a.state t).map fun p => ⟨p.1, a.threads.set l.1 p.2⟩

theorem System.step_of_exec {next : ε → σ → θ → Option (σ × θ)} {a b : System σ θ} {l : Nat × ε}
    (h : a.exec next l = some b) :
    System.Step (fun e s t s' t' => next e s t = some (s', t')) a l b := by
  obtain ⟨t, hget, hmap⟩ := Option.bind_eq_some_iff.mp h
  obtain ⟨p, hnext, rfl⟩ := Option.map_eq_some_iff.mp hmap
  exact ⟨t, p.1, p.2, hget, hnext, rfl⟩

/-- What is observed after a schedule is observed after a run. -/
theorem System.exists_run_of_exec {γ : Type} {next : ε → σ → θ → Option (σ × θ)}
    {obs : System σ θ → γ} {v : γ} {ls : List (Nat × ε)} {a : System σ θ}
    (h : (ls.foldlM (System.exec next) a).map obs = some v) :
    ∃ tr b, Run (System.Step fun e s t s' t' => next e s t = some (s', t')) a tr b ∧
      labels tr = ls ∧ obs b = v := by
  induction ls generalizing a with
  | nil => exact ⟨[], a, .nil, rfl, Option.some.inj h⟩
  | cons l ls ih =>
      rw [List.foldlM_cons] at h
      cases hexec : a.exec next l with
      | none => simp [hexec] at h
      | some b =>
          rw [hexec] at h
          obtain ⟨tr, c, hrun, hlabels, hobs⟩ := ih h
          exact ⟨(l, b) :: tr, c, hrun.cons (step_of_exec hexec), congrArg (l :: ·) hlabels, hobs⟩

/-- **Threads that can go on finish** when each of their moves takes them
nearer to the end. -/
theorem System.exists_finished {next : ε → σ → θ → σ → θ → Prop} {I finished : θ → Prop}
    (rank : θ → Nat)
    (hnext : ∀ s t, I t → ¬ finished t →
      ∃ e s' t', next e s t s' t' ∧ I t' ∧ rank t' < rank t)
    {a : System σ θ} (ha : ∀ t ∈ a.threads, I t) :
    ∃ tr b, Run (System.Step next) a tr b ∧ ∀ t ∈ b.threads, finished t := by
  have hprogress : ∀ a : System σ θ, (∀ t ∈ a.threads, I t) → ¬ (∀ t ∈ a.threads, finished t) →
      ∃ l b, System.Step next a l b ∧ (∀ t ∈ b.threads, I t) ∧
        (b.threads.map rank).sum < (a.threads.map rank).sum := by
    intro a ha hgoal
    push Not at hgoal
    obtain ⟨t, ht, hopen⟩ := hgoal
    obtain ⟨i, hget⟩ := List.mem_iff_getElem?.mp ht
    obtain ⟨e, s', t', hmove, hinv, hrank⟩ := hnext a.state t (ha t ht) hopen
    refine ⟨(i, e), ⟨s', a.threads.set i t'⟩, ⟨t, s', t', hget, hmove, rfl⟩, fun u hu => ?_, ?_⟩
    · rcases List.mem_or_eq_of_mem_set hu with hold | rfl
      · exact ha u hold
      · exact hinv
    · have hsum := sum_map_modify hget (fun _ => t') rank
      rw [← List.set_eq_modify] at hsum
      simp only
      omega
  obtain ⟨tr, b, hrun, _, hfinished⟩ := Run.exists_of_progress hprogress ha
  exact ⟨tr, b, hrun, hfinished⟩

section Simulation

variable {R : θ → θ' → Prop} {l : List θ} {l' : List θ'} {i : Nat} {t : θ} {u : θ'}

theorem forall₂_getElem? (h : List.Forall₂ R l l') (ht : l[i]? = some t) :
    ∃ u, l'[i]? = some u ∧ R t u := by
  induction h generalizing i with
  | nil => cases ht
  | cons hR _ ih =>
      cases i with
      | zero =>
          cases ht
          exact ⟨_, rfl, hR⟩
      | succ i => exact ih ht

theorem forall₂_set (h : List.Forall₂ R l l') (hR : R t u) :
    List.Forall₂ R (l.set i t) (l'.set i u) := by
  induction h generalizing i with
  | nil => exact .nil
  | cons hhead hrest ih =>
      cases i with
      | zero => exact .cons hR hrest
      | succ i => exact .cons hhead ih

theorem forall₂_flatMap {β : Type} {f : θ → List β} {g : θ' → List β} (h : List.Forall₂ R l l')
    (hfg : ∀ t u, R t u → f t = g u) : l.flatMap f = l'.flatMap g := by
  induction h with
  | nil => rfl
  | cons hR _ ih => rw [List.flatMap_cons, List.flatMap_cons, hfg _ _ hR, ih]

theorem forall₂_forall {p : θ → Prop} {q : θ' → Prop} (h : List.Forall₂ R l l')
    (hpq : ∀ t u, R t u → p t → q u) (hp : ∀ t ∈ l, p t) : ∀ u ∈ l', q u := by
  induction h with
  | nil => simp
  | cons hR _ ih =>
      rw [List.forall_mem_cons] at hp ⊢
      exact ⟨hpq _ _ hR hp.1, ih hp.2⟩

/-- **Thread by thread**: when each move of a thread is matched by one of the
thread that it is related to, with the same effect on the shared state, each
interleaving is matched by the same interleaving. -/
theorem System.simulation {next : ε → σ → θ → σ → θ → Prop} {next' : ε → σ → θ' → σ → θ' → Prop}
    (hnext : ∀ e s t s' t' u, R t u → next e s t s' t' → ∃ u', next' e s u s' u' ∧ R t' u')
    {a b : System σ θ} {tr : List ((Nat × ε) × System σ θ)} (hrun : Run (System.Step next) a tr b)
    {us : List θ'} (hus : List.Forall₂ R a.threads us) :
    ∃ tr' b', Run (System.Step next') ⟨a.state, us⟩ tr' b' ∧ labels tr' = labels tr ∧
      b'.state = b.state ∧ List.Forall₂ R b.threads b'.threads := by
  refine hrun.simulation (t := ⟨a.state, us⟩)
    (R := fun c (c' : System σ θ') => c'.state = c.state ∧ List.Forall₂ R c.threads c'.threads)
    ⟨rfl, hus⟩ ?_
  intro c l d c' hrel hstep
  obtain ⟨hstate, hthreads⟩ := hrel
  obtain ⟨t, s, t', hget, hmove, rfl⟩ := hstep
  obtain ⟨u, hget', hR⟩ := forall₂_getElem? hthreads hget
  obtain ⟨u', hmove', hR'⟩ := hnext _ _ _ _ _ _ hR hmove
  rw [← hstate] at hmove'
  exact ⟨⟨s, c'.threads.set l.1 u'⟩, ⟨u, s, u', hget', hmove', rfl⟩, rfl, forall₂_set hthreads hR'⟩

end Simulation

/-! ## Objects -/

/-- Where a thread is in a call. -/
inductive Phase (ι ρ : Type) where
  | idle
  | before (c : ι)
  | after (c : ι) (r : ρ)

/-- A thread: the calls it will make, the one it is in, and those that have
returned. -/
structure Caller (ι ρ : Type) where
  todo : List ι
  phase : Phase ι ρ
  done : List (ι × ρ)

namespace Caller

/-- Before the first call. -/
def ready (calls : List ι) : Caller ι ρ := ⟨calls, .idle, []⟩

/-- The calls that have taken effect, with their replies. -/
def taken (t : Caller ι ρ) : List (ι × ρ) :=
  match t.phase with
  | .after c r => (c, r) :: t.done
  | _ => t.done

/-- All calls of a thread. -/
def calls (t : Caller ι ρ) : List ι :=
  match t.phase with
  | .idle => t.todo ++ t.done.map Prod.fst
  | .before c | .after c _ => c :: (t.todo ++ t.done.map Prod.fst)

def Finished (t : Caller ι ρ) : Prop := t.todo = [] ∧ t.phase = .idle

end Caller

/-- What one thread may do. -/
inductive Move (op : ι → σ → σ × ρ) (s : σ) : Caller ι ρ → σ → Caller ι ρ → Prop
  | stay (t : Caller ι ρ) : Move op s t s t
  | enter (c : ι) (todo : List ι) (done : List (ι × ρ)) :
      Move op s ⟨c :: todo, .idle, done⟩ s ⟨todo, .before c, done⟩
  | commit (c : ι) (todo : List ι) (done : List (ι × ρ)) :
      Move op s ⟨todo, .before c, done⟩ (op c s).1 ⟨todo, .after c (op c s).2, done⟩
  | leave (c : ι) (r : ρ) (todo : List ι) (done : List (ι × ρ)) :
      Move op s ⟨todo, .after c r, done⟩ s ⟨todo, .idle, (c, r) :: done⟩

/-- Threads with calls to an object. -/
def objectStep (op : ι → σ → σ × ρ) : System σ (Caller ι ρ) → Nat × ε → System σ (Caller ι ρ) → Prop :=
  System.Step fun _ s t s' t' => Move op s t s' t'

/-- The object on its own: a call and its reply. -/
def Serial (op : ι → σ → σ × ρ) (a : σ) (l : ι × ρ) (b : σ) : Prop := op l.1 a = (b, l.2)

/-! ## One thread of many -/

/-- What the threads contribute together, when one of them changes. -/
theorem flatMap_set_perm {α β : Type} {l : List α} {i : Nat} {a b : α} {f : α → List β}
    (extra : List β) (h : l[i]? = some a) (hf : (f b).Perm (extra ++ f a)) :
    ((l.set i b).flatMap f).Perm (extra ++ l.flatMap f) := by
  induction l generalizing i with
  | nil => cases h
  | cons c l ih =>
      cases i with
      | zero =>
          cases h
          simpa [List.append_assoc] using hf.append_right (l.flatMap f)
      | succ i =>
          have hrest := (ih (i := i) (by simpa using h)).append_left (f c)
          have hswap : (f c ++ extra ++ l.flatMap f).Perm (extra ++ f c ++ l.flatMap f) :=
            List.perm_append_comm.append_right (l.flatMap f)
          simpa [List.append_assoc] using hrest.trans (by simpa [List.append_assoc] using hswap)

section Moves

variable {op : ι → σ → σ × ρ} {s s' : σ} {t t' : Caller ι ρ}

/-- A thread makes no call that it did not have to make. -/
theorem Move.calls_perm (h : Move op s t s' t') : t'.calls.Perm t.calls := by
  cases h with
  | stay => exact .refl _
  | enter c todo done => exact .refl _
  | commit c todo done => exact .refl _
  | leave c r todo done => exact List.perm_middle

/-- A call that takes effect is one of the object, and nothing else is. -/
theorem Move.taken_cases (h : Move op s t s' t') :
    (s' = s ∧ t'.taken = t.taken) ∨
      ∃ c, s' = (op c s).1 ∧ t'.taken = (c, (op c s).2) :: t.taken := by
  cases h with
  | stay => exact .inl ⟨rfl, rfl⟩
  | enter c todo done => exact .inl ⟨rfl, rfl⟩
  | commit c todo done => exact .inr ⟨c, rfl, rfl⟩
  | leave c r todo done => exact .inl ⟨rfl, rfl⟩

end Moves

/-! ## The order of the calls -/

section Order

variable {op : ι → σ → σ × ρ} {s : σ} {calls : List (List ι)}
  {tr : List ((Nat × ε) × System σ (Caller ι ρ))} {a : System σ (Caller ι ρ)}

/-- **The calls of the threads have an order**: one after the other they
lead the object to its state, with the replies that the threads got. -/
theorem exists_order
    (hrun : Run (objectStep op) ⟨s, calls.map .ready⟩ tr a) :
    ∃ order, Run (Serial op) s order a.state ∧
      (labels order).Perm (a.threads.flatMap Caller.taken) := by
  refine hrun.invariant (I := fun a => ∃ order, Run (Serial op) s order a.state ∧
    (labels order).Perm (a.threads.flatMap Caller.taken)) ?_ ?_
  · refine ⟨[], .nil, ?_⟩
    simp [List.flatMap_map, Caller.ready, Caller.taken]
  · intro a l b hex hstep
    obtain ⟨order, hserial, hperm⟩ := hex
    obtain ⟨t, s', t', hget, hmove, rfl⟩ := hstep
    rcases hmove.taken_cases with ⟨rfl, htaken⟩ | ⟨c, rfl, htaken⟩
    · refine ⟨order, hserial, hperm.trans ?_⟩
      exact (flatMap_set_perm (f := Caller.taken) [] hget
        (by rw [htaken]; exact .refl _)).symm
    · refine ⟨_, hserial.snoc (l := (c, (op c a.state).2)) rfl, ?_⟩
      rw [labels_snoc]
      have hset := flatMap_set_perm (b := t') (f := Caller.taken) [(c, (op c a.state).2)] hget
        (by rw [htaken]; exact .refl _)
      exact ((hperm.append_right _).trans List.perm_append_comm).trans hset.symm

/-- The threads make the calls they were given. -/
theorem calls_perm
    (hrun : Run (objectStep op) ⟨s, calls.map .ready⟩ tr a) :
    (a.threads.flatMap Caller.calls).Perm calls.flatten := by
  refine hrun.invariant
    (I := fun a => (a.threads.flatMap Caller.calls).Perm calls.flatten) ?_ ?_
  · simp [List.flatMap_map, Caller.ready, Caller.calls]
  · intro a l b hperm hstep
    obtain ⟨t, s', t', hget, hmove, rfl⟩ := hstep
    exact (flatMap_set_perm [] hget hmove.calls_perm).trans hperm

/-- When the threads have finished, they have made all of their calls. -/
theorem finished_calls
    (hrun : Run (objectStep op) ⟨s, calls.map .ready⟩ tr a)
    (hfinished : ∀ t ∈ a.threads, t.Finished) :
    a.threads.flatMap Caller.taken = a.threads.flatMap Caller.done ∧
      ((a.threads.flatMap Caller.done).map Prod.fst).Perm calls.flatten := by
  have htaken : ∀ t ∈ a.threads, t.taken = t.done := by
    intro t ht
    rw [Caller.taken, (hfinished t ht).2]
  have hcalls : ∀ t ∈ a.threads, t.done.map Prod.fst = t.calls := by
    intro t ht
    rw [Caller.calls, (hfinished t ht).1, (hfinished t ht).2, List.nil_append]
  refine ⟨List.flatMap_congr htaken, ?_⟩
  rw [List.map_flatMap, List.flatMap_congr hcalls]
  exact calls_perm hrun

end Order

end Challenges.Lib

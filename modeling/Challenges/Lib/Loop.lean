import Mathlib.Algebra.Order.Ring.Nat

/-!
# Loop — fuelled loops in a fallible state monad

A `while` loop of a program is `loop stuck step fuel a`: `step` looks at
the loop variables and answers either with their next values (`.inl`) or
with the loop's result (`.inr`). Running out of fuel is the fault
`stuck`, never a silent default, so a statement that a loop returns is a
statement that the fuel was enough.

`loop_spec` is the rule for total correctness: an invariant on variables
and state, and a variant bounded by the fuel. `Keeps I m` is partial: a
program that returns has kept `I`, whatever it was called with.
-/

namespace Challenges.Lib

variable {ε σ α β : Type}

/-! ## Running fallible state programs -/

@[simp] theorem pure_eq_ok (x : α) :
    (pure x : Except ε α) = Except.ok x := (rfl)

@[simp] theorem ok_bind (x : α) (f : α → Except ε β) :
    (Except.ok x >>= f) = f x := (rfl)

@[simp] theorem error_bind (e : ε) (f : α → Except ε β) :
    ((Except.error e : Except ε α) >>= f) = Except.error e := (rfl)

@[simp] theorem map_ok (f : α → β) (x : α) :
    (f <$> (Except.ok x : Except ε α)) = Except.ok (f x) := (rfl)

/-- A sequence returns exactly when both halves do. -/
theorem run_bind_eq_ok {m : StateT σ (Except ε) α}
    {f : α → StateT σ (Except ε) β} {s : σ} {r : β × σ} :
    (m >>= f).run s = .ok r ↔
      ∃ a s', m.run s = .ok (a, s') ∧ (f a).run s' = .ok r := by
  rw [StateT.run_bind]
  cases h : m.run s with
  | error e => simp
  | ok p =>
      obtain ⟨a, s'⟩ := p
      constructor
      · exact fun hf => ⟨a, s', rfl, hf⟩
      · rintro ⟨b, t, heq, hf⟩
        cases heq
        exact hf

/-! ## Loops -/

/-- Run `step` from `a` until it answers with a result. -/
def loop (stuck : ε) (step : α → StateT σ (Except ε) (α ⊕ β)) :
    Nat → α → StateT σ (Except ε) β
  | 0, _ => throw stuck
  | fuel + 1, a => do
      match ← step a with
      | .inl a' => loop stuck step fuel a'
      | .inr b => pure b

variable {stuck : ε} {step : α → StateT σ (Except ε) (α ⊕ β)}

/-- One iteration that goes on. -/
theorem loop_next {fuel : Nat} {a a' : α} {s s' : σ}
    (h : (step a).run s = .ok (.inl a', s')) :
    (loop stuck step (fuel + 1) a).run s = (loop stuck step fuel a').run s' := by
  simp [loop, h]

/-- The last iteration. -/
theorem loop_done {fuel : Nat} {a : α} {b : β} {s s' : σ}
    (h : (step a).run s = .ok (.inr b, s')) :
    (loop stuck step (fuel + 1) a).run s = .ok (b, s') := by
  simp [loop, h]

/-- **The loop rule**: while the invariant `I` holds, an iteration either
keeps it and lowers the variant `v`, or ends with the postcondition `Q`. A
loop with more fuel than its variant then returns, in a state with `Q`. -/
theorem loop_spec {I : α → σ → Prop} {Q : β → σ → Prop} {v : α → Nat}
    (hstep : ∀ a s, I a s →
      (∃ a' s', (step a).run s = .ok (.inl a', s') ∧ I a' s' ∧ v a' < v a) ∨
      (∃ b s', (step a).run s = .ok (.inr b, s') ∧ Q b s'))
    {fuel : Nat} {a : α} {s : σ} (hfuel : v a < fuel) (hI : I a s) :
    ∃ b s', (loop stuck step fuel a).run s = .ok (b, s') ∧ Q b s' := by
  induction fuel generalizing a s with
  | zero => omega
  | succ fuel ih =>
      rcases hstep a s hI with ⟨a', s', hrun, hI', hlt⟩ | ⟨b, s', hrun, hQ⟩
      · rw [loop_next hrun]
        exact ih (by omega) hI'
      · exact ⟨b, s', loop_done hrun, hQ⟩

/-- A loop that returns does so with any more fuel. -/
theorem loop_mono {fuel : Nat} (k : Nat) {a : α} {s : σ} {r : β × σ}
    (h : (loop stuck step fuel a).run s = .ok r) :
    (loop stuck step (fuel + k) a).run s = .ok r := by
  induction fuel generalizing a s with
  | zero => cases h
  | succ fuel ih =>
      rw [Nat.succ_add]
      unfold loop at h ⊢
      obtain ⟨next, u, hnext, hrest⟩ := run_bind_eq_ok.mp h
      apply run_bind_eq_ok.mpr
      refine ⟨next, u, hnext, ?_⟩
      cases next with
      | inl a' => exact ih hrest
      | inr b => exact hrest

/-- A loop whose iterations never answer does not return, on any fuel. -/
theorem loop_ne_ok (hstep : ∀ a s b t, (step a).run s ≠ .ok (.inr b, t)) {fuel : Nat}
    {a : α} {s : σ} {b : β} {t : σ} : (loop stuck step fuel a).run s ≠ .ok (b, t) := by
  induction fuel generalizing a s with
  | zero =>
      intro h
      cases h
  | succ fuel ih =>
      intro h
      unfold loop at h
      obtain ⟨next, u, hnext, hrest⟩ := run_bind_eq_ok.mp h
      cases next with
      | inl a' => exact ih hrest
      | inr b' => exact hstep a s b' u hnext

/-- Loops with the same rounds are the same. -/
theorem loop_congr {step' : α → StateT σ (Except ε) (α ⊕ β)} {I : α → σ → Prop}
    (hstep : ∀ a s, I a s → (step a).run s = (step' a).run s ∧
      ∀ a' s', (step' a).run s = .ok (.inl a', s') → I a' s')
    {fuel : Nat} {a : α} {s : σ} (hI : I a s) :
    (loop stuck step fuel a).run s = (loop stuck step' fuel a).run s := by
  induction fuel generalizing a s with
  | zero => rfl
  | succ fuel ih =>
      obtain ⟨hsame, hnext⟩ := hstep a s hI
      unfold loop
      rw [StateT.run_bind, StateT.run_bind, hsame]
      cases hrun : (step' a).run s with
      | error e => rfl
      | ok r =>
          obtain ⟨next, t⟩ := r
          cases next with
          | inl a' => exact ih (hnext a' t hrun)
          | inr b => rfl

/-! ## Invariants of whole programs -/

/-- If `m` returns, it has kept `I`. -/
structure Keeps (I : σ → Prop) (m : StateT σ (Except ε) α) : Prop where
  kept : ∀ {s r t}, m.run s = .ok (r, t) → I s → I t

namespace Keeps

variable {I : σ → Prop}

theorem pure (a : α) : Keeps I (Pure.pure a : StateT σ (Except ε) α) := by
  constructor
  intro s r t hrun hs
  cases hrun
  exact hs

theorem throw (e : ε) : Keeps I (MonadExcept.throw e : StateT σ (Except ε) α) := by
  constructor
  intro s r t hrun hs
  cases hrun

theorem get : Keeps I (MonadState.get : StateT σ (Except ε) σ) := by
  constructor
  intro s r t hrun hs
  cases hrun
  exact hs

theorem modify {f : σ → σ} (hf : ∀ s, I s → I (f s)) :
    Keeps I (modifyGet (fun s => (PUnit.unit, f s)) : StateT σ (Except ε) PUnit) := by
  constructor
  intro s r t hrun hs
  cases hrun
  exact hf s hs

theorem bind {m : StateT σ (Except ε) α} {f : α → StateT σ (Except ε) β}
    (hm : Keeps I m) (hf : ∀ a, Keeps I (f a)) : Keeps I (m >>= f) := by
  constructor
  intro s r t hrun hs
  obtain ⟨a, u, hma, hfa⟩ := run_bind_eq_ok.mp hrun
  exact (hf a).kept hfa (hm.kept hma hs)

theorem ite {p : Prop} [Decidable p] {m m' : StateT σ (Except ε) α}
    (hm : Keeps I m) (hm' : Keeps I m') : Keeps I (if p then m else m') := by
  split
  · exact hm
  · exact hm'

/-- A loop keeps what its iterations keep. -/
theorem loop (hstep : ∀ a, Keeps I (step a)) (fuel : Nat) (a : α) :
    Keeps I (Lib.loop stuck step fuel a) := by
  induction fuel generalizing a with
  | zero => exact throw stuck
  | succ fuel ih =>
      unfold Lib.loop
      apply bind (hstep a)
      intro next
      cases next with
      | inl a' => exact ih a'
      | inr b => exact pure b

end Keeps

end Challenges.Lib

import Challenges.Lib.Loop

/-!
# Follow — two programs in lock-step

`Follows Q p s q t` relates two fallible state programs on states of their
own: whenever `p` returns from `s`, `q` returns from `t`, with results and
states that `Q` relates. There is one rule for each way a program is put
together, so that a pair of programs of the same shape is walked through
side by side; the loop rule lets the second loop have fuel to spare.
-/

namespace Challenges.Lib

variable {ε σ τ α α' β β' : Type}

/-- Where `p` returns from `s`, `q` returns from `t`, as `Q` says. -/
def Follows (Q : α → σ → β → τ → Prop) (p : StateT σ (Except ε) α) (s : σ)
    (q : StateT τ (Except ε) β) (t : τ) : Prop :=
  ∀ r s', p.run s = .ok (r, s') → ∃ r' t', q.run t = .ok (r', t') ∧ Q r s' r' t'

/-- The same result, and states that `R` relates. -/
def Same (R : σ → τ → Prop) (r : α) (s : σ) (r' : α) (t : τ) : Prop := r = r' ∧ R s t

namespace Follows

variable {p : StateT σ (Except ε) α} {q : StateT τ (Except ε) β} {s : σ} {t : τ}
  {Q Q' : α → σ → β → τ → Prop} {P : α' → σ → β' → τ → Prop} {R : σ → τ → Prop}

/-- The rule of consequence. -/
theorem mono (h : Follows Q p s q t) (hQ : ∀ r s' r' t', Q r s' r' t' → Q' r s' r' t') :
    Follows Q' p s q t := by
  intro r s' hp
  obtain ⟨r', t', hq, hQr⟩ := h r s' hp
  exact ⟨r', t', hq, hQ r s' r' t' hQr⟩

/-- What is known of the first program's result may be used for both. -/
theorem known {K : α → σ → Prop} (h : Follows Q p s q t)
    (hp : ∀ r s', p.run s = .ok (r, s') → K r s') :
    Follows (fun r s' r' t' => K r s' ∧ Q r s' r' t') p s q t := by
  intro r s' hrun
  obtain ⟨r', t', hq, hQ⟩ := h r s' hrun
  exact ⟨r', t', hq, hp r s' hrun, hQ⟩

theorem pure {a : α} {b : β} (h : Q a s b t) :
    Follows Q (Pure.pure a : StateT σ (Except ε) α) s (Pure.pure b) t := by
  intro r s' hp
  cases hp
  exact ⟨b, t, rfl, h⟩

/-- Sequence. -/
theorem bind {f : α → StateT σ (Except ε) α'} {g : β → StateT τ (Except ε) β'}
    (h : Follows Q p s q t)
    (hk : ∀ r s' r' t', Q r s' r' t' → Follows P (f r) s' (g r') t') :
    Follows P (p >>= f) s (q >>= g) t := by
  intro r s' hp
  obtain ⟨a, u, hpa, hf⟩ := run_bind_eq_ok.mp hp
  obtain ⟨b, v, hqb, hQ⟩ := h a u hpa
  obtain ⟨r', t', hg, hP⟩ := hk a u b v hQ r s' hf
  exact ⟨r', t', run_bind_eq_ok.mpr ⟨b, v, hqb, hg⟩, hP⟩

/-- Sequence, where the first halves return the same. -/
theorem seq {q : StateT τ (Except ε) α} {f : α → StateT σ (Except ε) α'}
    {g : α → StateT τ (Except ε) β'} (h : Follows (Same R) p s q t)
    (hk : ∀ r s' t', R s' t' → Follows P (f r) s' (g r) t') :
    Follows P (p >>= f) s (q >>= g) t := by
  apply h.bind
  rintro r s' _ t' ⟨rfl, hR⟩
  exact hk r s' t' hR

theorem get {f : σ → StateT σ (Except ε) α} {g : τ → StateT τ (Except ε) β}
    (h : Follows Q (f s) s (g t) t) :
    Follows Q (MonadState.get >>= f) s (MonadState.get >>= g) t := by
  intro r s' hp
  obtain ⟨_, _, hget, hf⟩ := run_bind_eq_ok.mp hp
  cases hget
  obtain ⟨r', t', hg, hQ⟩ := h r s' hf
  exact ⟨r', t', run_bind_eq_ok.mpr ⟨t, t, rfl, hg⟩, hQ⟩

theorem ite {c c' : Prop} [Decidable c] [Decidable c'] {p' : StateT σ (Except ε) α}
    {q' : StateT τ (Except ε) β} (hc : c ↔ c') (h : c → Follows Q p s q t)
    (h' : ¬ c → Follows Q p' s q' t) :
    Follows Q (if c then p else p') s (if c' then q else q') t := by
  by_cases hc' : c
  · rw [if_pos hc', if_pos (hc.mp hc')]
    exact h hc'
  · rw [if_neg hc', if_neg (fun h => hc' (hc.mpr h))]
    exact h' hc'

/-- **Loops in lock-step**: `I` relates the loop variables and the states
before each round, and the second loop has no less fuel. -/
theorem loop {stuck : ε} {step : α → StateT σ (Except ε) (α ⊕ α')}
    {step' : β → StateT τ (Except ε) (β ⊕ β')} {I : α → σ → β → τ → Prop}
    (hstep : ∀ a s b t, I a s b t →
      Follows (fun o s' o' t' =>
          (∃ a' b', o = .inl a' ∧ o' = .inl b' ∧ I a' s' b' t') ∨
            ∃ r r', o = .inr r ∧ o' = .inr r' ∧ P r s' r' t') (step a) s (step' b) t)
    {n m : Nat} (hfuel : n ≤ m) {a : α} {b : β} (hI : I a s b t) :
    Follows P (Lib.loop stuck step n a) s (Lib.loop stuck step' m b) t := by
  induction n generalizing m a b s t with
  | zero =>
      intro r s' hp
      cases hp
  | succ n ih =>
      cases m with
      | zero => omega
      | succ m =>
          unfold Lib.loop
          apply (hstep a s b t hI).bind
          rintro _ s' _ t' (⟨a', b', rfl, rfl, hI'⟩ | ⟨r, r', rfl, rfl, hP⟩)
          · exact ih (by omega) hI'
          · exact pure hP

end Follows

end Challenges.Lib

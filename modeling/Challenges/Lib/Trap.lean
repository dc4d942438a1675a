import Challenges.Lib.Loop

/-!
# Trap — a program that may trap where another goes on

`Traps fault P p q s` compares a program with checks to the same program
without them: from `s`, `p` ends in `fault` when `P` holds, and does what `q`
does when it does not. The rules follow the way the two are put together, so
that `P` is collected from the places where something is checked.
-/

namespace Challenges.Lib

variable {ε σ α β : Type}

/-- `p` ends in `fault` when `P`, and otherwise does what `q` does. -/
def Traps (fault : ε) (P : Prop) (p q : StateT σ (Except ε) α) (s : σ) : Prop :=
  (P → p.run s = .error fault) ∧ (¬ P → p.run s = q.run s)

namespace Traps

variable {fault : ε} {P Q : Prop} {p q : StateT σ (Except ε) α} {s : σ}
  {f g : α → StateT σ (Except ε) β}

theorem never (h : p.run s = q.run s) : Traps fault False p q s := ⟨False.elim, fun _ => h⟩

theorem iff (h : Traps fault P p q s) (hPQ : P ↔ Q) : Traps fault Q p q s :=
  ⟨fun hQ => h.1 (hPQ.mpr hQ), fun hQ => h.2 (fun hP => hQ (hPQ.mp hP))⟩

/-- A first step that both make. -/
theorem of_run {p' q' : StateT σ (Except ε) α} {t : σ} (hp : p.run s = p'.run t)
    (hq : q.run s = q'.run t) (h : Traps fault P p' q' t) : Traps fault P p q s := by
  rw [Traps, hp, hq]
  exact h

/-- The faults of `p`, where `q` does not end in the same one. -/
theorem error_iff (h : Traps fault P p q s) (hq : ¬ P → q.run s ≠ .error fault) :
    p.run s = .error fault ↔ P := by
  constructor
  · intro hp
    by_cases hP : P
    · exact hP
    · exact absurd ((h.2 hP).symm.trans hp) (hq hP)
  · exact h.1

/-- Where `p` returns, `q` does. -/
theorem run_eq_of_ok (h : Traps fault P p q s) {r : α × σ} (hp : p.run s = .ok r) :
    q.run s = .ok r := by
  by_cases hP : P
  · rw [h.1 hP] at hp
    cases hp
  · rw [← h.2 hP, hp]

/-- Sequence: one of the halves traps. -/
theorem bind {R : α → σ → Prop} (h : Traps fault P p q s)
    (hk : ∀ a t, q.run s = .ok (a, t) → Traps fault (R a t) (f a) (g a) t) :
    Traps fault (P ∨ ∃ a t, q.run s = .ok (a, t) ∧ R a t) (p >>= f) (q >>= g) s := by
  constructor
  · intro hor
    by_cases hP : P
    · rw [StateT.run_bind, h.1 hP, error_bind]
    · obtain ⟨a, t, hq, hR⟩ := hor.resolve_left hP
      rw [StateT.run_bind, h.2 hP, hq, ok_bind]
      exact (hk a t hq).1 hR
  · intro hor
    have hP : ¬ P := fun hP => hor (.inl hP)
    rw [StateT.run_bind, StateT.run_bind, h.2 hP]
    cases hq : q.run s with
    | error e => rfl
    | ok r => exact (hk r.1 r.2 hq).2 fun hR => hor (.inr ⟨r.1, r.2, hq, hR⟩)

/-- Sequence, where the first half returns. -/
theorem after {a : α} {t : σ} (h : p.run s = .ok (a, t)) (hq : q.run s = .ok (a, t))
    (hk : Traps fault P (f a) (g a) t) : Traps fault P (p >>= f) (q >>= g) s := by
  constructor
  · intro hP
    rw [StateT.run_bind, h, ok_bind]
    exact hk.1 hP
  · intro hP
    rw [StateT.run_bind, StateT.run_bind, h, hq, ok_bind, ok_bind]
    exact hk.2 hP

/-- Sequence, where the second half does not trap. -/
theorem before (h : Traps fault P p q s)
    (hk : ∀ a t, q.run s = .ok (a, t) → (f a).run t = (g a).run t) :
    Traps fault P (p >>= f) (q >>= g) s :=
  (h.bind (R := fun _ _ => False) fun a t hq => never (hk a t hq)).iff (by simp)

end Traps

end Challenges.Lib

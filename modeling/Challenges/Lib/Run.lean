import Mathlib.Algebra.Order.Ring.Nat

/-!
# Run — finite runs of a labelled transition relation

`Run step s tr s'` is a finite run from `s` to `s'`; `tr` lists, in order,
each label together with the state it led to. A fact about every run is a
fact about every reachable state, since every prefix of a run is a run.
-/

namespace Challenges.Lib

variable {σ τ ℓ : Type}

/-- Finite runs from `s`, with the labels and the states they led to. -/
inductive Run (step : σ → ℓ → σ → Prop) (s : σ) : List (ℓ × σ) → σ → Prop
  | nil : Run step s [] s
  | snoc {tr : List (ℓ × σ)} {a : σ} {l : ℓ} {b : σ} :
      Run step s tr a → step a l b → Run step s (tr ++ [(l, b)]) b

/-- The labels of a run, in order. -/
def labels (tr : List (ℓ × σ)) : List ℓ := tr.map Prod.fst

/-- The states a run visits, its first one included. -/
def visited (s : σ) (tr : List (ℓ × σ)) : List σ := s :: tr.map Prod.snd

/-- What is observed of the steps of a run, in order. -/
def observed {β : Type} (obs : σ → ℓ → σ → List β) : σ → List (ℓ × σ) → List β
  | _, [] => []
  | a, (l, b) :: tr => obs a l b ++ observed obs b tr

@[simp] theorem labels_nil : labels ([] : List (ℓ × σ)) = [] := rfl

@[simp] theorem labels_snoc (tr : List (ℓ × σ)) (l : ℓ) (b : σ) :
    labels (tr ++ [(l, b)]) = labels tr ++ [l] := by
  simp [labels]

@[simp] theorem visited_snoc (s : σ) (tr : List (ℓ × σ)) (l : ℓ) (b : σ) :
    visited s (tr ++ [(l, b)]) = visited s tr ++ [b] := by
  simp [visited]

namespace Run

variable {step step' : σ → ℓ → σ → Prop} {s s' : σ} {tr : List (ℓ × σ)}

/-- **The invariant rule**: what holds at the start and is kept by every
step holds after every run. -/
theorem invariant {I : σ → Prop} (h0 : I s)
    (hstep : ∀ a l b, I a → step a l b → I b) (h : Run step s tr s') : I s' := by
  induction h with
  | nil => exact h0
  | snoc _ hs ih => exact hstep _ _ _ ih hs

/-- What holds at the start and is kept by every step holds in every state
that a run visits. -/
theorem forall_visited {I : σ → Prop} (h0 : I s)
    (hstep : ∀ a l b, I a → step a l b → I b) (h : Run step s tr s') :
    ∀ a ∈ visited s tr, I a := by
  induction h with
  | nil =>
      intro a ha
      rw [List.mem_singleton.mp ha]
      exact h0
  | snoc hrun hs ih =>
      intro a ha
      rw [visited_snoc, List.mem_append] at ha
      rcases ha with ha | ha
      · exact ih a ha
      · rw [List.mem_singleton.mp ha]
        exact hstep _ _ _ (invariant h0 hstep hrun) hs

/-- A run may be extended at its start. -/
theorem cons {l : ℓ} {a : σ} (hs : step s l a) (h : Run step a tr s') :
    Run step s ((l, a) :: tr) s' := by
  induction h with
  | nil => exact .snoc .nil hs
  | snoc _ hs' ih => exact .snoc ih hs'

/-- Runs compose. -/
theorem append {tr' : List (ℓ × σ)} {t : σ} (h : Run step s tr s') (h' : Run step s' tr' t) :
    Run step s (tr ++ tr') t := by
  induction h' with
  | nil => rwa [List.append_nil]
  | snoc _ hs ih =>
      rw [← List.append_assoc]
      exact .snoc ih hs

/-- A run with one label is a step. -/
theorem of_labels_singleton {l : ℓ} (h : Run step s tr s') (hl : labels tr = [l]) :
    step s l s' := by
  cases h with
  | nil => cases hl
  | @snoc tr' a l' _ hrun hs =>
      rw [labels_snoc] at hl
      have hlast : labels tr' ++ [_] = [] ++ [l] := hl
      obtain ⟨hnone, hlast⟩ := List.append_inj' hlast rfl
      cases hrun with
      | nil => rwa [← List.singleton_inj.mp hlast]
      | snoc _ _ =>
          rw [labels_snoc] at hnone
          simp at hnone

/-- The last state of a run is among the states it visits. -/
theorem mem_visited (h : Run step s tr s') : s' ∈ visited s tr := by
  cases h with
  | nil => simp [visited]
  | snoc _ _ => simp

theorem observed_append {β : Type} (obs : σ → ℓ → σ → List β) (h : Run step s tr s')
    (rest : List (ℓ × σ)) :
    observed obs s (tr ++ rest) = observed obs s tr ++ observed obs s' rest := by
  induction h generalizing rest with
  | nil => rfl
  | snoc _ _ ih => simp [ih, observed]

/-- What is observed of a run that is one step longer. -/
theorem observed_snoc {β : Type} (obs : σ → ℓ → σ → List β) (h : Run step s tr s') (l : ℓ) (b : σ) :
    observed obs s (tr ++ [(l, b)]) = observed obs s tr ++ obs s' l b := by
  rw [h.observed_append, observed, observed, List.append_nil]

/-- Runs of a relation are runs of any relation that contains it on the
states where an invariant holds. -/
theorem mono {I : σ → Prop} (h0 : I s)
    (hstep : ∀ a l b, I a → step a l b → step' a l b ∧ I b)
    (h : Run step s tr s') : Run step' s tr s' ∧ I s' := by
  induction h with
  | nil => exact ⟨.nil, h0⟩
  | snoc _ hs ih =>
      obtain ⟨hrun, hI⟩ := ih
      obtain ⟨hs', hI'⟩ := hstep _ _ _ hI hs
      exact ⟨.snoc hrun hs', hI'⟩

/-- **Lock-step simulation**: if related states have matching steps under
the same label, a run is matched by a run with the same labels. -/
theorem simulation {stepT : τ → ℓ → τ → Prop} {R : σ → τ → Prop} {t : τ}
    (h0 : R s t)
    (hstep : ∀ a l b u, R a u → step a l b → ∃ v, stepT u l v ∧ R b v)
    (h : Run step s tr s') :
    ∃ trT t', Run stepT t trT t' ∧ labels trT = labels tr ∧ R s' t' := by
  induction h with
  | nil => exact ⟨[], t, .nil, rfl, h0⟩
  | @snoc _ _ l _ _ hs ih =>
      obtain ⟨trT, u, hrun, hlab, hR⟩ := ih
      obtain ⟨v, hsT, hR'⟩ := hstep _ _ _ _ hR hs
      exact ⟨trT ++ [(l, v)], v, .snoc hrun hsT, by simp [hlab], hR'⟩

/-- **Progress**: if from every state of the invariant that is not a goal
some step goes on and lowers the measure, a run reaches a goal. -/
theorem exists_of_progress {I goal : σ → Prop} {μ : σ → Nat}
    (hstep : ∀ a, I a → ¬ goal a → ∃ l b, step a l b ∧ I b ∧ μ b < μ a) (h0 : I s) :
    ∃ tr s', Run step s tr s' ∧ I s' ∧ goal s' := by
  generalize hn : μ s = n
  induction n using Nat.strongRecOn generalizing s with
  | ind n ih =>
      by_cases hgoal : goal s
      · exact ⟨[], s, .nil, h0, hgoal⟩
      · obtain ⟨l, b, hs, hI, hlt⟩ := hstep s h0 hgoal
        obtain ⟨tr, s', hrun, hres⟩ := ih (μ b) (hn ▸ hlt) hI rfl
        exact ⟨_, s', hrun.cons hs, hres⟩

end Run

/-! ## Runs without an end -/

section Endless

variable {step : σ → ℓ → σ → Prop} {I : σ → Prop} {s : σ}

/-- Some run from `s` goes on for ever. -/
def Endless (step : σ → ℓ → σ → Prop) (s : σ) : Prop :=
  ∃ f : Nat → σ, f 0 = s ∧ ∀ n, ∃ l, step (f n) l (f (n + 1))

/-- A run goes on for ever if it never gets stuck. -/
theorem endless_of_progress (h0 : I s) (hstep : ∀ a, I a → ∃ l b, step a l b ∧ I b) :
    Endless step s := by
  have hnext : ∀ a : { a // I a }, ∃ b : { b // I b }, ∃ l, step a.1 l b.1 := by
    intro a
    obtain ⟨l, b, hs, hI⟩ := hstep a.1 a.2
    exact ⟨⟨b, hI⟩, l, hs⟩
  obtain ⟨next, hnext⟩ := Classical.axiomOfChoice hnext
  let f : Nat → { a // I a } := Nat.rec ⟨s, h0⟩ fun _ a => next a
  exact ⟨fun n => (f n).1, rfl, fun n => hnext (f n)⟩

/-- No run goes on for ever if every step goes down. -/
theorem not_endless {β : Type} {r : β → β → Prop} (hwf : WellFounded r) {m : σ → β} (h0 : I s)
    (hstep : ∀ a l b, I a → step a l b → I b ∧ r (m b) (m a)) : ¬ Endless step s := by
  intro hendless
  obtain ⟨f, hf0, hf⟩ := hendless
  have hI : ∀ n, I (f n) := by
    intro n
    induction n with
    | zero => rwa [hf0]
    | succ n ih =>
        obtain ⟨l, hs⟩ := hf n
        exact (hstep _ _ _ ih hs).1
  have hno : ∀ v n, m (f n) ≠ v := by
    intro v
    induction v using hwf.induction with
    | _ v ih =>
        intro n hv
        obtain ⟨l, hs⟩ := hf n
        exact ih _ (hv ▸ (hstep _ _ _ (hI n) hs).2) (n + 1) rfl
  exact hno _ 0 rfl

end Endless

/-! ## Scripts -/

/-- Execute inputs in turn, and collect what they return; `none` when one of
them cannot be executed. -/
def play {ι ρ : Type} (exec : σ → ι → Option (ρ × σ)) : List ι → σ → Option (List ρ × σ)
  | [], s => some ([], s)
  | i :: rest, s =>
      (exec s i).bind fun p => (play exec rest p.2).map fun q => (p.1 :: q.1, q.2)

/-- What is observed after a script is observed after a run. -/
theorem exists_run_of_play {ι ρ γ : Type} {exec : σ → ι → Option (ρ × σ)}
    {step : σ → ι × ρ → σ → Prop} {obs : σ → γ} {v : γ}
    (hexec : ∀ a i r b, exec a i = some (r, b) → step a (i, r) b) {is : List ι} {rs : List ρ}
    {s : σ} (h : ((play exec is s).map fun p => (p.1, obs p.2)) = some (rs, v)) :
    ∃ tr t, Run step s tr t ∧ labels tr = is.zip rs ∧ obs t = v := by
  induction is generalizing s rs with
  | nil =>
      obtain ⟨_, hobs⟩ := Prod.ext_iff.mp (Option.some.inj h)
      exact ⟨[], s, .nil, rfl, hobs⟩
  | cons i rest ih =>
      cases hfirst : exec s i with
      | none => simp [play, hfirst] at h
      | some p =>
          rw [play, hfirst, Option.bind_some, Option.map_map, Option.map_eq_some_iff] at h
          obtain ⟨q, hq, heq⟩ := h
          obtain ⟨rfl, rfl⟩ := Prod.ext_iff.mp heq
          have hrest : ((play exec rest p.2).map fun p => (p.1, obs p.2)) = some (q.1, obs q.2) := by
            rw [hq, Option.map_some]
          obtain ⟨tr, t, hrun, hlabels, hobs⟩ := ih hrest
          exact ⟨_, t, hrun.cons (hexec s i p.1 p.2 hfirst), congrArg ((i, p.1) :: ·) hlabels, hobs⟩

/-- The rank of a system of components, when one of them moves: what the
others add stays. -/
theorem sum_map_modify {α : Type} {l : List α} {i : Nat} {a : α} (h : l[i]? = some a)
    (move : α → α) (rank : α → Nat) :
    ((l.modify i move).map rank).sum + rank a = (l.map rank).sum + rank (move a) := by
  induction l generalizing i with
  | nil => cases h
  | cons b l ih =>
      cases i with
      | zero =>
          cases h
          rw [List.modify_zero_cons]
          simp only [List.map_cons, List.sum_cons]
          omega
      | succ i =>
          have := ih h
          rw [List.modify_succ_cons]
          simp only [List.map_cons, List.sum_cons]
          omega

end Challenges.Lib

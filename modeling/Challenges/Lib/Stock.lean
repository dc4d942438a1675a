import Mathlib.Logic.Function.Basic
import Mathlib.Tactic.Tauto
import Challenges.Lib.Run

/-!
# Stock — segregated storage, abstractly

What a segregated free-list allocator is for, with no memory in sight:
blocks come in classes (`cls`), and a block that exists is either held by
the client or parked on the stack of its class, never both and never
twice. The well-formedness is carried by the structure, so the three
moves (`take`, `give`, `fill`) build only such stocks.

`Stock.Step` is one client request. `Stock.place` is the ownership
statement, and `high_water` bounds how far each class grows in any system
whose runs a stock follows.
-/

namespace Challenges.Lib

variable {ι β : Type}

/-- Blocks of class `cls b`, each held by the client or parked once. -/
structure Stock (cls : β → ι) where
  parked : ι → List β
  held : List β
  parked_cls : ∀ i, ∀ b ∈ parked i, cls b = i
  parked_nodup : ∀ i, (parked i).Nodup
  held_nodup : held.Nodup
  apart : ∀ i, ∀ b ∈ parked i, b ∉ held

namespace Stock

variable {cls : β → ι}

/-- The stock with no block at all. -/
def empty : Stock cls where
  parked := fun _ => []
  held := []
  parked_cls := by simp
  parked_nodup := by simp
  held_nodup := List.nodup_nil
  apart := by simp

/-- The block exists. -/
def Has (S : Stock cls) (b : β) : Prop := b ∈ S.held ∨ b ∈ S.parked (cls b)

theorem has_of_parked {S : Stock cls} {i : ι} {b : β} (h : b ∈ S.parked i) :
    S.Has b := by
  have hcls := S.parked_cls i b h
  subst hcls
  exact .inr h

/-- **Ownership**: a block that exists is held and on no stack, or it is
not held and sits at exactly one position of exactly one stack. -/
theorem place (S : Stock cls) {b : β} (h : S.Has b) :
    (b ∈ S.held ∧ ∀ i, b ∉ S.parked i) ∨
      (b ∉ S.held ∧ ∃! p : ι × Nat, (S.parked p.1)[p.2]? = some b) := by
  rcases h with hheld | hparked
  · exact .inl ⟨hheld, fun i hi => S.apart i b hi hheld⟩
  · refine .inr ⟨S.apart _ b hparked, ?_⟩
    obtain ⟨k, hk⟩ := List.mem_iff_getElem?.mp hparked
    refine ⟨(cls b, k), hk, ?_⟩
    rintro ⟨j, m⟩ hm
    have hj : cls b = j := S.parked_cls j b (List.mem_iff_getElem?.mpr ⟨m, hm⟩)
    subst hj
    have hlt := (List.getElem?_eq_some_iff.mp hk).1
    have hkm := (List.getElem?_inj hlt (S.parked_nodup _)).mp (hk.trans hm.symm)
    rw [hkm]

/-! ## Counts and moves -/

variable [DecidableEq ι]

/-- How many blocks of a class the client holds. -/
def heldCount (S : Stock cls) (i : ι) : Nat := S.held.countP (fun b => cls b = i)

/-- How many blocks of a class exist. -/
def population (S : Stock cls) (i : ι) : Nat :=
  (S.parked i).length + S.heldCount i

/-- The client takes the block on top of a stack. -/
def take (S : Stock cls) {i : ι} {b : β} {rest : List β}
    (h : S.parked i = b :: rest) : Stock cls where
  parked := Function.update S.parked i rest
  held := b :: S.held
  parked_cls := by
    intro j c hc
    by_cases hj : j = i
    · subst hj
      rw [Function.update_self] at hc
      exact S.parked_cls j c (by rw [h]; exact List.mem_cons_of_mem _ hc)
    · rw [Function.update_of_ne hj] at hc
      exact S.parked_cls j c hc
  parked_nodup := by
    intro j
    by_cases hj : j = i
    · subst hj
      have hnd := S.parked_nodup j
      rw [h] at hnd
      rw [Function.update_self]
      exact hnd.of_cons
    · rw [Function.update_of_ne hj]
      exact S.parked_nodup j
  held_nodup :=
    List.nodup_cons.mpr ⟨S.apart i b (by simp [h]), S.held_nodup⟩
  apart := by
    intro j c hc
    have hnd := S.parked_nodup i
    rw [h, List.nodup_cons] at hnd
    have hb := S.parked_cls i b (by simp [h])
    by_cases hj : j = i
    · subst hj
      rw [Function.update_self] at hc
      have hne : c ≠ b := fun heq => hnd.1 (heq ▸ hc)
      simpa [hne] using S.apart j c (by rw [h]; exact List.mem_cons_of_mem _ hc)
    · rw [Function.update_of_ne hj] at hc
      have hne : c ≠ b := by
        rintro rfl
        exact hj ((S.parked_cls j c hc).symm.trans hb)
      simpa [hne] using S.apart j c hc

/-- New blocks of one class come into being, on an empty stack. -/
def fill (S : Stock cls) {i : ι} {bs : List β} (hcls : ∀ b ∈ bs, cls b = i)
    (hnd : bs.Nodup) (hnew : ∀ b ∈ bs, ¬ S.Has b) : Stock cls where
  parked := Function.update S.parked i bs
  held := S.held
  parked_cls := by
    intro j c hc
    by_cases hj : j = i
    · subst hj
      rw [Function.update_self] at hc
      exact hcls c hc
    · rw [Function.update_of_ne hj] at hc
      exact S.parked_cls j c hc
  parked_nodup := by
    intro j
    by_cases hj : j = i
    · subst hj
      rwa [Function.update_self]
    · rw [Function.update_of_ne hj]
      exact S.parked_nodup j
  held_nodup := S.held_nodup
  apart := by
    intro j c hc hheld
    by_cases hj : j = i
    · subst hj
      rw [Function.update_self] at hc
      exact hnew c hc (.inl hheld)
    · rw [Function.update_of_ne hj] at hc
      exact S.apart j c hc hheld

@[simp] theorem take_held (S : Stock cls) {i : ι} {b : β} {rest : List β}
    (h : S.parked i = b :: rest) : (S.take h).held = b :: S.held := rfl

@[simp] theorem fill_parked {S : Stock cls} {i : ι} {bs : List β}
    (hcls : ∀ b ∈ bs, cls b = i) (hnd : bs.Nodup) (hnew : ∀ b ∈ bs, ¬ S.Has b) :
    (S.fill hcls hnd hnew).parked i = bs := Function.update_self ..

/-! ## Which blocks exist -/

theorem has_take {S : Stock cls} {i : ι} {b c : β} {rest : List β}
    (h : S.parked i = b :: rest) : (S.take h).Has c ↔ S.Has c := by
  have hb := S.parked_cls i b (by simp [h])
  simp only [Has, take, List.mem_cons]
  by_cases hc : cls c = i
  · rw [hc, Function.update_self, h, List.mem_cons]
    tauto
  · rw [Function.update_of_ne hc]
    have hne : c ≠ b := by rintro rfl; exact hc hb
    tauto

theorem has_fill {S : Stock cls} {i : ι} {bs : List β} {c : β}
    (hcls : ∀ b ∈ bs, cls b = i) (hnd : bs.Nodup) (hnew : ∀ b ∈ bs, ¬ S.Has b)
    (hempty : S.parked i = []) :
    (S.fill hcls hnd hnew).Has c ↔ S.Has c ∨ c ∈ bs := by
  simp only [Has, fill]
  by_cases hc : cls c = i
  · rw [hc, Function.update_self, hempty]
    simp
  · rw [Function.update_of_ne hc]
    have hne : c ∉ bs := fun hmem => hc (hcls c hmem)
    simp [hne]

/-! ## What the moves do to the counts -/

theorem heldCount_take {S : Stock cls} {i j : ι} {b : β} {rest : List β}
    (h : S.parked i = b :: rest) :
    (S.take h).heldCount j = S.heldCount j + (if j = i then 1 else 0) := by
  have hb := S.parked_cls i b (by simp [h])
  simp only [heldCount, take_held, List.countP_cons, hb, decide_eq_true_eq]
  by_cases hj : j = i
  · simp [hj]
  · simp [hj, Ne.symm hj]

theorem population_take {S : Stock cls} {i j : ι} {b : β} {rest : List β}
    (h : S.parked i = b :: rest) :
    (S.take h).population j = S.population j := by
  rw [population, population, heldCount_take]
  by_cases hj : j = i
  · subst hj
    simp only [take, Function.update_self, h, List.length_cons, if_true]
    omega
  · simp [take, hj]

/-! ## Serving a request -/

/-- Serving one request for class `i`: from the stack, from a fresh batch
when the stack is empty, or not at all. -/
inductive Serve (S : Stock cls) (i : ι) : Option β → Stock cls → Prop
  | hit {b : β} {rest : List β} (h : S.parked i = b :: rest) :
      Serve S i (some b) (S.take h)
  | refill {b : β} {rest : List β} (hempty : S.parked i = [])
      (hcls : ∀ c ∈ b :: rest, cls c = i) (hnd : (b :: rest).Nodup)
      (hnew : ∀ c ∈ b :: rest, ¬ S.Has c) :
      Serve S i (some b)
        ((S.fill hcls hnd hnew).take (fill_parked hcls hnd hnew))
  | refuse (hempty : S.parked i = []) : Serve S i none S

/-- A class grows only when its stack is empty, and then the client is
left holding one block more than the whole old population. -/
theorem Serve.population_cases {S S' : Stock cls} {i : ι} {o : Option β}
    (h : Serve S i o S') (j : ι) :
    S'.population j = S.population j ∨
      (j = i ∧ S.parked i = [] ∧ S'.heldCount j = S.population j + 1 ∧
        S'.population j = S.population j + ((S'.parked j).length + 1)) := by
  cases h with
  | hit h => exact .inl (population_take h)
  | refuse _ => exact .inl rfl
  | @refill b rest hempty hcls hnd hnew =>
      by_cases hj : j = i
      · subst hj
        have hheld : (S.fill hcls hnd hnew).heldCount j = S.heldCount j := rfl
        right
        refine ⟨rfl, hempty, ?_, ?_⟩
        · rw [heldCount_take, hheld]
          simp [population, hempty]
        · rw [population, heldCount_take, hheld]
          simp [population, hempty]
          omega
      · left
        rw [population_take]
        simp [population, heldCount, fill, Function.update_of_ne hj]

/-- The client is left holding what was served, on top of what it held. -/
theorem Serve.held_eq {S S' : Stock cls} {i : ι} {o : Option β}
    (h : Serve S i o S') : S'.held = o.toList ++ S.held := by
  cases h with
  | hit h => rfl
  | refill _ _ _ _ => rfl
  | refuse _ => rfl

/-- Every block that did not exist before is of the class asked for, and
then a block was served. -/
theorem Serve.has_cases {S S' : Stock cls} {i : ι} {o : Option β}
    (h : Serve S i o S') {c : β} (hc : S'.Has c) :
    S.Has c ∨ (cls c = i ∧ o ≠ none ∧ S.parked i = []) := by
  cases h with
  | hit h => exact .inl ((has_take h).mp hc)
  | refuse _ => exact .inl hc
  | refill hempty hcls hnd hnew =>
      rw [has_take, has_fill hcls hnd hnew hempty] at hc
      exact hc.imp_right fun hmem => ⟨hcls c hmem, by simp, hempty⟩

theorem Serve.has_mono {S S' : Stock cls} {i : ι} {o : Option β}
    (h : Serve S i o S') {c : β} (hc : S.Has c) : S'.Has c := by
  cases h with
  | hit h => exact (has_take h).mpr hc
  | refuse _ => exact hc
  | refill hempty hcls hnd hnew =>
      rw [has_take, has_fill hcls hnd hnew hempty]
      exact .inl hc

/-! ## Giving back -/

variable [DecidableEq β]

/-- The client gives a block back; it goes on top of its class's stack. -/
def give (S : Stock cls) {b : β} (h : b ∈ S.held) : Stock cls where
  parked := Function.update S.parked (cls b) (b :: S.parked (cls b))
  held := S.held.filter (· ≠ b)
  parked_cls := by
    intro j c hc
    by_cases hj : j = cls b
    · subst hj
      rw [Function.update_self, List.mem_cons] at hc
      rcases hc with rfl | hc
      · rfl
      · exact S.parked_cls _ c hc
    · rw [Function.update_of_ne hj] at hc
      exact S.parked_cls j c hc
  parked_nodup := by
    intro j
    by_cases hj : j = cls b
    · subst hj
      rw [Function.update_self]
      exact List.nodup_cons.mpr
        ⟨fun hp => S.apart _ b hp h, S.parked_nodup _⟩
    · rw [Function.update_of_ne hj]
      exact S.parked_nodup j
  held_nodup := S.held_nodup.filter _
  apart := by
    intro j c hc hheld
    rw [List.mem_filter] at hheld
    have hne : c ≠ b := by simpa using hheld.2
    by_cases hj : j = cls b
    · subst hj
      rw [Function.update_self, List.mem_cons] at hc
      rcases hc with rfl | hc
      · exact hne rfl
      · exact S.apart _ c hc hheld.1
    · rw [Function.update_of_ne hj] at hc
      exact S.apart j c hc hheld.1

@[simp] theorem give_held (S : Stock cls) {b : β} (h : b ∈ S.held) :
    (S.give h).held = S.held.filter (· ≠ b) := rfl

theorem has_give {S : Stock cls} {b c : β} (h : b ∈ S.held) :
    (S.give h).Has c ↔ S.Has c := by
  simp only [Has, give, List.mem_filter, decide_eq_true_eq]
  by_cases hc : cls c = cls b
  · rw [hc, Function.update_self, List.mem_cons]
    by_cases hcb : c = b
    · subst hcb; simp [h]
    · simp [hcb]
  · rw [Function.update_of_ne hc]
    have hne : c ≠ b := by rintro rfl; exact hc rfl
    simp [hne]

theorem population_give {S : Stock cls} {b : β} (h : b ∈ S.held) (j : ι) :
    (S.give h).population j = S.population j := by
  have hperm : S.held.Perm (b :: S.held.filter (· ≠ b)) := by
    have herase : S.held.erase b = S.held.filter (· ≠ b) := by
      rw [S.held_nodup.erase_eq_filter b]
      exact List.filter_congr (by simp [bne, beq_eq_decide])
    rw [← herase]
    exact List.perm_cons_erase h
  have hcount := hperm.countP_eq (fun c => decide (cls c = j))
  rw [List.countP_cons] at hcount
  simp only [population, heldCount, give_held]
  by_cases hj : j = cls b
  · subst hj
    simp only [give, Function.update_self, List.length_cons]
    simp at hcount ⊢
    omega
  · have hne : ¬ cls b = j := fun heq => hj heq.symm
    simp only [hne, decide_false, Bool.false_eq_true, if_false] at hcount
    simp only [give, Function.update_of_ne hj]
    omega

/-! ## One client request -/

/-- One client request: nothing moves, a block is served, a block is given
back, or a block is given back before another is served. -/
inductive Step (S : Stock cls) : Stock cls → Prop
  | skip : Step S S
  | serve {i : ι} {o : Option β} {S' : Stock cls} :
      Serve S i o S' → Step S S'
  | give {b : β} (h : b ∈ S.held) : Step S (S.give h)
  | exchange {b : β} (h : b ∈ S.held) {i : ι} {o : Option β} {S' : Stock cls} :
      Serve (S.give h) i o S' → Step S S'

theorem Step.population_cases {S S' : Stock cls} (h : Step S S') (j : ι) :
    S'.population j = S.population j ∨
      (S'.heldCount j = S.population j + 1 ∧
        S'.population j = S.population j + ((S'.parked j).length + 1)) := by
  cases h with
  | skip => exact .inl rfl
  | serve hs =>
      rcases hs.population_cases j with heq | ⟨_, _, hheld, hpop⟩
      · exact .inl heq
      · exact .inr ⟨hheld, hpop⟩
  | give hb => exact .inl (population_give hb j)
  | exchange hb hs =>
      rcases hs.population_cases j with heq | ⟨_, _, hheld, hpop⟩
      · exact .inl (heq.trans (population_give hb j))
      · rw [population_give hb j] at hheld hpop
        exact .inr ⟨hheld, hpop⟩

/-- Blocks never cease to exist. -/
theorem Step.has_mono {S S' : Stock cls} (h : Step S S') {c : β} (hc : S.Has c) :
    S'.Has c := by
  cases h with
  | skip => exact hc
  | serve hs => exact hs.has_mono hc
  | give hb => exact (has_give hb).mpr hc
  | exchange hb hs => exact hs.has_mono ((has_give hb).mpr hc)

end Stock

/-! ## Growth over a whole run -/

variable {σ ℓ : Type}

/-- The largest value of a counter over a list of states. -/
def peak (f : σ → Nat) (states : List σ) : Nat :=
  states.foldr (fun s m => max (f s) m) 0

theorem le_peak (f : σ → Nat) {states : List σ} {s : σ} (h : s ∈ states) :
    f s ≤ peak f states := by
  induction states with
  | nil => simp at h
  | cons t rest ih =>
      rw [List.mem_cons] at h
      simp only [peak, List.foldr_cons]
      rcases h with rfl | h
      · exact Nat.le_max_left _ _
      · exact Nat.le_trans (ih h) (Nat.le_max_right _ _)

theorem peak_append_le (f : σ → Nat) (states more : List σ) :
    peak f states ≤ peak f (states ++ more) := by
  induction states with
  | nil => simp [peak]
  | cons t rest ih =>
      simp only [peak, List.cons_append, List.foldr_cons] at ih ⊢
      omega

theorem peak_snoc (f : σ → Nat) (states : List σ) (s : σ) :
    peak f (states ++ [s]) = max (peak f states) (f s) := by
  induction states with
  | nil => simp [peak]
  | cons t rest ih =>
      simp only [peak, List.cons_append, List.foldr_cons] at ih ⊢
      omega

/-- **High water**: if every step of a system moves its stock by at most
one request, and a refill leaves at most `spare i` blocks parked, then a
class never counts more blocks than the most the client has held of it at
once, plus `spare i`. -/
theorem high_water [DecidableEq ι] [DecidableEq β] {cls : β → ι} {step : σ → ℓ → σ → Prop}
    {R : σ → Stock cls → Prop} (count : σ → ι → Nat) (spare : ι → Nat)
    (hcount : ∀ a S i, R a S → count a i = S.heldCount i)
    (hstep : ∀ a l b S, R a S → step a l b → ∃ S', R b S' ∧ Stock.Step S S' ∧
      ∀ i, S'.population i ≠ S.population i → (S'.parked i).length ≤ spare i)
    {s s' : σ} {tr : List (ℓ × σ)} (h0 : R s Stock.empty)
    (hrun : Run step s tr s') :
    ∃ S', R s' S' ∧
      ∀ i, S'.population i ≤ peak (count · i) (visited s tr) + spare i := by
  induction hrun with
  | nil => exact ⟨_, h0, fun i => by simp [Stock.population, Stock.heldCount, Stock.empty]⟩
  | @snoc tr a l b _ hs ih =>
      obtain ⟨S, hR, hle⟩ := ih
      obtain ⟨S', hR', hmove, hspare⟩ := hstep a l b S hR hs
      refine ⟨S', hR', fun i => ?_⟩
      rw [visited_snoc]
      rcases hmove.population_cases i with heq | ⟨hheld, hpop⟩
      · have := peak_append_le (count · i) (visited s tr) [b]
        have := hle i
        omega
      · have hpark := hspare i (by omega)
        have hb : count b i ≤ peak (count · i) (visited s tr ++ [b]) :=
          le_peak (count · i) (List.mem_append_right _ (List.mem_singleton_self b))
        rw [hcount b S' i hR', hheld] at hb
        omega

end Challenges.Lib

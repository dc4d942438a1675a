import Mathlib.Algebra.BigOperators.Fin
import Mathlib.Algebra.Order.BigOperators.Group.Finset
import Challenges.Kmalloc.Growth
import Challenges.Kmalloc.Refinement

/-!
# Footprint — how much memory the allocators take from the system

A free list never gives memory back, and a block is handed out for requests of
about half its size, a quarter in the class of one page. What `sbrk` has handed
out is then bounded by what the client has asked for: class by class by the
most that it had in use at once, four times over, and by the rest of one page
for each of the small classes.
-/

namespace Challenges.Kmalloc

open Challenges.Lib Challenges.Kmalloc.Port

/-- The bytes that `sbrk` has handed to `morecore`. -/
def grown (log : List SbrkCall) : Nat :=
  (log.map fun c => if c.Grants then c.amt.toNatClampNeg else 0).sum

/-- A bound on the room that requests of class `b` take: four times what they
ask for, and twelve bytes each. -/
def demand {σ : Type} (b : Fin nbuckets) (sys : Sys σ) : Nat :=
  ((sys.live.filter fun h => classOf h.req = some b).map fun h => 4 * h.req.toNat + 12).sum

/-- How many requests of class `b` are in use. -/
def inUse {σ : Type} (b : Fin nbuckets) (sys : Sys σ) : Nat :=
  sys.live.countP fun h => classOf h.req = some b

/-! ## A block against its request -/

theorem classOf_spec {n : UInt32} {b : Fin nbuckets} (h : classOf n = some b) :
    b.val < 29 ∧ ∀ c < b.val, cap c < n.toNat := by
  obtain ⟨k, hk, hkb⟩ := Option.map_eq_some_iff.mp h
  obtain ⟨_, hlt, hmin⟩ := sizeClass_eq_some.mp hk
  have hval : b.val = k := by
    rw [← hkb, Fin.val_ofNat, Nat.mod_eq_of_lt (Nat.lt_trans hlt (by decide))]
  rw [hval]
  exact ⟨hlt, hmin⟩

/-- A block has at most four times the bytes that were asked for. -/
theorem room_le_request {n : UInt32} {b : Fin nbuckets} (h : classOf n = some b) :
    room b ≤ 4 * n.toNat + 12 := by
  obtain ⟨hlt, hmin⟩ := classOf_spec h
  cases hb : b.val with
  | zero =>
      have hroom : room 0 = 8 := by decide
      omega
  | succ k =>
      have htable : ∀ k : Fin 28, room (k.val + 1) ≤ 4 * (cap k.val + 1) + 12 := by decide
      have hroom := htable ⟨k, by omega⟩
      have hmin := hmin k (by omega)
      dsimp only at hroom
      omega

/-- The factor is needed in the class of one page. -/
example : classOf 2045 = some 9 ∧ room 9 = 4 * 2045 + 12 := by decide

theorem room_mul_inUse_le {σ : Type} (b : Fin nbuckets) (sys : Sys σ) :
    room b * inUse b sys ≤ demand b sys := by
  rw [inUse, demand, List.countP_eq_length_filter, Nat.mul_comm]
  have hle := List.card_nsmul_le_sum
    ((sys.live.filter fun h => classOf h.req = some b).map fun h => 4 * h.req.toNat + 12) (room b)
    (by
      intro v hv
      obtain ⟨h, hh, rfl⟩ := List.mem_map.mp hv
      exact room_le_request (by simpa using (List.mem_filter.mp hh).2))
  simpa using hle

/-! ## The regions and the blocks -/

/-- A sum over elements of finitely many kinds. -/
theorem sum_map_eq_sum_countP {β : Type} {k : Nat} (cls : β → Fin k) (f : Fin k → Nat) (l : List β) :
    (l.map fun x => f (cls x)).sum = ∑ b, f b * l.countP fun x => cls x = b := by
  induction l with
  | nil => simp
  | cons x l ih =>
      have hcount : ∀ b, f b * (x :: l).countP (fun x => cls x = b)
          = f b * l.countP (fun x => cls x = b) + if cls x = b then f b else 0 := by
        intro b
        rw [List.countP_cons, Nat.mul_add]
        by_cases hb : cls x = b <;> simp [hb]
      rw [List.map_cons, List.sum_cons, ih, Finset.sum_congr rfl fun b _ => hcount b,
        Finset.sum_add_distrib, Finset.sum_ite_eq, if_pos (Finset.mem_univ _), Nat.add_comm]

/-- What is handed to `morecore` is what `morecore` asks for. -/
def Regular (log : List SbrkCall) : Prop :=
  ∀ c ∈ log, c.Grants → ∃ (b : Fin nbuckets) (ret : UInt32), b.val < 29 ∧ c = growCall b ret

theorem blocks_of_not_grants {c : SbrkCall} (h : ¬ c.Grants) : c.blocks = [] := by
  apply List.eq_nil_iff_forall_not_mem.mpr
  intro x hx
  obtain ⟨b, hcaller, hret, _⟩ := mem_blocks.mp hx
  exact h ⟨⟨b, hcaller⟩, hret⟩

/-- The blocks that are carved fill what was handed out. -/
theorem Regular.grown_eq {log : List SbrkCall} (h : Regular log) :
    grown log = ((carved log).map fun x => room x.bucket).sum := by
  induction log with
  | nil => rfl
  | cons c log ih =>
      have ih := ih fun d hd => h d (List.mem_cons_of_mem _ hd)
      rw [grown] at ih ⊢
      rw [List.map_cons, List.sum_cons, ih, carved, carved, List.flatMap_cons, List.map_append,
        List.sum_append]
      by_cases hc : c.Grants
      · obtain ⟨b, ret, hb, rfl⟩ := h c List.mem_cons_self hc
        have hret : ret ≠ sbrkFailed := hc.2
        have hroom : (newBlocks b ret).map (fun x => room x.bucket)
            = List.replicate (nblks b) (room b) := by simp [newBlocks, Function.comp_def]
        rw [if_pos hc, growCall_amt hb, growCall_blocks hb, if_neg hret, hroom,
          List.sum_replicate, smul_eq_mul, Nat.mul_comm, (room_bounds hb).2.1]
      · rw [if_neg hc, blocks_of_not_grants hc]
        rfl

/-! ## The classes of the ideal allocator -/

/-- Every block is of the class of its list, or of its request. -/
structure Classed (I : Ideal) : Prop where
  log : Regular I.log
  parked : ∀ b, ∀ x ∈ I.parked b, x.bucket = b
  objects : ∀ o ∈ I.objects, classOf o.req = some o.block.bucket

namespace Classed

variable {os : Nat → UInt32} {I J : Ideal}

theorem empty : Classed .empty where
  log _ hc := by cases hc
  parked _ _ hx := by cases hx
  objects _ ho := by cases ho

theorem begin (h : Classed I) (os : Nat → UInt32) : Classed (I.begin os) := by
  rw [Ideal.begin]
  split
  · refine ⟨fun c hc hgrants => ?_, h.parked, h.objects⟩
    -- neither call is one of `morecore`
    obtain ⟨⟨b, hcaller⟩, _⟩ := hgrants
    rcases List.mem_cons.mp hc with rfl | hc
    · cases hcaller
    · split at hc
      · rw [List.mem_singleton.mp hc] at hcaller
        cases hcaller
      · cases hc
  · exact h

/-- A list may be replaced by one of its class. -/
theorem update (h : Classed I) {b : Fin nbuckets} {l : List Block} (hl : ∀ x ∈ l, x.bucket = b) :
    ∀ i, ∀ x ∈ Function.update I.parked b l i, x.bucket = i :=
  (Function.forall_update_iff I.parked fun i l => ∀ x ∈ l, x.bucket = i).mpr
    ⟨hl, fun i _ => h.parked i⟩

theorem refill (h : Classed I) (os : Nat → UInt32) {b : Fin nbuckets} (hb : b.val < 29) :
    Classed (I.refill os b) := by
  rw [Ideal.refill]
  split
  · refine ⟨fun c hc hgrants => ?_, h.update fun x hx => ?_, h.objects⟩
    · rcases List.mem_append.mp hc with hc | hc
      · exact h.log c hc hgrants
      · exact ⟨b, _, hb, List.mem_singleton.mp hc⟩
    · split at hx
      · cases hx
      · exact (mem_newBlocks hx).1
  · exact h

theorem serve (h : Classed I) {b : Fin nbuckets} {n : UInt32} (hn : classOf n = some b)
    (data : Nat → Option UInt8) : Classed (I.serve b n data).2 := by
  cases hparked : I.parked b with
  | nil =>
      rw [Ideal.serve, hparked]
      exact h
  | cons x rest =>
      rw [Ideal.serve_cons hparked]
      have hx : ∀ y ∈ x :: rest, y.bucket = b := hparked ▸ h.parked b
      refine ⟨h.log, h.update fun y hy => hx y (List.mem_cons_of_mem _ hy), fun o ho => ?_⟩
      rcases List.mem_cons.mp ho with rfl | ho
      · rw [hn, hx x List.mem_cons_self]
      · exact h.objects o ho

theorem obtain (h : Classed I) (n : UInt32) (data : Nat → Option UInt8) :
    Classed (I.obtain os n data).2 := by
  rw [Ideal.obtain]
  cases hn : classOf n with
  | none => exact h.begin os
  | some b => exact ((h.begin os).refill os (classOf_spec hn).1).serve hn data

theorem release (h : Classed I) {o : Object} : Classed (I.release o) := by
  refine ⟨h.log, h.update fun x hx => ?_, fun p hp => h.objects p (List.mem_filter.mp hp).1⟩
  rcases List.mem_cons.mp hx with rfl | hx
  · rfl
  · exact h.parked _ x hx

variable (os) in
/-- Every call keeps the classes. -/
theorem call (h : Classed I) (c : Call) : Classed (I.call os c).2 := by
  cases c with
  | kmalloc n => exact h.obtain n _
  | kfree cp =>
      rw [Ideal.call]
      cases I.find cp with
      | none => exact h
      | some o => exact h.release
  | realloc cp n =>
      rw [Ideal.call]
      cases I.find cp with
      | none => exact h.obtain n _
      | some o =>
          dsimp only
          split
          · exact h.release
          · exact h.release.obtain n _
  | write cp off byte =>
      refine ⟨h.log, h.parked, fun o ho => ?_⟩
      obtain ⟨p, hp, rfl⟩ := List.mem_map.mp ho
      have hclass := h.objects p hp
      split <;> exact hclass

end Classed

/-! ## Runs -/

/-- The books of a system: its requests are the blocks of the stock, and all its
blocks are in the log. -/
structure Billed {σ : Type} (sys : Sys σ) (S : Stock Block.bucket) : Prop where
  regular : Regular sys.machine.log
  inUse : ∀ b, inUse b sys = S.heldCount b
  carved : ∀ b, (carved sys.machine.log).countP (fun x => x.bucket = b) = S.population b

theorem mul_peak_le {α : Type} {k : Nat} {f g : α → Nat} (states : List α)
    (h : ∀ s, k * f s ≤ g s) : k * peak f states ≤ peak g states := by
  induction states with
  | nil => simp [peak]
  | cons s rest ih =>
      have hs := h s
      simp only [peak, List.foldr_cons] at ih ⊢
      rw [← Nat.mul_max_mul_left]
      omega

/-- What is left of the first page of each small class. -/
theorem sum_spare : ∑ b : Fin nbuckets, room b * (nblks b - 1) = 32776 := by decide +kernel

/-- **The bound**, for any system that keeps its books. -/
theorem grown_le {σ ℓ : Type} {step : Sys σ → ℓ → Sys σ → Prop}
    {R : Sys σ → Stock Block.bucket → Prop} (hbilled : ∀ a S, R a S → Billed a S)
    (hstep : ∀ a l b S, R a S → step a l b → ∃ S', R b S' ∧ Move S S') {s t : Sys σ}
    (h0 : R s Stock.empty) {tr : List (ℓ × Sys σ)} (hrun : Run step s tr t) :
    grown t.machine.log ≤ ∑ b, peak (demand b) (visited s tr) + 32776 := by
  obtain ⟨S, hR, hle⟩ := high_water (R := R) (fun a b => inUse b a) (fun b => nblks b - 1)
    (fun a S b h => (hbilled a S h).inUse b) hstep h0 hrun
  obtain ⟨hregular, _, hcarved⟩ := hbilled t S hR
  calc grown t.machine.log
      = ∑ b : Fin nbuckets, room b * S.population b := by
        rw [hregular.grown_eq, sum_map_eq_sum_countP Block.bucket fun b => room b]
        exact Finset.sum_congr rfl fun b _ => by rw [hcarved]
    _ ≤ ∑ b : Fin nbuckets, (peak (demand b) (visited s tr) + room b * (nblks b - 1)) := by
        refine Finset.sum_le_sum fun b _ => ?_
        have hpeak := mul_peak_le (visited s tr) fun a => room_mul_inUse_le b a
        have hroom := Nat.mul_le_mul_left (room b) (hle b)
        rw [Nat.mul_add] at hroom
        exact hroom.trans (Nat.add_le_add_right hpeak _)
    _ = ∑ b, peak (demand b) (visited s tr) + 32776 := by
        rw [Finset.sum_add_distrib, sum_spare]

section Runs

variable {fuel : Nat} {os : Nat → UInt32} {a b : Sys Statics} {l : Call × UInt32} {I : Ideal}
  {S : Stock Block.bucket}

/-- The stock and the ideal state of a system of the port. -/
def Stocked (os : Nat → UInt32) (a : Sys Statics) (S : Stock Block.bucket) : Prop :=
  ∃ I, Sound a S ∧ Matches os a.machine a.live S I ∧ Holds a.machine.mem I ∧ Classed I

theorem Stocked.billed (h : Stocked os a S) : Billed a S := by
  obtain ⟨I, hsound, hmatch, _, hclassed⟩ := h
  refine ⟨hmatch.log ▸ hclassed.log, fun b => ?_, hsound.1.carvedFor_eq⟩
  rw [inUse, Stock.heldCount, hmatch.live, hmatch.held, List.countP_map, List.countP_map]
  refine List.countP_congr fun o ho => ?_
  have hclass := hclassed.objects o ho
  simp [Object.handle, hclass]

theorem Stocked.step (h : Stocked os a S)
    (hs : (Port.allocator fuel).Step Disciplined SbrkOk a l b) :
    ∃ S', Stocked os b S' ∧ Move S S' := by
  obtain ⟨I, hsound, hmatch, hholds, hclassed⟩ := h
  obtain ⟨J, ⟨_, hcall, _⟩, S'', hsound'', hmatch'', hholds''⟩ :=
    Tracks.step ⟨S, hsound, hmatch, hholds⟩ hs
  obtain ⟨S', hsound', hmove⟩ := hsound.step ⟨.of_disciplined hs.1, hs.2⟩
  obtain ⟨hparked, hheld⟩ := hsound''.1.owns.stock_eq hsound'.1.owns
  have hclassed' := hclassed.call os l.1
  rw [hcall] at hclassed'
  exact ⟨S', ⟨J, hsound', hmatch''.congr hparked hheld, hholds'', hclassed'⟩, hmove⟩

theorem Stocked.start (mem : Mem) (os : Nat → UInt32) :
    Stocked os (Sys.start Statics.initial mem os) Stock.empty :=
  ⟨.empty, .start mem os, ⟨rfl, rfl, rfl, rfl, rfl, fun _ => rfl⟩, (by intro _ ho; cases ho), .empty⟩

end Runs

/-- What an allocator has taken from the system is bounded by the most that was
in use of each class, in every run of a disciplined client. -/
def Bounded {σ : Type} (A : Allocator σ) (vars : σ) : Prop :=
  ∀ (mem : Mem) (os : Nat → UInt32) tr sys,
    Run (A.Step Disciplined SbrkOk) (Sys.start vars mem os) tr sys →
      grown sys.machine.log ≤ ∑ b, peak (demand b) (visited (Sys.start vars mem os) tr) + 32776

/-- **Footprint**: both allocators have at most four times the memory that the
client had in use at its peaks, summed over the classes, and 12 bytes for each
request of these and eight pages and eight bytes. -/
theorem footprint (fuel fuel' : Nat) :
    Bounded (Port.allocator fuel) Statics.initial ∧
      Bounded (Original.allocator 4096 fuel') Original.Statics.initial := by
  constructor
  · intro mem os tr sys hrun
    exact grown_le (R := Stocked os) (fun a S h => h.billed) (fun a l b S h hs => h.step hs)
      (.start mem os) hrun
  · intro mem os tr sys hrun
    refine grown_le (R := fun u S => ∃ a, Joint a u ∧ Stocked os a S) ?_ ?_
      ⟨_, .start mem os, .start mem os⟩ hrun
    · intro u S h
      obtain ⟨a, hjoint, hstocked⟩ := h
      obtain ⟨hregular, hinUse, hcarved⟩ := hstocked.billed
      obtain ⟨hlog, _, _⟩ := hjoint.agree
      refine ⟨hlog ▸ hregular, fun b => ?_, hlog ▸ hcarved⟩
      rw [← hinUse, inUse, inUse, hjoint.1.live]
    · intro u l v S h hs
      obtain ⟨a, hjoint, hstocked⟩ := h
      obtain ⟨b, hport, hjoint'⟩ :=
        (hjoint.step_back hs : ∃ b, (Port.allocator 0).Step Disciplined SbrkOk a l b ∧ Joint b v)
      obtain ⟨S', hstocked', hmove⟩ := hstocked.step hport
      exact ⟨S', ⟨b, hjoint', hstocked'⟩, hmove⟩

theorem footprint_moved : ∃ tr a,
    Run ((Port.allocator 0).Step Disciplined SbrkOk) (boot twoPages) tr a ∧
    labels tr = [(.kmalloc 16, 4096), (.write 4096 2 7, null), (.realloc 4096 100, 8192),
      (.kmalloc 5000, null)] ∧
    grown a.machine.log ≤ ∑ b, peak (demand b) (visited (boot twoPages) tr) + 32776 := by
  obtain ⟨tr, a, hrun, hlabels, _⟩ := exists_moving_run
  exact ⟨tr, a, hrun, hlabels, (footprint 0 0).1 _ _ tr a hrun⟩

end Challenges.Kmalloc

import Challenges.Lib.Chain
import Challenges.Lib.Memory

/-!
# Tiles — equal blocks cut from a region, and the list threaded through them

`tiles a sz n` are the addresses of `n` blocks of `sz` bytes side by side
from `a`; `link` writes into each block but the last the address of the
next one. On memory that reads as zero this leaves a null-terminated list
of the tiles, in order, and nothing outside the region changes. A list that
starts at address 0 is threaded through its tiles like any other, though a
program that tests the first pointer takes it for the empty one.
-/

namespace Challenges.Lib

/-- The addresses of `n` blocks of `sz` bytes from `a` on. -/
def tiles (a sz : UInt32) : Nat → List UInt32
  | 0 => []
  | n + 1 => a :: tiles (a + sz) sz n

/-- Write `k` links, from the block at `a` on. -/
def link (m : Mem) (a sz : UInt32) : Nat → Mem
  | 0 => m
  | k + 1 => link (m.store32 a (a + sz)) (a + sz) sz k

/-- The same links in two memories that agree at an address. -/
theorem link_congr {m m' : Mem} {c : UInt32} (h : m' c = m c) (a sz : UInt32) (k : Nat) :
    link m' a sz k c = link m a sz k c := by
  induction k generalizing m m' a with
  | zero => exact h
  | succ k ih => exact ih (Mem.store32_congr h _ _) _

@[simp] theorem tiles_length (a sz : UInt32) (n : Nat) :
    (tiles a sz n).length = n := by
  induction n generalizing a with
  | zero => rfl
  | succ n ih => simp [tiles, ih]

theorem toNat_next {a sz : UInt32} {n : Nat} (hn : 1 ≤ n) (hsz : 1 ≤ sz.toNat)
    (hfit : a.toNat + (n + 1) * sz.toNat ≤ 2 ^ 32) :
    (a + sz).toNat = a.toNat + sz.toNat := by
  have h1 : 2 * sz.toNat ≤ (n + 1) * sz.toNat := Nat.mul_le_mul_right _ (by omega)
  rw [UInt32.toNat_add, Nat.mod_eq_of_lt (by omega)]

/-- Which addresses the tiles of a region that does not wrap have. -/
theorem mem_tiles {sz : UInt32} (hsz : 1 ≤ sz.toNat) {n : Nat} :
    ∀ {a x : UInt32}, a.toNat + n * sz.toNat ≤ 2 ^ 32 →
      (x ∈ tiles a sz n ↔ ∃ j < n, x.toNat = a.toNat + j * sz.toNat) := by
  induction n with
  | zero => simp [tiles]
  | succ n ih =>
      intro a x hfit
      rw [tiles, List.mem_cons]
      rcases Nat.eq_zero_or_pos n with rfl | hpos
      · simp [tiles, UInt32.toNat_inj]
      · have hnext := toNat_next hpos hsz hfit
        rw [ih (by rw [hnext]; rw [Nat.add_mul] at hfit; omega), hnext]
        constructor
        · rintro (rfl | ⟨j, hj, hx⟩)
          · exact ⟨0, by omega, by simp⟩
          · exact ⟨j + 1, by omega, by rw [Nat.add_mul]; omega⟩
        · rintro ⟨j, hj, hx⟩
          cases j with
          | zero => exact .inl (UInt32.toNat_inj.mp (by simpa using hx))
          | succ j => exact .inr ⟨j, by omega, by rw [Nat.add_mul] at hx; omega⟩

/-- Tiles of a region that does not start at null are not null. -/
theorem zero_notMem_tiles {a sz : UInt32} {n : Nat} (hsz : 1 ≤ sz.toNat) (hpos : 0 < a.toNat)
    (hfit : a.toNat + n * sz.toNat ≤ 2 ^ 32) : 0 ∉ tiles a sz n := by
  intro hmem
  obtain ⟨j, _, hj⟩ := (mem_tiles hsz hfit).mp hmem
  simp at hj
  omega

/-- The tile after `j` others starts `j` sizes on. -/
theorem tiles_eq_map (a sz : UInt32) (n : Nat) :
    tiles a sz n = (List.range n).map fun j => a + UInt32.ofNat (j * sz.toNat) := by
  induction n generalizing a with
  | zero => rfl
  | succ n ih =>
      have hnext (j : Nat) : a + sz + UInt32.ofNat (j * sz.toNat)
          = a + UInt32.ofNat ((j + 1) * sz.toNat) := by
        rw [Nat.succ_mul, UInt32.ofNat_add, UInt32.ofNat_toNat, UInt32.add_assoc,
          UInt32.add_comm sz]
      have hfirst : a = a + UInt32.ofNat (0 * sz.toNat) := by simp
      rw [tiles, ih, List.range_succ_eq_map, List.map_cons, List.map_map, ← hfirst]
      exact congrArg (a :: ·) (List.map_congr_left fun j _ => hnext j)

/-- The tiles cover their region. -/
theorem tiles_cover {a sz : UInt32} {n x : Nat} (hsz : 1 ≤ sz.toNat)
    (hfit : a.toNat + n * sz.toNat ≤ 2 ^ 32) (hlo : a.toNat ≤ x)
    (hhi : x < a.toNat + n * sz.toNat) :
    ∃ t ∈ tiles a sz n, t.toNat ≤ x ∧ x < t.toNat + sz.toNat := by
  have hdiv := Nat.div_add_mod' (x - a.toNat) sz.toNat
  have hmod := Nat.mod_lt (x - a.toNat) hsz
  have hj : (x - a.toNat) / sz.toNat < n := Nat.div_lt_of_lt_mul (by rw [Nat.mul_comm]; omega)
  generalize (x - a.toNat) / sz.toNat = j at hdiv hj
  have ht : (UInt32.ofNat (a.toNat + j * sz.toNat)).toNat = a.toNat + j * sz.toNat :=
    UInt32.toNat_ofNat_of_lt' (by change _ < 2 ^ 32; omega)
  exact ⟨_, (mem_tiles hsz hfit).mpr ⟨j, hj, ht⟩, by omega, by omega⟩

/-- Each tile ends before the next one starts. -/
theorem tiles_pairwise {sz : UInt32} (hsz : 1 ≤ sz.toNat) {n : Nat} :
    ∀ {a : UInt32}, a.toNat + n * sz.toNat ≤ 2 ^ 32 →
      (tiles a sz n).Pairwise (fun x y => x.toNat + sz.toNat ≤ y.toNat) := by
  induction n with
  | zero => simp [tiles]
  | succ n ih =>
      intro a hfit
      rw [tiles, List.pairwise_cons]
      rcases Nat.eq_zero_or_pos n with rfl | hpos
      · simp [tiles]
      · have hnext := toNat_next hpos hsz hfit
        have hfit' : (a + sz).toNat + n * sz.toNat ≤ 2 ^ 32 := by
          rw [hnext]; rw [Nat.add_mul] at hfit; omega
        refine ⟨fun y hy => ?_, ih hfit'⟩
        obtain ⟨j, _, hy⟩ := (mem_tiles hsz hfit').mp hy
        omega

/-- **Frame** of the carving: only the region below the last tile. -/
theorem link_same {sz : UInt32} (hsz : 4 ≤ sz.toNat) {k : Nat} :
    ∀ {m : Mem} {a : UInt32}, a.toNat + (k + 1) * sz.toNat ≤ 2 ^ 32 →
      Mem.SameOutside m (link m a sz k) a.toNat (k * sz.toNat) := by
  induction k with
  | zero => intro m a _; exact .refl m _ _
  | succ k ih =>
      intro m a hfit
      have hnext := toNat_next (by omega) (by omega) hfit
      have hexp : (k + 1 + 1) * sz.toNat = sz.toNat + (k + 1) * sz.toNat := by
        rw [Nat.add_mul (k + 1)]; omega
      have hexp' : (k + 1) * sz.toNat = sz.toNat + k * sz.toNat := by
        rw [Nat.add_mul k]; omega
      have hw := Mem.store32_same m (a := a) (a + sz) (by omega)
      have hrest := ih (m := m.store32 a (a + sz)) (a := a + sz) (by omega)
      rw [hnext] at hrest
      exact (hw.widen (Nat.le_refl _) (by omega)).trans
        (hrest.widen (by omega) (by omega))

/-- The links leave the rest of the first tile alone. -/
theorem link_first {sz : UInt32} (hsz : 4 ≤ sz.toNat) {m : Mem} {a : UInt32} {k : Nat}
    (hfit : a.toNat + (k + 1) * sz.toNat ≤ 2 ^ 32) :
    Mem.SameInside m (link m a sz k) (a.toNat + 4) (sz.toNat - 4) := by
  cases k with
  | zero => exact .refl m _ _
  | succ k =>
      have hnext := toNat_next (by omega) (by omega) hfit
      have hexp : (k + 1 + 1) * sz.toNat = sz.toNat + (k + 1) * sz.toNat := by
        rw [Nat.add_mul (k + 1)]
        omega
      have hexp' : (k + 1) * sz.toNat = sz.toNat + k * sz.toNat := by
        rw [Nat.add_mul k]
        omega
      have hw := Mem.store32_same m (a := a) (a + sz) (by omega)
      have hrest := link_same hsz (k := k) (m := m.store32 a (a + sz)) (a := a + sz) (by omega)
      rw [hnext] at hrest
      exact (hw.apart (by omega)).trans (hrest.apart (by omega))

/-- **The carved list**: if the last tile's link reads as null, the links go
through the tiles in order and end. -/
theorem link_threaded {sz : UInt32} (hsz : 4 ≤ sz.toNat) {k : Nat} :
    ∀ {m : Mem} {a : UInt32}, a.toNat + (k + 1) * sz.toNat ≤ 2 ^ 32 →
      (∀ x : UInt32, x.toNat = a.toNat + k * sz.toNat → m.load32 x = 0) →
      Threaded (link m a sz k).load32 0 a (tiles a sz (k + 1)) := by
  induction k with
  | zero =>
      intro m a hfit hlast
      refine .cons ?_
      rw [link, hlast a (by omega)]
      exact .nil
  | succ k ih =>
      intro m a hfit hlast
      have hnext := toNat_next (by omega) (by omega) hfit
      have hexp : (k + 1 + 1) * sz.toNat = sz.toNat + (k + 1) * sz.toNat := by
        rw [Nat.add_mul (k + 1)]; omega
      have hexp' : (k + 1) * sz.toNat = sz.toNat + k * sz.toNat := by
        rw [Nat.add_mul k]; omega
      have hw := Mem.store32_same m (a := a) (a + sz) (by omega)
      -- the link written at `a` survives the later writes, which lie above it
      have hhead : (link m a sz (k + 1)).load32 a = a + sz := by
        have hrest := link_same hsz (k := k) (m := m.store32 a (a + sz))
          (a := a + sz) (by omega)
        rw [link, hrest.load32 (by omega) (.inl (by omega)),
          Mem.store32_load32 m _ (by omega)]
      refine .cons ?_
      rw [hhead]
      refine ih (by omega) fun x hx => ?_
      rw [hw.load32 (by omega) (.inr (by omega))]
      exact hlast x (by omega)

end Challenges.Lib

import Mathlib.Logic.Function.Basic
import Mathlib.Algebra.Order.Ring.Nat

/-!
# Memory — a 32-bit little-endian address space

Bytes at 32-bit addresses, with the word loads and stores and the block
operations of the C library. Every operation has one frame lemma, in the
form `SameOutside m m' lo len`: no byte outside `[lo, lo + len)` changed.
Intervals are over `Nat`, so that disjointness is left to `omega`; the
lemmas ask for the interval to fit in the address space.
-/

namespace Challenges.Lib

/-- The contents of a 32-bit address space. -/
abbrev Mem := UInt32 → UInt8

namespace Mem

/-- Byte `k` of a word, least significant first. -/
def byteOf (v : UInt32) (k : Nat) : UInt8 := UInt8.ofNat (v.toNat / 256 ^ k)

def load32 (m : Mem) (a : UInt32) : UInt32 :=
  UInt32.ofNat ((m a).toNat + 256 * (m (a + 1)).toNat
    + 65536 * (m (a + 2)).toNat + 16777216 * (m (a + 3)).toNat)

def store8 (m : Mem) (a : UInt32) (v : UInt8) : Mem := Function.update m a v

def store32 (m : Mem) (a v : UInt32) : Mem :=
  (((m.store8 a (byteOf v 0)).store8 (a + 1) (byteOf v 1)).store8
    (a + 2) (byteOf v 2)).store8 (a + 3) (byteOf v 3)

/-- `memset`: the bytes at offsets below `len` from `base`. -/
def fill (m : Mem) (base : UInt32) (v : UInt8) (len : UInt32) : Mem :=
  fun a => if a - base < len then v else m a

/-- `memcpy` between ranges that do not overlap. -/
def copy (m : Mem) (dst src len : UInt32) : Mem :=
  fun a => if a - dst < len then m (src + (a - dst)) else m a

/-! ## Address arithmetic -/

theorem toNat_add_ofNat {a : UInt32} {k : Nat} (h : a.toNat + k < 2 ^ 32) :
    (a + UInt32.ofNat k).toNat = a.toNat + k := by
  rw [UInt32.toNat_add, UInt32.toNat_ofNat']
  omega

/-- The bytes of a word after its first. -/
theorem toNat_bytes {a : UInt32} (hfit : a.toNat + 4 ≤ 2 ^ 32) :
    (a + 1).toNat = a.toNat + 1 ∧ (a + 2).toNat = a.toNat + 2 ∧
      (a + 3).toNat = a.toNat + 3 :=
  ⟨toNat_add_ofNat (k := 1) (by omega), toNat_add_ofNat (k := 2) (by omega),
    toNat_add_ofNat (k := 3) (by omega)⟩

/-- Membership in a range that does not wrap around. -/
theorem sub_lt_iff {a base : UInt32} {len : Nat} (h : base.toNat + len ≤ 2 ^ 32) :
    (a - base).toNat < len ↔ base.toNat ≤ a.toNat ∧ a.toNat < base.toNat + len := by
  have ha := a.toNat_lt
  have hb := base.toNat_lt
  rw [UInt32.toNat_sub]
  omega

/-! ## Frames -/

/-- No byte outside `[lo, lo + len)` differs. -/
def SameOutside (m m' : Mem) (lo len : Nat) : Prop :=
  ∀ a : UInt32, a.toNat < lo ∨ lo + len ≤ a.toNat → m' a = m a

namespace SameOutside

variable {m m' m'' : Mem} {lo len : Nat}

theorem refl (m : Mem) (lo len : Nat) : SameOutside m m lo len := fun _ _ => rfl

theorem trans (h : SameOutside m m' lo len) (h' : SameOutside m' m'' lo len) :
    SameOutside m m'' lo len := fun a ha => (h' a ha).trans (h a ha)

theorem widen {lo' len' : Nat} (h : SameOutside m m' lo len) (hlo : lo' ≤ lo)
    (hhi : lo + len ≤ lo' + len') : SameOutside m m' lo' len' := by
  intro a ha
  exact h a (by omega)

/-- A word that ends before the range, or starts after it, keeps its value. -/
theorem load32 (h : SameOutside m m' lo len) {a : UInt32}
    (hfit : a.toNat + 4 ≤ 2 ^ 32) (hout : a.toNat + 4 ≤ lo ∨ lo + len ≤ a.toNat) :
    m'.load32 a = m.load32 a := by
  obtain ⟨h1, h2, h3⟩ := toNat_bytes (a := a) (by omega)
  simp only [Mem.load32]
  rw [h a (by omega), h (a + 1) (by omega), h (a + 2) (by omega),
    h (a + 3) (by omega)]

end SameOutside

/-- No byte inside `[lo, lo + len)` differs. -/
def SameInside (m m' : Mem) (lo len : Nat) : Prop :=
  ∀ a : UInt32, lo ≤ a.toNat → a.toNat < lo + len → m' a = m a

/-- What changes inside one range leaves another range as it was. -/
theorem SameOutside.apart {m m' : Mem} {lo len lo' len' : Nat}
    (h : SameOutside m m' lo len) (hapart : lo' + len' ≤ lo ∨ lo + len ≤ lo') :
    SameInside m m' lo' len' := by
  intro a hlo hhi
  exact h a (by omega)

namespace SameInside

variable {m m' m'' : Mem} {lo len lo' len' : Nat}

theorem refl (m : Mem) (lo len : Nat) : SameInside m m lo len := fun _ _ _ => rfl

theorem trans (h : SameInside m m' lo len) (h' : SameInside m' m'' lo len) :
    SameInside m m'' lo len := fun a hlo hhi => (h' a hlo hhi).trans (h a hlo hhi)

/-- The byte at an offset in the range. -/
theorem byte (h : SameInside m m' lo len) {a : UInt32} (hlo : a.toNat = lo) {i : Nat}
    (hi : i < len) (hfit : lo + len ≤ 2 ^ 32) :
    m' (a + UInt32.ofNat i) = m (a + UInt32.ofNat i) := by
  have ha : (a + UInt32.ofNat i).toNat = a.toNat + i := toNat_add_ofNat (by omega)
  exact h _ (by omega) (by omega)

end SameInside

theorem store8_same (m : Mem) (a : UInt32) (v : UInt8) :
    SameOutside m (m.store8 a v) a.toNat 1 := by
  intro b hb
  have hne : b ≠ a := by rintro rfl; omega
  exact Function.update_of_ne hne v m

/-- The same store in two memories that agree at an address. -/
theorem store8_congr {m m' : Mem} {b : UInt32} (h : m' b = m b) (a : UInt32) (v : UInt8) :
    m'.store8 a v b = m.store8 a v b := by
  rw [store8, store8, Function.update_apply, Function.update_apply, h]

theorem store32_congr {m m' : Mem} {b : UInt32} (h : m' b = m b) (a v : UInt32) :
    m'.store32 a v b = m.store32 a v b :=
  store8_congr (store8_congr (store8_congr (store8_congr h _ _) _ _) _ _) _ _

theorem fill_congr {m m' : Mem} {b : UInt32} (h : m' b = m b) (base : UInt32) (v : UInt8)
    (len : UInt32) : m'.fill base v len b = m.fill base v len b := by
  rw [fill, fill, h]

theorem store32_same (m : Mem) {a : UInt32} (v : UInt32)
    (hfit : a.toNat + 4 ≤ 2 ^ 32) : SameOutside m (m.store32 a v) a.toNat 4 := by
  obtain ⟨h1, h2, h3⟩ := toNat_bytes (a := a) (by omega)
  intro b hb
  have e0 : b ≠ a := by rintro rfl; omega
  have e1 : b ≠ a + 1 := by rintro rfl; omega
  have e2 : b ≠ a + 2 := by rintro rfl; omega
  have e3 : b ≠ a + 3 := by rintro rfl; omega
  simp [store32, store8, Function.update_of_ne, e0, e1, e2, e3]

theorem fill_same (m : Mem) {base : UInt32} (v : UInt8) {len : UInt32}
    (hfit : base.toNat + len.toNat ≤ 2 ^ 32) :
    SameOutside m (m.fill base v len) base.toNat len.toNat := by
  intro a ha
  have hout : ¬ a - base < len := by
    rw [UInt32.lt_iff_toNat_lt, sub_lt_iff hfit]
    omega
  simp [fill, hout]

theorem copy_same (m : Mem) {dst : UInt32} (src : UInt32) {len : UInt32}
    (hfit : dst.toNat + len.toNat ≤ 2 ^ 32) :
    SameOutside m (m.copy dst src len) dst.toNat len.toNat := by
  intro a ha
  have hout : ¬ a - dst < len := by
    rw [UInt32.lt_iff_toNat_lt, sub_lt_iff hfit]
    omega
  simp [copy, hout]

/-! ## Reading back -/

theorem fill_inside {m : Mem} {base a : UInt32} {v : UInt8} {len : UInt32}
    (hfit : base.toNat + len.toNat ≤ 2 ^ 32) (hlo : base.toNat ≤ a.toNat)
    (hhi : a.toNat < base.toNat + len.toNat) : m.fill base v len a = v := by
  have hin : a - base < len := by
    rw [UInt32.lt_iff_toNat_lt, sub_lt_iff hfit]
    exact ⟨hlo, hhi⟩
  simp [fill, hin]

/-- A copied byte. -/
theorem copy_inside {m : Mem} {dst src len : UInt32} {i : Nat} (hi : i < len.toNat) :
    m.copy dst src len (dst + UInt32.ofNat i) = m (src + UInt32.ofNat i) := by
  have hoff : dst + UInt32.ofNat i - dst = UInt32.ofNat i := by
    rw [UInt32.add_comm, UInt32.add_sub_cancel]
  have hin : UInt32.ofNat i < len := by
    have := len.toNat_lt
    rw [UInt32.lt_iff_toNat_lt, UInt32.toNat_ofNat_of_lt' (Nat.lt_trans hi this)]
    exact hi
  rw [copy, hoff, if_pos hin]

/-- A byte after those that are copied. -/
theorem copy_beyond {m : Mem} {dst src len : UInt32} {i : Nat} (hi : len.toNat ≤ i)
    (hlt : i < 2 ^ 32) : m.copy dst src len (dst + UInt32.ofNat i) = m (dst + UInt32.ofNat i) := by
  have hoff : dst + UInt32.ofNat i - dst = UInt32.ofNat i := by
    rw [UInt32.add_comm, UInt32.add_sub_cancel]
  have hout : ¬ UInt32.ofNat i < len := by
    rw [UInt32.lt_iff_toNat_lt, UInt32.toNat_ofNat_of_lt' hlt]
    omega
  rw [copy, hoff, if_neg hout]

theorem fill_zero (m : Mem) (base : UInt32) (v : UInt8) : m.fill base v 0 = m := by
  funext a
  rw [fill, if_neg UInt32.not_lt_zero]

/-- A word of zero bytes is zero. -/
theorem load32_zero {m : Mem} {a : UInt32} (h0 : m a = 0) (h1 : m (a + 1) = 0)
    (h2 : m (a + 2) = 0) (h3 : m (a + 3) = 0) : m.load32 a = 0 := by
  simp [load32, h0, h1, h2, h3]

/-- A word of a range that was filled with zeros. -/
theorem fill_load32 (m : Mem) {base a len : UInt32} (hfit : base.toNat + len.toNat ≤ 2 ^ 32)
    (hlo : base.toNat ≤ a.toNat) (hhi : a.toNat + 4 ≤ base.toNat + len.toNat) :
    (m.fill base 0 len).load32 a = 0 := by
  obtain ⟨h1, h2, h3⟩ := toNat_bytes (a := a) (by omega)
  apply load32_zero <;>
    exact fill_inside hfit (by omega) (by omega)

theorem store32_load32 (m : Mem) {a : UInt32} (v : UInt32)
    (hfit : a.toNat + 4 ≤ 2 ^ 32) : (m.store32 a v).load32 a = v := by
  obtain ⟨h1, h2, h3⟩ := toNat_bytes (a := a) (by omega)
  have ne (x y : UInt32) (h : x.toNat ≠ y.toNat) : x ≠ y := by rintro rfl; exact h rfl
  have b0 : (m.store32 a v) a = byteOf v 0 := by
    simp [store32, store8, Function.update_of_ne, ne a (a + 1) (by omega),
      ne a (a + 2) (by omega), ne a (a + 3) (by omega)]
  have b1 : (m.store32 a v) (a + 1) = byteOf v 1 := by
    simp [store32, store8, Function.update_of_ne, ne (a + 1) (a + 2) (by omega),
      ne (a + 1) (a + 3) (by omega)]
  have b2 : (m.store32 a v) (a + 2) = byteOf v 2 := by
    simp [store32, store8, Function.update_of_ne, ne (a + 2) (a + 3) (by omega)]
  have b3 : (m.store32 a v) (a + 3) = byteOf v 3 := by
    simp [store32, store8]
  have hv := v.toNat_lt
  apply UInt32.toNat_inj.mp
  simp only [load32, b0, b1, b2, b3, byteOf, UInt8.toNat_ofNat', UInt32.toNat_ofNat']
  omega

/-- The first byte of a word is its value modulo 256. -/
theorem load32_low (m : Mem) (a : UInt32) :
    (m.load32 a).toNat % 256 = (m a).toNat := by
  have := (m a).toNat_lt
  simp only [load32, UInt32.toNat_ofNat']
  omega

end Mem

end Challenges.Lib

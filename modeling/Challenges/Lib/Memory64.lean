import Mathlib.Logic.Function.Basic
import Mathlib.Algebra.Order.Ring.Nat

/-!
# Memory64 — a 64-bit little-endian address space

Bytes at 64-bit addresses, words of eight bytes, and ranges that are
overwritten as a whole. As in `Memory`, an operation has one frame lemma,
with intervals over `Nat`.
-/

namespace Challenges.Lib

/-- The contents of a 64-bit address space. -/
abbrev Mem64 := UInt64 → UInt8

/-- The number whose base-256 digits are `f 0`, `f 1`, up to the `n`-th. -/
def littleEndian (f : Nat → UInt8) : Nat → Nat
  | 0 => 0
  | n + 1 => (f 0).toNat + 256 * littleEndian (fun k => f (k + 1)) n

/-- The digits of a number give it back. -/
theorem littleEndian_digits (v n : Nat) :
    littleEndian (fun k => UInt8.ofNat (v / 256 ^ k)) n = v % 256 ^ n := by
  induction n generalizing v with
  | zero => simp [littleEndian, Nat.mod_one]
  | succ n ih =>
      have hrest : (fun k => UInt8.ofNat (v / 256 ^ (k + 1)))
          = fun k => UInt8.ofNat (v / 256 / 256 ^ k) := by
        funext k
        rw [Nat.div_div_eq_div_mul, Nat.pow_succ']
      have hsplit : v % 256 ^ (n + 1) = v % 256 + 256 * (v / 256 % 256 ^ n) := by
        rw [Nat.pow_succ', Nat.mod_mul]
      rw [littleEndian, hrest, ih, hsplit, Nat.pow_zero, Nat.div_one]
      rfl

theorem littleEndian_congr {f g : Nat → UInt8} {n : Nat} (h : ∀ k < n, f k = g k) :
    littleEndian f n = littleEndian g n := by
  induction n generalizing f g with
  | zero => rfl
  | succ n ih =>
      rw [littleEndian, littleEndian, h 0 (Nat.succ_pos n),
        ih fun k hk => h (k + 1) (Nat.succ_lt_succ hk)]

namespace Mem64

/-- Byte `k` of a word, least significant first. -/
def byteOf (v : UInt64) (k : Nat) : UInt8 := UInt8.ofNat (v.toNat / 256 ^ k)

def load64 (m : Mem64) (a : UInt64) : UInt64 :=
  UInt64.ofNat (littleEndian (fun k => m (a + UInt64.ofNat k)) 8)

def store8 (m : Mem64) (a : UInt64) (v : UInt8) : Mem64 := Function.update m a v

/-- The bytes at offsets below `len` from `base` are replaced. -/
def overlay (m : Mem64) (base len : UInt64) (bytes : UInt64 → UInt8) : Mem64 :=
  fun a => if a - base < len then bytes (a - base) else m a

def store64 (m : Mem64) (a v : UInt64) : Mem64 := m.overlay a 8 fun k => byteOf v k.toNat

/-- `memset` to zero. -/
def clear (m : Mem64) (base len : UInt64) : Mem64 := m.overlay base len fun _ => 0

/-! ## Address arithmetic -/

theorem toNat_add_ofNat {a : UInt64} {k : Nat} (h : a.toNat + k < 2 ^ 64) :
    (a + UInt64.ofNat k).toNat = a.toNat + k := by
  rw [UInt64.toNat_add, UInt64.toNat_ofNat']
  omega

/-- Membership in a range that does not wrap around. -/
theorem sub_lt_iff {a base : UInt64} {len : Nat} (h : base.toNat + len ≤ 2 ^ 64) :
    (a - base).toNat < len ↔ base.toNat ≤ a.toNat ∧ a.toNat < base.toNat + len := by
  have ha := a.toNat_lt
  have hb := base.toNat_lt
  rw [UInt64.toNat_sub]
  omega

/-! ## Frames -/

/-- No byte outside `[lo, lo + len)` differs. -/
def SameOutside (m m' : Mem64) (lo len : Nat) : Prop :=
  ∀ a : UInt64, a.toNat < lo ∨ lo + len ≤ a.toNat → m' a = m a

theorem overlay_same (m : Mem64) {base len : UInt64} (bytes : UInt64 → UInt8)
    (hfit : base.toNat + len.toNat ≤ 2 ^ 64) :
    SameOutside m (m.overlay base len bytes) base.toNat len.toNat := by
  intro a ha
  have hout : ¬ a - base < len := by
    rw [UInt64.lt_iff_toNat_lt, sub_lt_iff hfit]
    omega
  simp [overlay, hout]

/-- The bytes of `[lo, lo + len)` are zero. -/
def ZeroOn (m : Mem64) (lo len : Nat) : Prop :=
  ∀ a : UInt64, lo ≤ a.toNat → a.toNat < lo + len → m a = 0

theorem ZeroOn.empty (m : Mem64) (lo : Nat) : ZeroOn m lo 0 := fun _ hle hlt => by omega

theorem ZeroOn.mono {m : Mem64} {lo len lo' len' : Nat} (h : ZeroOn m lo len) (hlo : lo ≤ lo')
    (hend : lo' + len' ≤ lo + len) : ZeroOn m lo' len' :=
  fun a hle hlt => h a (by omega) (by omega)

/-- What is changed elsewhere leaves them zero. -/
theorem ZeroOn.frame {m m' : Mem64} {lo len lo' len' : Nat} (h : ZeroOn m lo len)
    (hsame : SameOutside m m' lo' len')
    (hout : ∀ x, lo ≤ x → x < lo + len → x < lo' ∨ lo' + len' ≤ x) : ZeroOn m' lo len := by
  intro a hle hlt
  rw [hsame a (hout a.toNat hle hlt)]
  exact h a hle hlt

theorem ZeroOn.overlay (m : Mem64) {base len : UInt64} {bytes : UInt64 → UInt8}
    (hbytes : ∀ k, bytes k = 0) (hfit : base.toNat + len.toNat ≤ 2 ^ 64) :
    ZeroOn (m.overlay base len bytes) base.toNat len.toNat := by
  intro a hle hlt
  have hin : a - base < len := by
    rw [UInt64.lt_iff_toNat_lt, sub_lt_iff hfit]
    exact ⟨hle, hlt⟩
  rw [Mem64.overlay, if_pos hin, hbytes]

theorem store64_same (m : Mem64) {a : UInt64} (v : UInt64) (hfit : a.toNat + 8 ≤ 2 ^ 64) :
    SameOutside m (m.store64 a v) a.toNat 8 := overlay_same m _ hfit

theorem store8_same (m : Mem64) (a : UInt64) (v : UInt8) :
    SameOutside m (m.store8 a v) a.toNat 1 := by
  intro b hb
  have hne : b ≠ a := by
    rintro rfl
    omega
  exact Function.update_of_ne hne v m

/-- A word that ends before the range, or starts after it, keeps its value. -/
theorem SameOutside.load64 {m m' : Mem64} {lo len : Nat} (h : SameOutside m m' lo len)
    {a : UInt64} (hfit : a.toNat + 8 ≤ 2 ^ 64) (hout : a.toNat + 8 ≤ lo ∨ lo + len ≤ a.toNat) :
    m'.load64 a = m.load64 a := by
  refine congrArg UInt64.ofNat (littleEndian_congr fun k hk => ?_)
  have hk : (a + UInt64.ofNat k).toNat = a.toNat + k := toNat_add_ofNat (by omega)
  exact h _ (by omega)

theorem store64_load64 (m : Mem64) (a v : UInt64) : (m.store64 a v).load64 a = v := by
  have hbytes : ∀ k < 8, m.store64 a v (a + UInt64.ofNat k) = UInt8.ofNat (v.toNat / 256 ^ k) := by
    intro k hk
    have hoff : a + UInt64.ofNat k - a = UInt64.ofNat k := by
      rw [UInt64.add_comm, UInt64.add_sub_cancel]
    have hval : (UInt64.ofNat k).toNat = k := UInt64.toNat_ofNat_of_lt' (Nat.lt_trans hk (by decide))
    have hin : UInt64.ofNat k < 8 := by
      rw [UInt64.lt_iff_toNat_lt, hval]
      exact hk
    rw [store64, overlay, hoff, if_pos hin, hval, byteOf]
  apply UInt64.toNat_inj.mp
  rw [load64, littleEndian_congr hbytes, littleEndian_digits, UInt64.toNat_ofNat']
  exact Nat.mod_eq_of_lt (Nat.lt_of_le_of_lt (Nat.mod_le _ _) v.toNat_lt) |>.trans
    (Nat.mod_eq_of_lt v.toNat_lt)

/-- A word is determined by its bytes. -/
theorem load64_of_bytes {m : Mem64} {a v : UInt64}
    (h : ∀ k < 8, m (a + UInt64.ofNat k) = byteOf v k) : m.load64 a = v := by
  have hbytes : ∀ k < 8, m (a + UInt64.ofNat k) = UInt8.ofNat (v.toNat / 256 ^ k) := h
  apply UInt64.toNat_inj.mp
  rw [load64, littleEndian_congr hbytes, littleEndian_digits, UInt64.toNat_ofNat']
  exact Nat.mod_eq_of_lt (Nat.lt_of_le_of_lt (Nat.mod_le _ _) v.toNat_lt) |>.trans
    (Nat.mod_eq_of_lt v.toNat_lt)

end Mem64

end Challenges.Lib

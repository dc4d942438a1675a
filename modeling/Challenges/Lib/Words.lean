import Mathlib.Algebra.Order.Ring.Nat
import Mathlib.Data.BitVec

/-!
# Words — words of any width in a memory of bytes

A word of `w` bits at an address is the bytes from there on, least significant
first. Words overlap as they please: bit `i` of the word at `a` is bit `i % 8`
of the byte at `a + i / 8`.
-/

namespace Challenges.Lib

/-- A byte at each address of `n` bits. -/
abbrev Bytes (n : Nat) := BitVec n → BitVec 8

namespace Bytes

variable {n w : Nat}

def load (w : Nat) (m : Bytes n) (a : BitVec n) : BitVec w :=
  (BitVec.iunfoldr (fun i s => (s, (m (a + BitVec.ofNat n (i / 8))).getLsbD (i % 8))) ()).2

def store (m : Bytes n) (a : BitVec n) (v : BitVec w) : Bytes n := fun x =>
  if (x - a).toNat < w / 8 then v.extractLsb' (8 * (x - a).toNat) 8 else m x

theorem getLsbD_load {m : Bytes n} {a : BitVec n} {i : Nat} (hi : i < w) :
    (load w m a).getLsbD i = (m (a + BitVec.ofNat n (i / 8))).getLsbD (i % 8) :=
  BitVec.iunfoldr_getLsbD (fun _ => ()) ⟨i, hi⟩ fun _ => rfl

/-- Bit `j` of the byte at `x`, as a bit of the word at `a`. -/
theorem getLsbD_load_of_mem (hw : 8 ∣ w) {m : Bytes n} {a x : BitVec n} {j : Nat} (hj : j < 8)
    (hx : (x - a).toNat < w / 8) :
    (load w m a).getLsbD (8 * (x - a).toNat + j) = (m x).getLsbD j := by
  have hbyte : (8 * (x - a).toNat + j) / 8 = (x - a).toNat := by omega
  have hbit : (8 * (x - a).toNat + j) % 8 = j := by omega
  have hback : a + BitVec.ofNat n (x - a).toNat = x := by
    rw [BitVec.ofNat_toNat, BitVec.setWidth_eq, BitVec.add_comm, BitVec.sub_add_cancel]
  rw [getLsbD_load (by omega), hbyte, hbit, hback]

/-- ... and after a store. -/
theorem getLsbD_store (m : Bytes n) {a x : BitVec n} {j : Nat} (hj : j < 8) (v : BitVec w) :
    (m.store a v x).getLsbD j
      = if (x - a).toNat < w / 8 then v.getLsbD (8 * (x - a).toNat + j) else (m x).getLsbD j := by
  rw [store]
  split
  · simp [hj]
  · rfl

/-- A word that is written back changes nothing. -/
theorem store_load (hw : 8 ∣ w) (m : Bytes n) (a : BitVec n) : m.store a (load w m a) = m := by
  funext x
  apply BitVec.eq_of_getLsbD_eq
  intro j hj
  rw [getLsbD_store m hj]
  split
  · rw [getLsbD_load_of_mem hw hj (by assumption)]
  · rfl

end Bytes

end Challenges.Lib

import Mathlib.Algebra.Group.Int.Defs
import Mathlib.Data.Nat.Bitwise

/-! Machine words: the value of a C `int`, and fields of a word that are taken out with a mask and a
shift and put together with a disjunction. -/

namespace Ucas.Lib

def int (n : Int) : Int := n.bmod (2 ^ 32)

theorem int_of_lt {n : Int} (hle : -2 ^ 31 ≤ n) (hlt : n < 2 ^ 31) : int n = n :=
  Int.bmod_eq_of_le_mul_two (by omega) (by omega)

end Ucas.Lib

namespace Ucas.Lib.Word
variable {w k : Nat} {m n x y : BitVec w}

theorem toNat_shiftRight (x : BitVec w) (k : Nat) : (x >>> k).toNat = x.toNat / 2 ^ k := by
  rw [BitVec.toNat_ushiftRight, Nat.shiftRight_eq_div_pow]

theorem shiftRight_eq_zero (h : x.toNat < 2 ^ k) : x >>> k = 0#w := by
  apply BitVec.eq_of_toNat_eq
  rw [toNat_shiftRight, Nat.div_eq_of_lt h, BitVec.toNat_ofNat, Nat.zero_mod]

theorem and_shiftRight (hm : m >>> k = BitVec.allOnes w >>> k) : (x &&& m) >>> k = x >>> k := by
  rw [BitVec.ushiftRight_and_distrib, hm, ← BitVec.ushiftRight_and_distrib, BitVec.and_allOnes]

theorem and_or_shiftRight (hm : m >>> k = BitVec.allOnes w >>> k) (hy : y.toNat < 2 ^ k) :
    ((x &&& m) ||| y) >>> k = x >>> k := by
  rw [BitVec.ushiftRight_or_distrib, and_shiftRight hm, shiftRight_eq_zero hy, BitVec.or_zero]

theorem shiftLeft_or_shiftRight (hk : k ≤ w) (hx : x.toNat < 2 ^ (w - k)) (hy : y.toNat < 2 ^ k) :
    ((x <<< k) ||| y) >>> k = x := by
  have hlt : x.toNat <<< k < 2 ^ w := by
    calc x.toNat <<< k = x.toNat * 2 ^ k := Nat.shiftLeft_eq _ _
      _ < 2 ^ (w - k) * 2 ^ k := Nat.mul_lt_mul_of_pos_right hx (Nat.two_pow_pos k)
      _ = 2 ^ w := by rw [← Nat.pow_add, Nat.sub_add_cancel hk]
  rw [BitVec.ushiftRight_or_distrib, shiftRight_eq_zero hy, BitVec.or_zero]
  apply BitVec.eq_of_toNat_eq
  rw [BitVec.toNat_ushiftRight, BitVec.toNat_shiftLeft, Nat.mod_eq_of_lt hlt,
    Nat.shiftLeft_shiftRight]

theorem or_and_of_and_eq (h : y &&& m = m) : (x ||| y) &&& m = m := by
  rw [BitVec.and_comm, BitVec.and_or_distrib_left, BitVec.and_comm m y, h]
  ext i hi
  simp +contextual

theorem and_or_and (h : m &&& n = 0#w) : ((x &&& m) ||| y) &&& n = y &&& n := by
  rw [BitVec.and_comm, BitVec.and_or_distrib_left, BitVec.and_comm n, BitVec.and_assoc, h,
    BitVec.and_zero,
    BitVec.zero_or, BitVec.and_comm]

theorem and_and_of_and_eq (h : m &&& n = n) : (x &&& m) &&& n = x &&& n := by
  rw [BitVec.and_assoc, h]

theorem ne_zero_of_and_eq (h : x &&& m = m) (hm : m ≠ 0#w) : x ≠ 0#w := by
  rintro rfl
  exact hm (by rw [← h, BitVec.zero_and])

end Ucas.Lib.Word

import UcasOs.Lib.Bitmap

/-! `libs/bitmap.c`. -/

namespace Ucas.Libs
open Ucas.Lib
variable {n : Nat}

/-- `0x1 << offset`, as a byte. -/
def bitAt (index : Nat) : UInt8 := 1 <<< UInt8.ofNat (index % 8)

def checkBitmap (bitmap : Buffer n) (index : Nat) : Nat :=
  if bitAt index &&& bitmap.get (index / 8) ≠ 0 then 1 else 0

def setBitmap (bitmap : Buffer n) (index : Nat) : Buffer n :=
  bitmap.set (index / 8) (bitmap.get (index / 8) ||| bitAt index)

def unsetBitmap (bitmap : Buffer n) (index : Nat) : Buffer n :=
  bitmap.set (index / 8) (bitmap.get (index / 8) &&& ~~~bitAt index)

theorem bitAt_eq (index : Nat) : bitAt index = UInt8.ofNat (2 ^ (index % 8)) := by
  rw [bitAt]
  obtain h | h | h | h | h | h | h | h : index % 8 = 0 ∨ index % 8 = 1 ∨ index % 8 = 2 ∨
    index % 8 = 3 ∨ index % 8 = 4 ∨
    index % 8 = 5 ∨ index % 8 = 6 ∨ index % 8 = 7 := by omega
  all_goals
    rw [h]
    rfl

theorem setBitmap_eq (bitmap : Buffer n) (index : Nat) :
    setBitmap bitmap index = bitmap.setBit index := by
  rw [setBitmap, Buffer.setBit, bitAt_eq]

theorem unsetBitmap_eq (bitmap : Buffer n) (index : Nat) :
    unsetBitmap bitmap index = bitmap.clearBit index := by
  rw [unsetBitmap, Buffer.clearBit, bitAt_eq]

theorem checkBitmap_eq (bitmap : Buffer n) (index : Nat) :
    checkBitmap bitmap index = (bitmap.bit index).toNat := by
  have hand : (bitAt index &&& bitmap.get (index / 8)).toNat = (bitmap.bit index).toNat * 2 ^
      (index % 8) := by
    rw [bitAt_eq, UInt8.toNat_and, Buffer.toNat_ofNat_two_pow (Nat.mod_lt _ (by omega)),
      Nat.and_comm, Nat.and_two_pow]
    rfl
  rw [checkBitmap]
  cases hbit : bitmap.bit index with
  | false =>
    rw [hbit] at hand
    rw [if_neg]
    · rfl
    · exact not_not.mpr (UInt8.toNat_inj.mp (by rw [hand]; simp))
  | true =>
    rw [hbit] at hand
    rw [if_pos]
    · rfl
    · intro hzero
      rw [hzero] at hand
      exact absurd hand.symm (by simp)

theorem checkBitmap_eq_one {bitmap : Buffer n} {index : Nat} :
    checkBitmap bitmap index = 1 ↔ bitmap.bit index = true := by
  rw [checkBitmap_eq, Bool.toNat_eq_one]

theorem checkBitmap_eq_zero {bitmap : Buffer n} {index : Nat} :
    checkBitmap bitmap index = 0 ↔ bitmap.bit index = false := by
  rw [checkBitmap_eq, Bool.toNat_eq_zero]

section Change
variable (bitmap : Buffer n) {k : Nat} (hk : k < 8 * n) (j : Nat)
include hk

theorem checkBitmap_setBitmap :
    checkBitmap (setBitmap bitmap k) j = if j = k then 1 else checkBitmap bitmap j := by
  rw [checkBitmap_eq, setBitmap_eq, Buffer.bit_setBit _ _ hk, checkBitmap_eq]
  split_ifs with hj <;> simp [hj]

theorem checkBitmap_unsetBitmap :
    checkBitmap (unsetBitmap bitmap k) j = if j = k then 0 else checkBitmap bitmap j := by
  rw [checkBitmap_eq, unsetBitmap_eq, Buffer.bit_clearBit _ _ hk, checkBitmap_eq]
  split_ifs with hj <;> simp [hj]

end Change

end Ucas.Libs

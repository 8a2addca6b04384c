import UcasOs.Lib.Buffer

/-! A byte-addressed storage device with 32-bit addresses. Reading and writing touch exactly the
addressed range, and addresses wrap around modulo `2 ^ 32`. -/

namespace Ucas.Lib

def Device := UInt32 → UInt8

namespace Device
variable {n m : Nat}

def read (d : Device) (base : UInt32) (n : Nat) : Buffer n :=
  .ofFn fun i => d (base + UInt32.ofNat i)

def write (d : Device) (base : UInt32) (b : Buffer n) : Device :=
  fun a => if (a - base).toNat < n then b.get (a - base).toNat else d a

theorem toNat_add_ofNat_sub (base' base : UInt32) {i : Nat}
    (h : (base' - base).toNat + i < 2 ^ 32) :
    (base' + UInt32.ofNat i - base).toNat = (base' - base).toNat + i := by
  have h1 := base.toNat_lt
  have h2 := base'.toNat_lt
  simp only [UInt32.toNat_sub, UInt32.toNat_add, UInt32.toNat_ofNat'] at h ⊢
  omega

theorem get_read_write (d : Device) {base base' : UInt32} (b : Buffer n) {i : Nat} (hi : i < m)
    (h : (base' - base).toNat + m ≤ 2 ^ 32) : ((d.write base b).read base' m).get i =
      if (base' - base).toNat + i < n then b.get ((base' - base).toNat + i) else
      (d.read base' m).get i := by
  have hoff := toNat_add_ofNat_sub base' base (i := i) (by omega)
  simp only [read, Buffer.get_ofFn, if_pos hi, write, hoff]

theorem read_write (d : Device) (base : UInt32) (b : Buffer n) (h : n ≤ 2 ^ 32) :
    (d.write base b).read base n = b := by
  ext i hi
  rw [get_read_write d b hi (by simpa using h)]
  simp [hi]

theorem read_write_of_disjoint (d : Device) {base base' : UInt32} (b : Buffer n)
    (hlow : n ≤ (base' - base).toNat) (hhigh : (base' - base).toNat + m ≤ 2 ^ 32) :
    (d.write base b).read base' m = d.read base' m := by
  ext i hi
  rw [get_read_write d b hi hhigh, if_neg (by omega)]

end Device

end Ucas.Lib

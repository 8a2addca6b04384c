import UcasOs.Lib.Device

/-! Filling a range of a device byte by byte: pieces put one behind the other, and copies between
ranges that may overlap. -/

namespace Ucas.Lib.Device

variable {d e : Device} {a base base' : UInt32} {n m k : Nat} {f g : Nat → UInt8}

/-- The device with `f i` at the address `base + i`, for `i < n`. -/
def fill (d : Device) (base : UInt32) (n : Nat) (f : Nat → UInt8) : Device :=
  fun a => if (a - base).toNat < n then f (a - base).toNat else d a

def bytes (d : Device) (base : UInt32) (i : Nat) : UInt8 := d (base + UInt32.ofNat i)

def store (d : Device) (a : UInt32) (v : UInt8) : Device := fun x => if x = a then v else d x

theorem eq_add_ofNat_iff (hk : k < 2 ^ 32) : a = base + UInt32.ofNat k ↔ (a - base).toNat = k := by
  rw [← UInt32.toNat_inj]
  have ha := a.toNat_lt
  have hbase := base.toNat_lt
  simp only [UInt32.toNat_sub, UInt32.toNat_add, UInt32.toNat_ofNat']
  omega

theorem add_ofNat_sub_self (hk : k < 2 ^ 32) : (base + UInt32.ofNat k - base).toNat = k :=
  (eq_add_ofNat_iff hk).mp rfl

theorem write_eq_fill (d : Device) (base : UInt32) (b : Buffer n) :
    d.write base b = d.fill base n b.get :=
  rfl

theorem fill_apply : d.fill base n f a = if (a - base).toNat < n then f (a - base).toNat else d a :=
  rfl

@[simp] theorem fill_zero : d.fill base 0 f = d := by
  funext a
  rw [fill_apply, if_neg (Nat.not_lt_zero _)]

theorem fill_congr (h : ∀ i < n, f i = g i) : d.fill base n f = d.fill base n g := by
  funext a
  rw [fill_apply, fill_apply]
  split_ifs with ha
  · exact h _ ha
  · rfl

theorem bytes_fill (hn : n ≤ 2 ^ 32) (hk : k < n) : (d.fill base n f).bytes base k = f k := by
  rw [bytes, fill_apply, add_ofNat_sub_self (by omega), if_pos hk]

theorem get_read (d : Device) (base : UInt32) (hk : k < n) :
    (d.read base n).get k = d.bytes base k := by
  rw [read, Buffer.get_ofFn, if_pos hk]
  rfl

theorem fill_get_read (d e : Device) (base base' : UInt32) :
    d.fill base n (e.read base' n).get = d.fill base n (e.bytes base') :=
  fill_congr fun _ hi => get_read e base' hi

theorem bytes_add (d : Device) (base : UInt32) (k i : Nat) :
    d.bytes (base + UInt32.ofNat k) i = d.bytes base (k + i) := by
  rw [bytes, bytes, UInt32.add_assoc, UInt32.ofNat_add]

theorem sub_add_ofNat (h : k ≤ (a - base).toNat) :
    (a - (base + UInt32.ofNat k)).toNat = (a - base).toNat - k := by
  have ha := a.toNat_lt
  have hbase := base.toNat_lt
  simp only [UInt32.toNat_sub, UInt32.toNat_add, UInt32.toNat_ofNat'] at h ⊢
  omega

theorem lt_sub_add_ofNat (h : (a - base).toNat < k) (hk : k + m ≤ 2 ^ 32) :
    m ≤ (a - (base + UInt32.ofNat k)).toNat := by
  have ha := a.toNat_lt
  have hbase := base.toNat_lt
  simp only [UInt32.toNat_sub, UInt32.toNat_add, UInt32.toNat_ofNat'] at h ⊢
  omega

theorem fill_fill (h : n + m ≤ 2 ^ 32) :
    (d.fill base n f).fill (base + UInt32.ofNat n) m (fun i => f (n + i)) = d.fill base (n + m)
    f := by
  funext a
  simp only [fill_apply]
  by_cases hn : (a - base).toNat < n
  · have hbehind := lt_sub_add_ofNat hn h
    rw [if_neg (by omega), if_pos hn, if_pos (by omega)]
  · have hpos := sub_add_ofNat (Nat.not_lt.mp hn)
    rw [hpos, if_neg hn, show n + ((a - base).toNat - n) = (a - base).toNat by omega]
    by_cases hm : (a - base).toNat < n + m
    · rw [if_pos (by omega), if_pos hm]
    · rw [if_neg (by omega), if_neg hm]

theorem store_apply (h : k < 2 ^ 32) {v : UInt8} :
    d.store (base + UInt32.ofNat k) v a = if (a - base).toNat = k then v else d a := by
  simp only [store, eq_add_ofNat_iff h]

theorem fill_succ (h : n < 2 ^ 32) :
    (d.fill base n f).store (base + UInt32.ofNat n) (f n) = d.fill base (n + 1) f := by
  funext a
  rw [store_apply h, fill_apply, fill_apply]
  split_ifs with h1 <;> first | rfl | omega | rw [h1]

theorem store_fill (h : n < 2 ^ 32) :
    (d.store (base + UInt32.ofNat n) (f n)).fill base n f = d.fill base (n + 1) f := by
  funext a
  rw [fill_apply, fill_apply, store_apply h]
  split_ifs with _ _ h1 <;> first | rfl | omega | rw [h1]

def Apart (base : UInt32) (n : Nat) (base' : UInt32) (m : Nat) : Prop :=
  ∀ a, (a - base).toNat < n → ¬ (a - base').toNat < m

theorem Apart.symm (h : Apart base n base' m) : Apart base' m base n := fun a ha ha' => h a ha' ha

theorem apart_of_le (h : base'.toNat + m ≤ base.toNat) (hn : base.toNat + n ≤ 2 ^ 32) :
    Apart base n base' m := by
  intro a ha
  have hlt := a.toNat_lt
  rw [UInt32.toNat_sub] at ha ⊢
  omega

theorem Apart.mono (h : Apart base n base' m) {n' m' : Nat} (hn : n' ≤ n) (hm : m' ≤ m) :
    Apart base n' base' m' :=
  fun a ha ha' => h a (by omega) (by omega)

theorem Apart.drop (h : Apart base n base' m) (hk : k ≤ n) :
    Apart (base + UInt32.ofNat k) (n - k) base' m := by
  intro a ha
  refine h a ?_
  by_cases hlow : k ≤ (a - base).toNat
  · rw [sub_add_ofNat hlow] at ha
    omega
  · omega

def SameOff (base : UInt32) (n : Nat) (d e : Device) : Prop :=
  ∀ a, ¬ (a - base).toNat < n → d a = e a

theorem SameOff.trans {c : Device} (h : SameOff base n c d) (h' : SameOff base n d e) :
    SameOff base n c e :=
  fun a ha => (h a ha).trans (h' a ha)

theorem SameOff.fill (h : SameOff base n d e) :
    SameOff base n (d.fill base' m f) (e.fill base' m f) := by
  intro a ha
  rw [fill_apply, fill_apply, h a ha]

theorem sameOff_fill : SameOff base n (d.fill base n f) d := by
  intro a ha
  rw [fill_apply, if_neg ha]

theorem SameOff.bytes (h : SameOff base n d e) (hapart : Apart base' m base n) (hk : k < m)
    (hm : m ≤ 2 ^ 32) :
    d.bytes base' k = e.bytes base' k :=
  h _ (hapart _ (by rwa [add_ofNat_sub_self (by omega)]))

end Ucas.Lib.Device

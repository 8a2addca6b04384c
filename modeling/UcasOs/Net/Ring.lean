import UcasOs.Net.Receive
import Mathlib.Data.Set.Lattice
import Mathlib.Logic.Function.Iterate
import Mathlib.Algebra.Order.Group.Nat
import Mathlib.Order.CompletePartialOrder

/-! The rings of descriptors that `do_recv_desc_init` and `do_send_desc_init` lay out for the card.
The driver writes them at kernel addresses, the card follows physical ones: the low 29 bits. -/

namespace Ucas.Net

def phyAddr (x : UInt32) : UInt32 := x &&& 0x1fffffff

abbrev Memory := UInt32 → UInt32

def Memory.store (m : Memory) (addr w : UInt32) : Memory := Function.update m (phyAddr addr) w

def Memory.putDesc (m : Memory) (addr : UInt32) (d : Desc) : Memory :=
  (((m.store addr d.des0).store (addr + 4) d.des1).store (addr + 8) d.des2).store (addr + 12) d.des3

def Memory.desc (m : Memory) (a : UInt32) : Desc := ⟨m a, m (a + 4), m (a + 8), m (a + 12)⟩

def descSize : UInt32 := 16

/-- `1 << k`. -/
def flag (k : UInt32) : UInt32 := 1 <<< k

/-- The body of `while (++cnt < pnum)`, in round `k` with `cnt = k + 1`: one descriptor that is not
the last. The two functions differ in the bits of `des1` and in `des2`, which may depend on `cnt`.
-/
def descRound (des1 : UInt32) (des2 : Nat → UInt32) (here : UInt32 × Memory) (k : Nat) :
    UInt32 × Memory :=
  (here.1 + descSize, here.2.putDesc here.1 ⟨0, des1, des2 (k + 1), phyAddr (here.1 + descSize)⟩)

/-- The loop, and the last descriptor behind it, for which `cnt` is `pnum`, or 1 if that is 0. -/
def descInit (des1 lastDes1 : UInt32) (des2 : Nat → UInt32) (descAddr pnum : UInt32) (m : Memory) :
    UInt32 × Memory :=
  let last := (List.range (pnum.toNat - 1)).foldl (descRound des1 des2) (descAddr, m)
  (descAddr, last.2.putDesc last.1 ⟨0, lastDes1, des2 (pnum.toNat - 1 + 1), phyAddr descAddr⟩)

def doRecvDescInit (descAddr buffer bufsize pnum : UInt32) : Memory → UInt32 × Memory :=
  descInit (flag 24 ||| flag 31 ||| (bufsize &&& 0x7ff)) (flag 25 ||| (bufsize &&& 0x7ff))
    (fun cnt => phyAddr (buffer + UInt32.ofNat (cnt - 1) * bufsize)) descAddr pnum

def doSendDescInit (descAddr buffer bufsize pnum : UInt32) : Memory → UInt32 × Memory :=
  descInit (flag 30 ||| flag 29 ||| flag 24 ||| (bufsize &&& 0x7ff))
    (flag 30 ||| flag 29 ||| flag 25 ||| flag 24 ||| (bufsize &&& 0x7ff)) (fun _ => phyAddr buffer)
      descAddr pnum

theorem phyAddr_toNat (x : UInt32) : (phyAddr x).toNat = x.toNat % 536870912 := by
  rw [phyAddr, UInt32.toNat_and, show (0x1fffffff : UInt32).toNat = 2 ^ 29 - 1 from rfl,
    Nat.and_two_pow_sub_one_eq_mod]

theorem phyAddr_add {x : UInt32} {n : Nat} (h : (phyAddr x).toNat + n < 536870912) :
    phyAddr (x + UInt32.ofNat n) = phyAddr x + UInt32.ofNat n := by
  apply UInt32.toNat_inj.mp
  have hx := phyAddr_toNat x
  rw [phyAddr_toNat, UInt32.toNat_add, UInt32.toNat_add, UInt32.toNat_ofNat', hx]
  omega

theorem toNat_add_ofNat {x : UInt32} {n : Nat} (h : x.toNat + n < 4294967296) :
    (x + UInt32.ofNat n).toNat = x.toNat + n := by
  rw [UInt32.toNat_add, UInt32.toNat_ofNat']
  omega

section PutDesc
variable {addr : UInt32} (hfits : (phyAddr addr).toNat + 16 ≤ 536870912) (m : Memory) (d : Desc)
include hfits

theorem Memory.putDesc_apply (x : UInt32) : m.putDesc addr d x =
    if x.toNat = (phyAddr addr).toNat + 12 then d.des3 else if x.toNat = (phyAddr addr).toNat +
    8 then d.des2
    else if x.toNat = (phyAddr addr).toNat + 4 then d.des1 else if x.toNat =
    (phyAddr addr).toNat then d.des0 else m x := by
  have hfield : ∀ f : Nat, f < 16 → (x = phyAddr (addr + UInt32.ofNat f) ↔
      x.toNat = (phyAddr addr).toNat + f) := fun f hf => by
    rw [phyAddr_add (by omega), ← UInt32.toNat_inj, toNat_add_ofNat (by omega)]
  have h4 : x = phyAddr (addr + 4) ↔ x.toNat = (phyAddr addr).toNat + 4 := hfield 4 (by omega)
  have h8 : x = phyAddr (addr + 8) ↔ x.toNat = (phyAddr addr).toNat + 8 := hfield 8 (by omega)
  have h12 : x = phyAddr (addr + 12) ↔ x.toNat = (phyAddr addr).toNat + 12 := hfield 12 (by omega)
  rw [putDesc, store, store, store, store]
  simp only [Function.update_apply, h4, h8, h12, UInt32.toNat_inj]

theorem Memory.desc_putDesc : (m.putDesc addr d).desc (phyAddr addr) = d := by
  have hword : ∀ f : Nat, f < 16 → (phyAddr addr + UInt32.ofNat f).toNat = (phyAddr addr).toNat +
      f := fun f hf =>
    toNat_add_ofNat (by omega)
  have h4 : (phyAddr addr + 4).toNat = (phyAddr addr).toNat + 4 := hword 4 (by omega)
  have h8 : (phyAddr addr + 8).toNat = (phyAddr addr).toNat + 8 := hword 8 (by omega)
  have h12 : (phyAddr addr + 12).toNat = (phyAddr addr).toNat + 12 := hword 12 (by omega)
  simp [desc, putDesc_apply hfits, h4, h8, h12]

theorem Memory.desc_putDesc_of_disjoint {a : UInt32}
    (h : a.toNat + 16 ≤ (phyAddr addr).toNat ∨ (phyAddr addr).toNat + 16 ≤ a.toNat)
    (ha : a.toNat + 16 ≤ 4294967296) :
    (m.putDesc addr d).desc a = m.desc a := by
  have hkept : ∀ f : Nat, f < 16 → m.putDesc addr d (a + UInt32.ofNat f) = m (a + UInt32.ofNat f) :=
      fun f hf => by
    have hword : (a + UInt32.ofNat f).toNat = a.toNat + f := toNat_add_ofNat (by omega)
    rw [putDesc_apply hfits, hword, if_neg (by omega), if_neg (by omega), if_neg (by omega), if_neg
      (by omega)]
  have h0 : m.putDesc addr d a = m a := by simpa using hkept 0 (by omega)
  have h4 : m.putDesc addr d (a + 4) = m (a + 4) := hkept 4 (by omega)
  have h8 : m.putDesc addr d (a + 8) = m (a + 8) := hkept 8 (by omega)
  have h12 : m.putDesc addr d (a + 12) = m (a + 12) := hkept 12 (by omega)
  rw [desc, desc, h0, h4, h8, h12]

end PutDesc

def Memory.entry (m : Memory) (a : UInt32) (k : Nat) : Desc := m.desc (a + UInt32.ofNat (16 * k))

theorem toNat_descAddr {a : UInt32} {n k : Nat} (hfits : a.toNat + 16 * n ≤ 536870912)
    (hk : k ≤ n) :
    (a + UInt32.ofNat (16 * k)).toNat = a.toNat + 16 * k := toNat_add_ofNat (by omega)

section Table
variable {descAddr : UInt32} {n : Nat} (hfits : (phyAddr descAddr).toNat + 16 * n ≤ 536870912)
include hfits

theorem phyAddr_descAddr {k : Nat} (hk : k < n) :
    phyAddr (descAddr + UInt32.ofNat (16 * k)) = phyAddr descAddr + UInt32.ofNat (16 * k) :=
  phyAddr_add (by omega)

theorem entry_putDesc (m : Memory) (d : Desc) {c k : Nat} (hc : c < n) (hk : k < n) :
    (m.putDesc (descAddr + UInt32.ofNat (16 * c)) d).entry (phyAddr descAddr) k =
      if k = c then d else m.entry (phyAddr descAddr) k := by
  have hphy := phyAddr_descAddr hfits hc
  have hnat := toNat_descAddr hfits hc.le
  have hroom : (phyAddr (descAddr + UInt32.ofNat (16 * c))).toNat + 16 ≤ 536870912 := by
    rw [hphy, hnat]
    omega
  rw [Memory.entry]
  split_ifs with hkc
  · rw [hkc, ← hphy]
    exact m.desc_putDesc hroom d
  · have hnat' := toNat_descAddr hfits hk.le
    exact m.desc_putDesc_of_disjoint hroom d (by rw [hphy, hnat, hnat']; omega) (by omega)

theorem foldl_descRound (des1 : UInt32) (des2 : Nat → UInt32) (m : Memory) {c : Nat} (hc : c < n) :
    ((List.range c).foldl (descRound des1 des2) (descAddr, m)).1 = descAddr + UInt32.ofNat (16 * c)
    ∧
    ∀ k < c, ((List.range c).foldl (descRound des1 des2) (descAddr, m)).2.entry (phyAddr descAddr)
    k =
      ⟨0, des1, des2 (k + 1), phyAddr descAddr + UInt32.ofNat (16 * (k + 1))⟩ := by
  induction c with
  | zero => exact ⟨by simp, fun k hk => absurd hk (by omega)⟩
  | succ c ih =>
    obtain ⟨haddr, hdone⟩ := ih (by omega)
    have hnext : descAddr + UInt32.ofNat (16 * c) + descSize = descAddr + UInt32.ofNat
        (16 * (c + 1)) := by
      rw [UInt32.add_assoc, Nat.mul_succ, UInt32.ofNat_add]
      rfl
    rw [List.range_succ, List.foldl_append, List.foldl_cons, List.foldl_nil, descRound, haddr,
      hnext]
    refine ⟨rfl, fun k hk => ?_⟩
    rw [entry_putDesc hfits _ _ (by omega) (by omega)]
    split_ifs with hkc
    · rw [hkc, phyAddr_descAddr hfits hc]
    · exact hdone k (by omega)

end Table

theorem entry_descInit {des1 lastDes1 : UInt32} {des2 : Nat → UInt32} {descAddr pnum : UInt32}
    (hpnum : 1 ≤ pnum.toNat)
    (hfits : (phyAddr descAddr).toNat + 16 * pnum.toNat ≤ 536870912) (m : Memory) {k : Nat}
    (hk : k < pnum.toNat) :
    (descInit des1 lastDes1 des2 descAddr pnum m).2.entry (phyAddr descAddr) k =
      if k + 1 < pnum.toNat then ⟨0, des1, des2 (k + 1), phyAddr descAddr + UInt32.ofNat
      (16 * (k + 1))⟩
      else ⟨0, lastDes1, des2 (k + 1), phyAddr descAddr⟩ := by
  obtain ⟨haddr, hdone⟩ := foldl_descRound hfits des1 des2 m (c := pnum.toNat - 1) (by omega)
  rw [descInit]
  dsimp only
  rw [haddr, entry_putDesc hfits _ _ (by omega) hk]
  split_ifs with hlast hnot hnot
  · omega
  · rw [hlast]
  · exact hdone k (by omega)
  · omega

def Memory.next (m : Memory) (a : UInt32) : UInt32 := (m.desc a).des3

/-- From `base` on the card visits `n` descriptors in the order of their addresses and is back at
`base`. -/
structure IsRing (m : Memory) (base : UInt32) (n : Nat) : Prop where
  visits : ∀ k < n, (m.next^[k] base).toNat = base.toNat + 16 * k
  closes : m.next^[n] base = base

theorem isRing_descInit {des1 lastDes1 : UInt32} {des2 : Nat → UInt32} {descAddr pnum : UInt32}
    (hpnum : 1 ≤ pnum.toNat)
    (hfits : (phyAddr descAddr).toNat + 16 * pnum.toNat ≤ 536870912) (m : Memory) :
    IsRing (descInit des1 lastDes1 des2 descAddr pnum m).2 (phyAddr descAddr) pnum.toNat := by
  have hnext : ∀ k < pnum.toNat, (descInit des1 lastDes1 des2 descAddr pnum m).2.next
    (phyAddr descAddr + UInt32.ofNat (16 * k)) =
      if k + 1 < pnum.toNat then phyAddr descAddr + UInt32.ofNat (16 * (k + 1)) else
          phyAddr descAddr := fun k hk => by
    show ((descInit des1 lastDes1 des2 descAddr pnum m).2.entry (phyAddr descAddr) k).des3 = _
    rw [entry_descInit hpnum hfits m hk]
    split_ifs <;> rfl
  generalize (descInit des1 lastDes1 des2 descAddr pnum m).2 = t at hnext
  have hvisits : ∀ k < pnum.toNat, t.next^[k] (phyAddr descAddr) = phyAddr descAddr + UInt32.ofNat
      (16 * k) := fun k => by
    induction k with
    | zero => simp
    | succ k ih =>
      intro hk
      rw [Function.iterate_succ_apply', ih (by omega), hnext k (by omega), if_pos hk]
  refine ⟨fun k hk => ?_, ?_⟩
  · rw [hvisits k hk]
    exact toNat_descAddr hfits hk.le
  · obtain ⟨k, hk⟩ : ∃ k, pnum.toNat = k + 1 := ⟨pnum.toNat - 1, by omega⟩
    rw [hk, Function.iterate_succ_apply', hvisits k (by omega), hnext k (by omega), if_neg
      (by omega)]

def Memory.bufferOf (m : Memory) (base bufsize : UInt32) (k : Nat) : Set Nat :=
  Set.Ico (m.entry base k).des2.toNat ((m.entry base k).des2.toNat + bufsize.toNat)

/-- The buffers of the `n` descriptors do not overlap, and make up the whole of a buffer at `a`. -/
structure Tiles (m : Memory) (base bufsize a : UInt32) (n : Nat) : Prop where
  disjoint : ∀ j < n, ∀ k < n, j ≠ k → Disjoint (m.bufferOf base bufsize j) (m.bufferOf base bufsize
    k)
  cover : ∀ x, (∃ k < n, x ∈ m.bufferOf base bufsize k) ↔
    x ∈ Set.Ico a.toNat (a.toNat + n * bufsize.toNat)

theorem tiles_of_des2 {m : Memory} {base bufsize a : UInt32} {n : Nat} (hsize : 0 < bufsize.toNat)
    (h : ∀ k < n, (m.entry base k).des2.toNat = a.toNat + k * bufsize.toNat) :
    Tiles m base bufsize a n := by
  refine ⟨fun j hj k hk hne => ?_, fun x => ⟨?_, fun hx => ?_⟩⟩
  · rw [Memory.bufferOf, Memory.bufferOf, h j hj, h k hk]
    refine Set.disjoint_left.mpr fun x ⟨hxj, hxj'⟩ ⟨hxk, hxk'⟩ => ?_
    obtain hlt | hlt := Nat.lt_or_gt_of_ne hne
    · have := Nat.mul_le_mul_right bufsize.toNat (Nat.succ_le_of_lt hlt)
      rw [Nat.succ_mul] at this
      omega
    · have := Nat.mul_le_mul_right bufsize.toNat (Nat.succ_le_of_lt hlt)
      rw [Nat.succ_mul] at this
      omega
  · rintro ⟨k, hk, hx⟩
    rw [Memory.bufferOf, h k hk, Set.mem_Ico] at hx
    have := Nat.mul_le_mul_right bufsize.toNat (Nat.succ_le_of_lt hk)
    rw [Nat.succ_mul] at this
    exact ⟨by omega, by omega⟩
  · obtain ⟨hle, hlt⟩ := hx
    have hk : (x - a.toNat) / bufsize.toNat < n :=
      Nat.div_lt_of_lt_mul (by rw [Nat.mul_comm]; omega)
    refine ⟨_, hk, ?_⟩
    rw [Memory.bufferOf, h _ hk, Set.mem_Ico]
    have hdiv := Nat.div_add_mod (x - a.toNat) bufsize.toNat
    have hmod := Nat.mod_lt (x - a.toNat) hsize
    rw [Nat.mul_comm] at hdiv
    omega

theorem size_of_des1 {flags bufsize : UInt32} (hflags : flags &&& 0x7ff = 0)
    (hsize : bufsize ≤ 0x7ff) :
    (flags ||| (bufsize &&& 0x7ff)) &&& 0x7ff = bufsize := by
  have hmask : (0x7ff : UInt32).toNat = 2 ^ 11 - 1 := rfl
  have hlt : bufsize.toNat ≤ 2047 := UInt32.le_iff_toNat_le.mp hsize
  have hand := congrArg UInt32.toNat hflags
  rw [UInt32.toNat_and] at hand
  apply UInt32.toNat_inj.mp
  rw [UInt32.toNat_and, UInt32.toNat_or, UInt32.toNat_and, Nat.and_or_distrib_right, hand,
    Nat.and_assoc, Nat.and_self, hmask,
    Nat.and_two_pow_sub_one_eq_mod, Nat.mod_eq_of_lt (by omega)]
  exact Nat.zero_or _

section Init
variable {descAddr buffer bufsize pnum : UInt32} (hpnum : 1 ≤ pnum) (hsize : bufsize ≤ 0x7ff)
  (hdesc : (phyAddr descAddr).toNat + 16 * pnum.toNat ≤ 2 ^ 29)
include hpnum hsize hdesc

theorem entry_of_descInit (flags lastFlags : UInt32) (hflags : flags &&& 0x7ff = 0)
    (hlast : lastFlags &&& 0x7ff = 0)
    (des2 : Nat → UInt32) (m : Memory) : ∀ k < pnum.toNat,
      let t :=
  (descInit (flags ||| (bufsize &&& 0x7ff)) (lastFlags ||| (bufsize &&& 0x7ff)) des2 descAddr pnum
    m).2
      (t.entry (phyAddr descAddr) k).des1 &&& 0x7ff = bufsize ∧
          (t.entry (phyAddr descAddr) k).des2 = des2 (k + 1) := by
  intro k hk t
  rw [entry_descInit (UInt32.le_iff_toNat_le.mp hpnum) hdesc m hk]
  split_ifs
  · exact ⟨size_of_des1 hflags hsize, rfl⟩
  · exact ⟨size_of_des1 hlast hsize, rfl⟩

end Init

theorem descriptor_rings (m : Memory) (descAddr buffer bufsize pnum : UInt32) (hpnum : 1 ≤ pnum)
    (hsize : 1 ≤ bufsize ∧ bufsize ≤ 0x7ff) (hdesc : (phyAddr descAddr).toNat + 16 * pnum.toNat ≤ 2
    ^ 29)
    (hbuffer : (phyAddr buffer).toNat + pnum.toNat * bufsize.toNat ≤ 2 ^ 29) :
    let recv := (doRecvDescInit descAddr buffer bufsize pnum m).2
    let send := (doSendDescInit descAddr buffer bufsize pnum m).2
    IsRing recv (phyAddr descAddr) pnum.toNat ∧ Tiles recv (phyAddr descAddr) bufsize
      (phyAddr buffer) pnum.toNat ∧
    (∀ k < pnum.toNat, (recv.entry (phyAddr descAddr) k).des1 &&& 0x7ff = bufsize) ∧
    IsRing send (phyAddr descAddr) pnum.toNat ∧ ∀ k < pnum.toNat,
      (send.entry (phyAddr descAddr) k).des1 &&& 0x7ff = bufsize ∧
          (send.entry (phyAddr descAddr) k).des2 = phyAddr buffer := by
  have hone : 1 ≤ pnum.toNat := UInt32.le_iff_toNat_le.mp hpnum
  have hpos : 1 ≤ bufsize.toNat := UInt32.le_iff_toNat_le.mp hsize.1
  have hrecv := entry_of_descInit hpnum hsize.2 hdesc (flag 24 ||| flag 31) (flag 25) (by decide)
    (by decide)
    (fun cnt => phyAddr (buffer + UInt32.ofNat (cnt - 1) * bufsize)) m
  have hsend := entry_of_descInit hpnum hsize.2 hdesc (flag 30 ||| flag 29 ||| flag 24)
    (flag 30 ||| flag 29 ||| flag 25 ||| flag 24) (by decide) (by decide) (fun _ => phyAddr buffer)
      m
  refine ⟨isRing_descInit hone hdesc m, tiles_of_des2 hpos fun k hk => ?_, fun k hk =>
    (hrecv k hk).1,
    isRing_descInit hone hdesc m, hsend⟩
  have hroom : k * bufsize.toNat + bufsize.toNat ≤ pnum.toNat * bufsize.toNat := by
    rw [← Nat.succ_mul]
    exact Nat.mul_le_mul_right _ hk
  have hmul : UInt32.ofNat k * bufsize = UInt32.ofNat (k * bufsize.toNat) := by
    rw [UInt32.ofNat_mul, UInt32.ofNat_toNat]
  have hdes2 : ((doRecvDescInit descAddr buffer bufsize pnum m).2.entry (phyAddr descAddr) k).des2 =
      phyAddr buffer + UInt32.ofNat (k * bufsize.toNat) := by
    refine (hrecv k hk).2.trans ?_
    rw [Nat.add_sub_cancel, hmul, phyAddr_add (by omega)]
  rw [hdes2]
  exact toNat_add_ofNat (by omega)

theorem descriptor_rings_two :
    ∃ m : Memory, m = (doRecvDescInit 0x9fffffe0 0xa0000000 3 2 fun _ => 0).2 ∧
    IsRing m 0x1fffffe0 2 ∧ Tiles m 0x1fffffe0 3 0 2 := by
  have h := descriptor_rings (fun _ => 0) 0x9fffffe0 0xa0000000 3 2 (by decide) (by decide)
    (by decide) (by decide)
  exact ⟨_, rfl, h.1, h.2.1⟩

end Ucas.Net

import UcasOs.Fs.Mkfs

/-! What the parts of the operations do to a volume, as results written out: an inode made, a block
allotted, an inode stored, an entry written, a file removed. -/

namespace Ucas.Fs
open Ucas.Lib

def anyFault : Fault → Prop := fun _ => True

namespace Volume
variable (v : Volume)

def created (q : Nat) (i : Inode) : Volume :=
  { v with
    inodeBit := Function.update v.inodeBit q true
    freeInodes := v.freeInodes - 1
    inode := Function.update v.inode q i }

def allotted (b : Nat) (c : Block) : Volume :=
  { v with
    blockBit := Function.update v.blockBit b true
    freeBlocks := v.freeBlocks - 1
    block := Function.update v.block b c }

def stored (i : Inode) : Volume := { v with inode := Function.update v.inode i.iNum.toNat i }

def wrote (k : Nat) (c : Block) : Volume := { v with block := Function.update v.block k c }

def removed (q : Nat) : Volume :=
  { v with
    inodeBit := Function.update v.inodeBit q false
    blockBit := fun k => v.blockBit k && decide (∀ p ∈ leading (v.inode q), p.toNat ≠ k) }

theorem allotted_stored (i : Inode) (b : Nat) (c : Block) :
    (v.stored i).allotted b c = (v.allotted b c).stored i :=
  rfl

theorem stored_created {q : Nat} (i j : Inode) (b : Nat) (c : Block) (hi : i.iNum.toNat = q) :
    ((v.created q j).allotted b c).stored i = (v.created q i).allotted b c := by
  simp only [created, allotted, stored, hi, Function.update_idem]

theorem wrote_stored (i : Inode) (k : Nat) (c : Block) :
    (v.stored i).wrote k c = (v.wrote k c).stored i :=
  rfl

end Volume

theorem toNat_ofNat_of_lt {n : Nat} (h : n < 4294967296) : (UInt32.ofNat n).toNat = n := by
  rw [UInt32.toNat_ofNat', Nat.mod_eq_of_lt h]

theorem major_of_lt {j : Nat} (hj : j < 32) : (UInt32.ofNat j / 32).toNat = 0 := by
  rw [UInt32.toNat_div, toNat_ofNat_of_lt (by omega)]
  exact Nat.div_eq_of_lt hj

theorem minor_of_lt {j : Nat} (hj : j < 32) : (UInt32.ofNat j % 32).toNat = j := by
  rw [UInt32.toNat_mod, toNat_ofNat_of_lt (by omega)]
  exact Nat.mod_eq_of_lt hj

theorem blockKey_of_lt {p : UInt32} (h : p.toNat < 1048576) : blockKey p = p.toNat :=
  Nat.mod_eq_of_lt h

def Within (W : Set Nat) (i : Inode) : Prop :=
  ∀ k, i.iDirectTable k = 0 ∨ (i.iDirectTable k).toNat ∈ W

def dataBlocks : Set Nat := { b | 266 ≤ b ∧ b < 262144 }

theorem toNat_of_mem_dataBlocks {b : Nat} (h : b ∈ dataBlocks) : (UInt32.ofNat b).toNat = b :=
  toNat_ofNat_of_lt (by have := h.2; omega)

theorem ne_zero_of_mem_dataBlocks {p : UInt32} (h : p.toNat ∈ dataBlocks) : p ≠ 0 := by
  rintro rfl
  exact absurd h.1 (by simp)

theorem Within.mono {W W' : Set Nat} {i : Inode} (h : Within W i) (hW : W ⊆ W') : Within W' i :=
  fun k => (h k).imp_right fun hk => hW hk

theorem within_newInode (W : Set Nat) (e : Env) (fmode : UInt16) (fsize inum : UInt32) {b : UInt32}
    (hb : b = 0 ∨ b.toNat ∈ W) : Within W (newInode e fmode fsize b inum) := by
  intro k
  unfold newInode
  dsimp only
  by_cases hk : k = 0
  · rw [hk, Function.update_self]
    exact hb
  · rw [Function.update_of_ne hk]
    exact .inl rfl

theorem within_zeroInode (W : Set Nat) : Within W zeroInode :=
  fun k => .inl (zeroInode_iDirectTable k)

def Inode.HasRoom (i : Inode) : Prop := ((i.iFnum + 2) / 32).toNat < 12 ∨ i.iIndirectBlock1Ptr = 0

instance (i : Inode) : Decidable i.HasRoom := inferInstanceAs (Decidable (_ ∨ _))

theorem Inode.HasRoom.indirect_eq_zero {i : Inode} {dnum : UInt32} (h : i.HasRoom)
    (hle : dnum ≤ i.iFnum + 2)
    (hdnum : ¬(dnum / 32).toNat < 12) : i.iIndirectBlock1Ptr = 0 := by
  refine h.resolve_left fun hlt => hdnum ?_
  rw [UInt32.toNat_div] at hlt ⊢
  exact lt_of_le_of_lt (Nat.div_le_div_right (UInt32.le_iff_toNat_le.mp hle)) hlt

namespace Volume
variable {v : Volume}

theorem firstClear_mem_dataBlocks (hlow : ∀ k, k < 266 → v.blockBit k = true) {b : Nat}
    (hb : firstClear v.blockBit 262144 = some b) : b ∈ dataBlocks := by
  obtain ⟨hlt, hclear, -⟩ := firstClear_eq_some.mp hb
  refine ⟨?_, hlt⟩
  by_contra hge
  simp [hlow b (by omega)] at hclear

theorem takeInode_eq {q : Nat} (hq : firstClear v.inodeBit 8192 = some q) :
    v.takeInode = .ok (UInt32.ofNat q,
    { v with inodeBit := Function.update v.inodeBit q true, freeInodes := v.freeInodes - 1 }) := by
  rw [takeInode, hq, Option.elim_some]

theorem takeBlock_eq {b : Nat} (hb : firstClear v.blockBit 262144 = some b) :
    v.takeBlock = .ok (UInt32.ofNat b,
    { v with blockBit := Function.update v.blockBit b true, freeBlocks := v.freeBlocks - 1 }) := by
  rw [takeBlock, hb, Option.elim_some]

section Make
variable (e : Env) (fmode : UInt16)

theorem makeEmpty_eq {q : Nat} (hq : firstClear v.inodeBit 8192 = some q) : v.makeEmpty e fmode =
    .ok (UInt32.ofNat q, v.created q (newInode e fmode 0 0 (UInt32.ofNat q))) := by
  obtain ⟨hlt, -, -⟩ := firstClear_eq_some.mp hq
  have hnum : (newInode e fmode 0 0 (UInt32.ofNat q)).iNum.toNat = q := toNat_ofNat_of_lt (by omega)
  simp only [makeEmpty, takeInode, hq, Option.elim_some, ok_bind, store, hnum, if_pos hlt,
    pure_eq_ok, created]

theorem makeEmpty_ensures : Ensures anyFault (fun r => ∃ q, firstClear v.inodeBit 8192 = some q ∧
    r = (UInt32.ofNat q, v.created q (newInode e fmode 0 0 (UInt32.ofNat q))))
    (v.makeEmpty e fmode) := by
  cases hq : firstClear v.inodeBit 8192 with
  | none =>
    rw [makeEmpty, takeInode, hq]
    exact .error trivial
  | some q =>
    rw [makeEmpty_eq e fmode hq]
    exact .ok ⟨q, rfl, rfl⟩

theorem makeWithBlock_eq (hlow : ∀ k, k < 266 → v.blockBit k = true) (content : UInt32 → Block)
    {q b : Nat}
    (hq : firstClear v.inodeBit 8192 = some q) (hb : firstClear v.blockBit 262144 = some b) :
    v.makeWithBlock e fmode content = .ok (UInt32.ofNat q,
      (v.created q (newInode e fmode 4096 (UInt32.ofNat b) (UInt32.ofNat q))).allotted b
      (content (UInt32.ofNat q))) := by
  obtain ⟨hlt, -, -⟩ := firstClear_eq_some.mp hq
  obtain ⟨hge, hblt⟩ := firstClear_mem_dataBlocks hlow hb
  have hnum : (newInode e fmode 4096 (UInt32.ofNat b) (UInt32.ofNat q)).iNum.toNat = q :=
    toNat_ofNat_of_lt (by omega)
  rw [makeWithBlock, takeInode_eq hq, ok_bind]
  dsimp only
  rw [takeBlock_eq (b := b), ok_bind]
  · dsimp only
    rw [store, hnum, if_pos hlt, ok_bind, write, blockKey_ofNat (k := b) (by omega), if_pos hge,
      ok_bind]
    rfl
  · exact hb

theorem makeWithBlock_ensures (hlow : ∀ k, k < 266 → v.blockBit k = true) (content : UInt32 →
    Block) :
    Ensures anyFault (fun r => ∃ q b, firstClear v.inodeBit 8192 = some q ∧
      firstClear v.blockBit 262144 = some b ∧ r = (UInt32.ofNat q,
        (v.created q (newInode e fmode 4096 (UInt32.ofNat b) (UInt32.ofNat q))).allotted b
          (content (UInt32.ofNat q)))) (v.makeWithBlock e fmode content) := by
  cases hq : firstClear v.inodeBit 8192 with
  | none =>
    rw [makeWithBlock, takeInode, hq]
    exact .error trivial
  | some q =>
    cases hb : firstClear v.blockBit 262144 with
    | none =>
      rw [makeWithBlock, takeInode_eq hq, ok_bind]
      dsimp only
      rw [takeBlock, hb]
      exact .error trivial
    | some b =>
      rw [makeWithBlock_eq e fmode hlow content hq hb]
      exact .ok ⟨q, b, rfl, rfl, rfl⟩

end Make

inductive Wrote (v : Volume) (i : Inode) (dnum : UInt32) (d : Dentry) : Inode × Volume → Prop
  | refused (h : dnum < 2 ∨ i.iFnum + 2 < dnum) : Wrote v i dnum d (i, v)
  | grown {b : Nat} {i' : Inode} (hslot : 2 ≤ dnum ∧ dnum ≤ i.iFnum + 2) (h : (dnum / 32).toNat <
    12)
      (hzero : i.iDirectTable ⟨_, h⟩ = 0) (hb : firstClear v.blockBit 262144 = some b)
      (hi' : i' = (i.point ⟨_, h⟩ (UInt32.ofNat b)).addSize.addEntry) :
      Wrote v i dnum d (i', (v.stored i').allotted b (putDentry .zero (dnum % 32).toNat d))
  | filled (hslot : 2 ≤ dnum ∧ dnum ≤ i.iFnum + 2) (h : (dnum / 32).toNat < 12)
      (hne : i.iDirectTable ⟨_, h⟩ ≠ 0) :
      Wrote v i dnum d (i.addEntry, (v.stored i.addEntry).wrote (i.iDirectTable ⟨_, h⟩).toNat
        (putDentry (v.block (i.iDirectTable ⟨_, h⟩).toNat) (dnum % 32).toNat d))
  | lost (hslot : 2 ≤ dnum ∧ dnum ≤ i.iFnum + 2) (h : 12 ≤ (dnum / 32).toNat) :
      Wrote v i dnum d (i.addEntry, (v.stored i.addEntry).wrote 1048575
        (putDentry (v.block 1048575) (dnum % 32).toNat d))

theorem Wrote.iNum {i : Inode} {dnum : UInt32} {d : Dentry} {r : Inode × Volume}
    (h : Wrote v i dnum d r) :
    r.1.iNum = i.iNum := by
  cases h with
  | refused h => rfl
  | grown hslot h hzero hb hi' => simp [hi']
  | filled hslot h hne => simp
  | lost hslot h => simp

theorem Wrote.eq_of_refused {i : Inode} {dnum : UInt32} {d : Dentry} {r : Inode × Volume}
    (h : Wrote v i dnum d r)
    (hrefused : dnum < 2 ∨ i.iFnum + 2 < dnum) : r.2 = v := by
  have hout : ¬ (2 ≤ dnum ∧ dnum ≤ i.iFnum + 2) :=
    fun hin => hrefused.elim (UInt32.not_lt.mpr hin.1) (UInt32.not_lt.mpr hin.2)
  cases h with
  | refused => rfl
  | grown hin => exact absurd hin hout
  | filled hin => exact absurd hin hout
  | lost hin => exact absurd hin hout

section WriteDentry
variable {i : Inode} {dnum : UInt32} (d : Dentry)

theorem writeDentry_grown (hlow : ∀ k, k < 266 → v.blockBit k = true) (hnum : i.iNum.toNat < 8192)
    (hslot : 2 ≤ dnum ∧ dnum ≤ i.iFnum + 2) (h : (dnum / 32).toNat < 12) (hzero : i.iDirectTable
    ⟨_, h⟩ = 0)
    {b : Nat} (hb : firstClear v.blockBit 262144 = some b) {i' : Inode}
    (hi' : i' = (i.point ⟨_, h⟩ (UInt32.ofNat b)).addSize.addEntry) : v.writeDentry i dnum d =
      .ok (i', (v.stored i').allotted b (putDentry .zero (dnum % 32).toNat d)) := by
  obtain ⟨hge, hblt⟩ := firstClear_mem_dataBlocks hlow hb
  have hnum' : i'.iNum.toNat < 8192 := by
    rw [hi', Inode.addEntry_iNum, Inode.addSize_iNum, Inode.point_iNum]
    exact hnum
  rw [writeDentry, if_neg (by simpa [not_or] using hslot), blockIndex, dif_pos h, ok_bind, dif_pos
    ⟨hzero, h⟩]
  simp only [growDirectory, takeBlock, hb, Option.elim_some, ok_bind, ← hi', store, if_pos hnum',
    write,
    blockKey_ofNat (k := b) (by omega), if_pos hge, pure_eq_ok]
  rfl

theorem writeDentry_filled (hnum : i.iNum.toNat < 8192) (hslot : 2 ≤ dnum ∧ dnum ≤ i.iFnum + 2)
    (h : (dnum / 32).toNat < 12) (hdata : (i.iDirectTable ⟨_, h⟩).toNat ∈ dataBlocks) :
    v.writeDentry i dnum d =
      .ok (i.addEntry, (v.stored i.addEntry).wrote (i.iDirectTable ⟨_, h⟩).toNat
        (putDentry (v.block (i.iDirectTable ⟨_, h⟩).toNat) (dnum % 32).toNat d)) := by
  have hne := ne_zero_of_mem_dataBlocks hdata
  obtain ⟨hge, hlt⟩ := hdata
  have hkey : blockKey (i.iDirectTable ⟨_, h⟩) = (i.iDirectTable ⟨_, h⟩).toNat :=
    blockKey_of_lt (by omega)
  rw [writeDentry, if_neg (by simpa [not_or] using hslot), blockIndex, dif_pos h, ok_bind, dif_neg
    (by tauto)]
  simp only [fillSlot, store, Inode.addEntry_iNum, if_pos hnum, ok_bind, read, write, hkey,
    if_pos hge, pure_eq_ok]
  rfl

theorem writeDentry_first (hnum : i.iNum.toNat < 8192) (hslot : 2 ≤ dnum ∧ dnum ≤ i.iFnum + 2)
    (h32 : dnum.toNat < 32) (hdata : (i.iDirectTable 0).toNat ∈ dataBlocks) :
    v.writeDentry i dnum d =
      .ok (i.addEntry, (v.stored i.addEntry).wrote (i.iDirectTable 0).toNat
        (putDentry (v.block (i.iDirectTable 0).toNat) dnum.toNat d)) := by
  have hmajor : (dnum / 32).toNat = 0 := by
    simp only [UInt32.toNat_div, UInt32.reduceToNat]
    omega
  have hminor : (dnum % 32).toNat = dnum.toNat := by
    simp only [UInt32.toNat_mod, UInt32.reduceToNat]
    omega
  have hfin : ∀ h, (⟨(dnum / 32).toNat, h⟩ : Fin 12) = 0 := fun _ => Fin.ext hmajor
  rw [writeDentry_filled d hnum hslot (by omega) (by rw [hfin]; exact hdata), hfin, hminor]

theorem removeDentry_first (hnum : i.iNum.toNat < 8192) (hslot : 2 ≤ dnum ∧ dnum ≤ i.iFnum + 2)
    (h32 : dnum.toNat < 32) (hdata : (i.iDirectTable 0).toNat ∈ dataBlocks) :
    v.removeDentry i dnum =
      .ok (i.addEntry.dropEntry, ((v.stored i.addEntry).wrote (i.iDirectTable 0).toNat
        (putDentry (v.block (i.iDirectTable 0).toNat) dnum.toNat .zero)).stored
        i.addEntry.dropEntry) := by
  rw [removeDentry, writeDentry_first _ hnum hslot h32 hdata, ok_bind]
  dsimp only
  rw [store, if_pos (show i.addEntry.dropEntry.iNum.toNat < 8192 from hnum)]
  rfl

theorem writeDentry_lost (hnum : i.iNum.toNat < 8192) (hslot : 2 ≤ dnum ∧ dnum ≤ i.iFnum + 2)
    (h : 12 ≤ (dnum / 32).toNat) (hind : i.iIndirectBlock1Ptr = 0) : v.writeDentry i dnum d =
      .ok (i.addEntry, (v.stored i.addEntry).wrote 1048575 (putDentry (v.block 1048575)
      (dnum % 32).toNat d)) := by
  have hmax : (dnum / 32).toNat < maxBlockIndex := by
    have := dnum.toNat_lt
    simp only [UInt32.toNat_div, UInt32.reduceToNat, maxBlockIndex]
    omega
  have hkey : blockKey notFound = 1048575 := by simp [blockKey, notFound]
  rw [writeDentry, if_neg (by simpa [not_or] using hslot), blockIndex, dif_neg (by omega), if_pos
    ⟨hind, hmax⟩, ok_bind,
    dif_neg (by simp [notFound])]
  simp only [fillSlot, store, Inode.addEntry_iNum, if_pos hnum, ok_bind, read, write, hkey,
    if_pos (show 266 ≤ 1048575 by omega), pure_eq_ok]
  rfl

theorem exists_wrote (hlow : ∀ k, k < 266 → v.blockBit k = true) (hnum : i.iNum.toNat < 8192)
    (hi : Within dataBlocks i) (hroom : i.HasRoom)
    (hfree : ∀ h : (dnum / 32).toNat < 12, i.iDirectTable ⟨_, h⟩ = 0 → ∃ b, firstClear v.blockBit
    262144 = some b) :
    ∃ r, v.writeDentry i dnum d = .ok r ∧ Wrote v i dnum d r := by
  by_cases hrefuse : dnum < 2 ∨ i.iFnum + 2 < dnum
  · exact ⟨_, if_pos hrefuse, .refused hrefuse⟩
  have hslot : 2 ≤ dnum ∧ dnum ≤ i.iFnum + 2 := by simpa [not_or] using hrefuse
  by_cases h12 : (dnum / 32).toNat < 12
  · by_cases hzero : i.iDirectTable ⟨_, h12⟩ = 0
    · obtain ⟨b, hb⟩ := hfree h12 hzero
      exact ⟨_, writeDentry_grown d hlow hnum hslot h12 hzero hb rfl, .grown hslot h12 hzero hb rfl⟩
    · exact ⟨_, writeDentry_filled d hnum hslot h12 ((hi _).resolve_left hzero), .filled hslot h12
        hzero⟩
  · exact ⟨_, writeDentry_lost d hnum hslot (by omega) (hroom.indirect_eq_zero hslot.2 h12),
      .lost hslot (by omega)⟩

theorem writeDentry_ensures (hlow : ∀ k, k < 266 → v.blockBit k = true) (hnum : i.iNum.toNat < 8192)
    (hi : Within dataBlocks i) (hroom : i.HasRoom) :
    Ensures anyFault (Wrote v i dnum d) (v.writeDentry i dnum d) := by
  by_cases hfree : ∀ h : (dnum / 32).toNat < 12, i.iDirectTable ⟨_, h⟩ = 0 →
    ∃ b, firstClear v.blockBit 262144 = some b
  · obtain ⟨r, hr, hwrote⟩ := exists_wrote d hlow hnum hi hroom hfree
    rw [hr]
    exact .ok hwrote
  · push Not at hfree
    obtain ⟨h12, hzero, hnone⟩ := hfree
    by_cases hrefuse : dnum < 2 ∨ i.iFnum + 2 < dnum
    · rw [writeDentry, if_pos hrefuse]
      exact .ok (.refused hrefuse)
    · rw [writeDentry, if_neg hrefuse, blockIndex, dif_pos h12, ok_bind, dif_pos ⟨hzero, h12⟩,
        growDirectory, takeBlock,
        Option.eq_none_iff_forall_ne_some.mpr hnone]
      exact .error trivial

end WriteDentry

end Volume

end Ucas.Fs

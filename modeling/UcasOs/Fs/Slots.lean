import UcasOs.Fs.Lookup

/-! The slots of directories. A slot whose block is missing is read from block 0 (the superblock) as
long as it is in one of the twelve direct blocks, and from block `-1` behind them: there all
directories share the 32 slots of one block. -/

namespace Ucas.Fs
open Ucas.Lib

namespace FileSys
variable (s : FileSys)

/-- The blocks of all directories are distinct data blocks in use. A directory has its blocks in the
direct table: `write_dentry` never gives it a block of pointers. -/
structure Directories : Prop extends s.Mounted where
  num : ∀ q, s.IsDirectory q → (s.syncFromDiskInode q).iNum = q
  data : ∀ q k, s.IsDirectory q → (s.syncFromDiskInode q).iDirectTable k ≠ 0 →
    ((s.syncFromDiskInode q).iDirectTable k).toNat ∈ dataBlocks ∧
      s.blockbmp.bit ((s.syncFromDiskInode q).iDirectTable k).toNat = true
  distinct : ∀ q k q' k', s.IsDirectory q → s.IsDirectory q' → (s.syncFromDiskInode q).iDirectTable
    k ≠ 0 →
    (s.syncFromDiskInode q).iDirectTable k = (s.syncFromDiskInode q').iDirectTable k' → q = q' ∧
      k = k'
  indirect : ∀ q, s.IsDirectory q → (s.syncFromDiskInode q).iIndirectBlock1Ptr = 0

def OtherSlot (n dnum m k : UInt32) : Prop :=
  s.IsDirectory m ∧ k < (s.syncFromDiskInode m).iFnum + 2 ∧ ¬ (m = n ∧ k = dnum)

/-- `write_dentry` puts entry `d` in slot `dnum` of directory `n`, and leaves every other slot
alone. -/
def WritesSlot (n dnum : UInt32) (d : Dentry) : Prop :=
  ∃ i t, s.writeDentry (s.syncFromDiskInode n) dnum d = .ok (i, t) ∧ t.readDentry i dnum = .ok d ∧
    ∀ m k, s.OtherSlot n dnum m k → t.readDentry (t.syncFromDiskInode m) k = s.readDentry
      (s.syncFromDiskInode m) k

def Missing (i : Inode) (k : UInt32) : Prop := ∃ h : (k / 32).toNat < 12, i.iDirectTable ⟨_, h⟩ = 0

def Behind (k : UInt32) : Prop := 12 ≤ (k / 32).toNat

instance (k : UInt32) : Decidable (Behind k) := Nat.decLe _ _

end FileSys

namespace Volume
variable (v : Volume)

def slotBlock (i : Inode) (major : Nat) : Block :=
  if h : major < 12 then
    if i.iDirectTable ⟨major, h⟩ = 0 then superblockOf v.freeBlocks v.freeInodes
    else v.block (i.iDirectTable ⟨major, h⟩).toNat
  else v.block 1048575

def slot (i : Inode) (k : UInt32) : Dentry := dentryAt (v.slotBlock i (k / 32).toNat) (k % 32).toNat

variable {v} {i j : Inode} {k : UInt32}

theorem slot_congr (h : i.iDirectTable = j.iDirectTable) : v.slot i k = v.slot j k := by
  rw [slot, slot, slotBlock, slotBlock, h]

theorem slot_missing (hk : (k / 32).toNat < 12) (hzero : i.iDirectTable ⟨_, hk⟩ = 0) :
    v.slot i k = dentryAt (superblockOf v.freeBlocks v.freeInodes) (k % 32).toNat := by
  rw [slot, slotBlock, dif_pos hk, if_pos hzero]

theorem slot_present (hk : (k / 32).toNat < 12) (hne : i.iDirectTable ⟨_, hk⟩ ≠ 0) :
    v.slot i k = dentryAt (v.block (i.iDirectTable ⟨_, hk⟩).toNat) (k % 32).toNat := by
  rw [slot, slotBlock, dif_pos hk, if_neg hne]

theorem slot_behind (hk : FileSys.Behind k) :
    v.slot i k = dentryAt (v.block 1048575) (k % 32).toNat := by
  rw [slot, slotBlock, dif_neg (Nat.not_lt.mpr hk)]

end Volume

theorem slot_mod_lt (k : UInt32) : (k % 32).toNat < 32 := by
  simp only [UInt32.toNat_mod, UInt32.reduceToNat]
  omega

theorem slot_ext {k m : UInt32} (hdiv : (k / 32).toNat = (m / 32).toNat)
    (hmod : (k % 32).toNat = (m % 32).toNat) :
    k = m := by
  simp only [UInt32.toNat_div, UInt32.toNat_mod, UInt32.reduceToNat] at hdiv hmod
  exact UInt32.toNat_inj.mp (by omega)

theorem Shows.readDentry {s : FileSys} {v : Volume} (h : Shows s v) {i : Inode}
    (hi : Within dataBlocks i)
    (hind : i.iIndirectBlock1Ptr = 0) (k : UInt32) : s.readDentry i k = .ok (v.slot i k) := by
  have hmajor : (k / 32).toNat < maxBlockIndex := by
    have := k.toNat_lt
    simp only [UInt32.toNat_div, UInt32.reduceToNat, maxBlockIndex]
    omega
  rw [FileSys.readDentry, Volume.slot, Volume.slotBlock]
  by_cases h12 : (k / 32).toNat < 12
  · rw [dif_pos h12, FileSys.getBlockIndexInInode, dif_pos h12, ok_bind, pure_eq_ok]
    split_ifs with hzero
    · have hread : v.read 0 = .ok (superblockOf v.freeBlocks v.freeInodes) := by
        rw [Volume.read, if_neg (by rw [blockKey_zero]; omega), if_pos blockKey_zero]
      rw [hzero, h.read hread]
    · have hdata := (hi ⟨_, h12⟩).resolve_left hzero
      have hkey : blockKey (i.iDirectTable ⟨_, h12⟩) = (i.iDirectTable ⟨_, h12⟩).toNat :=
        blockKey_of_lt (by have := hdata.2; omega)
      rw [h.read (b := v.block (i.iDirectTable ⟨_, h12⟩).toNat)
        (by rw [Volume.read, hkey, if_pos hdata.1])]
  · have hmiss : s.getBlockIndexInInode i (k / 32).toNat = .ok notFound := by
      rw [FileSys.getBlockIndexInInode, dif_neg h12]
      simp only [hind, if_true, hmajor, ite_self]
    have hkey : blockKey notFound = 1048575 := by simp [blockKey, notFound]
    rw [dif_neg h12, hmiss, ok_bind, pure_eq_ok, h.read (b := v.block 1048575)
      (by rw [Volume.read, hkey, if_pos (by omega)])]

theorem sub_one_ne (x : UInt32) : x - 1 ≠ x := fun heq => by
  have hnat := congrArg UInt32.toNat heq
  rw [UInt32.toNat_sub] at hnat
  have := x.toNat_lt
  simp only [UInt32.reduceToNat] at hnat
  omega

section Superblock
variable (fb fi : UInt32)

theorem dentryAt_superblockOf {j : Nat} (hj : j < 32) (hpos : 0 < j) :
    dentryAt (superblockOf fb fi) j = .zero := by
  apply Buffer.ext
  intro k hk
  rw [get_dentryAt hk, Buffer.get_zero]
  unfold superblockOf mkfsSuperblock
  repeat rw [Buffer.get_setWord _ _ _ (by omega), if_neg (by omega)]
  exact Buffer.get_zero _

theorem dentryAt_superblockOf_ne_zero : dentryAt (superblockOf fb fi) 0 ≠ .zero := fun hzero => by
  have hinum := dInum_superblockOf fb fi
  rw [hzero, dInum_zero] at hinum
  exact absurd hinum (by decide)

theorem dentryAt_superblockOf_ne {fb fb' : UInt32} (fi : UInt32) (h : fb' ≠ fb) :
    dentryAt (superblockOf fb' fi) 0 ≠ dentryAt (superblockOf fb fi) 0 := fun heq => h <| by
  have hword : ∀ fb, (dentryAt (superblockOf fb fi) 0).word 24 = fb := fun fb => by
    rw [dentryAt, Buffer.word_slice _ _ (by omega)]
    exact superblockOf_word_blocks fb fi
  rw [← hword fb', heq, hword]

end Superblock

namespace FileSys.Directories
variable {s : FileSys} (h : s.Directories) {n : UInt32} (hn : s.IsDirectory n) {dnum : UInt32}
  (d : Dentry)
include h

theorem within {q : UInt32} (hq : s.IsDirectory q) : Within dataBlocks (s.syncFromDiskInode q) :=
  fun k => by
  by_cases hzero : (s.syncFromDiskInode q).iDirectTable k = 0
  · exact .inl hzero
  · exact .inr (h.data q k hq hzero).1

theorem readDentry {q : UInt32} (hq : s.IsDirectory q) (k : UInt32) :
    s.readDentry (s.syncFromDiskInode q) k = .ok (s.volume.slot (s.syncFromDiskInode q) k) :=
  h.shows.readDentry (h.within hq) (h.indirect q hq) k

structure Written (s : FileSys) (n dnum : UInt32) (d : Dentry) (i : Inode) (v : Volume) : Prop where
  eq : s.volume.writeDentry (s.syncFromDiskInode n) dnum d = .ok (i, v)
  self : v.inode n.toNat = i
  other : ∀ m : UInt32, m ≠ n → v.inode m.toNat = s.syncFromDiskInode m
  within : Within dataBlocks i
  indirect : i.iIndirectBlock1Ptr = 0

theorem writesSlot_iff {i : Inode} {v : Volume} (hw : Written s n dnum d i v) :
    s.WritesSlot n dnum d ↔
    v.slot i dnum = d ∧ ∀ m k, s.OtherSlot n dnum m k →
      v.slot (if m = n then i else s.syncFromDiskInode m) k = s.volume.slot (s.syncFromDiskInode m)
      k := by
  obtain ⟨⟨i', t⟩, ht, hi, hshows⟩ := (h.shows.writeDentry (s.syncFromDiskInode n) dnum d).exists_ok
    hw.eq
  rw [show i' = i from hi] at ht
  dsimp only at hshows
  have hrecord : ∀ m, s.IsDirectory m → t.syncFromDiskInode m = if m = n then i else
      s.syncFromDiskInode m := fun m hm => by
    rw [hshows.load (Volume.load_of_lt hm.lt)]
    split_ifs with hmn
    · rw [hmn, hw.self]
    · exact hw.other m hmn
  have hread : ∀ m k, s.IsDirectory m → t.readDentry (t.syncFromDiskInode m) k = .ok
      (v.slot (if m = n then i else s.syncFromDiskInode m) k) :=
    fun m k hm => by
    rw [hrecord m hm]
    split_ifs with hmn
    · exact hshows.readDentry hw.within hw.indirect k
    · exact hshows.readDentry (h.within hm) (h.indirect m hm) k
  constructor
  · rintro ⟨i', t', heq, hself, hothers⟩
    obtain ⟨rfl, rfl⟩ := Prod.mk.inj (Except.ok.inj (ht.symm.trans heq))
    rw [hshows.readDentry hw.within hw.indirect] at hself
    refine ⟨Except.ok.inj hself, fun m k hother => ?_⟩
    have hsame := hothers m k hother
    rw [hread m k hother.1, h.readDentry hother.1] at hsame
    exact Except.ok.inj hsame
  · rintro ⟨hself, hothers⟩
    refine ⟨_, t, ht, ?_, fun m k hother => ?_⟩
    · rw [hshows.readDentry hw.within hw.indirect, hself]
    · rw [hread m k hother.1, h.readDentry hother.1, hothers m k hother]

section Cases
variable (hslot : 2 ≤ dnum ∧ dnum ≤ (s.syncFromDiskInode n).iFnum + 2)
include hn

theorem num_lt : (s.syncFromDiskInode n).iNum.toNat < 8192 := by
  rw [h.num n hn]
  exact hn.lt

theorem written {i : Inode} {v : Volume} (heq : s.volume.writeDentry (s.syncFromDiskInode n) dnum
    d = .ok (i, v))
    (hstored : v.inode = (s.volume.stored i).inode) (hi : i.iNum = (s.syncFromDiskInode n).iNum)
    (hwithin : Within dataBlocks i)
    (hind : i.iIndirectBlock1Ptr = 0) : Written s n dnum d i v := by
  refine ⟨heq, ?_, fun m hm => ?_, hwithin, hind⟩
  · simp only [hstored, Volume.stored, hi, h.num n hn, Function.update_self]
  · have hne : m.toNat ≠ n.toNat := fun hmn => hm (UInt32.toNat_inj.mp hmn)
    simp only [hstored, Volume.stored, hi, h.num n hn, Function.update_of_ne hne]
    exact congrArg s.syncFromDiskInode UInt32.ofNat_toNat

omit h hn in
theorem table_addEntry (m : UInt32) :
    (if m = n then (s.syncFromDiskInode n).addEntry else s.syncFromDiskInode m).iDirectTable =
    (s.syncFromDiskInode m).iDirectTable := by
  split_ifs with hmn
  · rw [hmn, Inode.addEntry_iDirectTable]
  · rfl

include hslot

theorem writes_present (hmajor : (dnum / 32).toNat < 12) (hne : (s.syncFromDiskInode n).iDirectTable
    ⟨_, hmajor⟩ ≠ 0) :
    s.WritesSlot n dnum d := by
  obtain ⟨hdata, -⟩ := h.data n _ hn hne
  have hp := hdata.2
  have hw := h.written hn d (Volume.writeDentry_filled d (h.num_lt hn) hslot hmajor hdata) rfl rfl
    (h.within hn)
    (h.indirect n hn)
  refine (h.writesSlot_iff d hw).mpr ⟨?_, fun m k hother => ?_⟩
  · rw [Volume.slot_present (i := (s.syncFromDiskInode n).addEntry) hmajor hne]
    simp only [Volume.wrote, Inode.addEntry_iDirectTable, Function.update_self]
    rw [dentryAt_putDentry _ _ (slot_mod_lt dnum), if_pos rfl]
  · rw [Volume.slot_congr (table_addEntry m)]
    by_cases hk : (k / 32).toNat < 12
    · by_cases hzero : (s.syncFromDiskInode m).iDirectTable ⟨_, hk⟩ = 0
      · rw [Volume.slot_missing hk hzero, Volume.slot_missing hk hzero]
        rfl
      rw [Volume.slot_present hk hzero, Volume.slot_present hk hzero]
      simp only [Volume.wrote, Function.update_apply]
      split_ifs with hsame
      · -- the same block is in the same directory, and the place in it is another
        obtain ⟨rfl, hindex⟩ := h.distinct m _ n _ hother.1 hn hzero (UInt32.toNat_inj.mp hsame)
        have hne : (k % 32).toNat ≠ (dnum % 32).toNat := fun hmod =>
          hother.2.2 ⟨rfl, slot_ext (Fin.mk.inj hindex) hmod⟩
        rw [dentryAt_putDentry _ _ (slot_mod_lt k), if_neg hne, hindex]
      · rfl
    · rw [Volume.slot_behind (Nat.not_lt.mp hk), Volume.slot_behind (Nat.not_lt.mp hk)]
      simp only [Volume.wrote, Function.update_of_ne (show 1048575 ≠
        ((s.syncFromDiskInode n).iDirectTable ⟨_, hmajor⟩).toNat by omega)]
      rfl

theorem writes_behind_iff (hbehind : Behind dnum) :
    s.WritesSlot n dnum d ↔ ∀ m k, s.OtherSlot n dnum m k → Behind k →
    k % 32 = dnum % 32 → s.readDentry (s.syncFromDiskInode m) k = .ok d := by
  have hw := h.written hn d (Volume.writeDentry_lost d (h.num_lt hn) hslot hbehind
    (h.indirect n hn)) rfl rfl (h.within hn)
    (h.indirect n hn)
  have hself : ((s.volume.stored (s.syncFromDiskInode n).addEntry).wrote 1048575
      (putDentry (s.volume.block 1048575) (dnum % 32).toNat d)).slot (s.syncFromDiskInode
          n).addEntry dnum = d := by
    rw [Volume.slot_behind hbehind]
    simp only [Volume.wrote, Function.update_self]
    rw [dentryAt_putDentry _ _ (slot_mod_lt dnum), if_pos rfl]
  rw [h.writesSlot_iff d hw, and_iff_right hself]
  refine forall₃_congr fun m k hother => ?_
  rw [Volume.slot_congr (table_addEntry m), h.readDentry hother.1]
  by_cases hk : (k / 32).toNat < 12
  · refine iff_of_true ?_ fun hback => absurd hk (Nat.not_lt.mpr hback)
    by_cases hzero : (s.syncFromDiskInode m).iDirectTable ⟨_, hk⟩ = 0
    · rw [Volume.slot_missing hk hzero, Volume.slot_missing hk hzero]
      rfl
    · have hp := (h.data m _ hother.1 hzero).1.2
      rw [Volume.slot_present hk hzero, Volume.slot_present hk hzero]
      simp only [Volume.wrote, Function.update_of_ne (show ((s.syncFromDiskInode m).iDirectTable
        ⟨_, hk⟩).toNat ≠ 1048575 by omega)]
      rfl
  · have hback : Behind k := Nat.not_lt.mp hk
    rw [Volume.slot_behind hback, Volume.slot_behind hback, forall_prop_of_true hback,
      ← UInt32.toNat_inj, Except.ok.injEq]
    simp only [Volume.wrote, Function.update_self, dentryAt_putDentry _ _ (slot_mod_lt k)]
    by_cases hmod : (k % 32).toNat = (dnum % 32).toNat
    · rw [if_pos hmod, forall_prop_of_true hmod]
      exact eq_comm
    · rw [if_neg hmod]
      exact iff_of_true rfl fun heq => absurd heq hmod

end Cases

section Grown
variable {b : Nat} {i : Inode} (hb : firstClear s.blockbmp.bit 262144 = some b)
  (hmajor : (dnum / 32).toNat < 12)
  (hzero : (s.syncFromDiskInode n).iDirectTable ⟨_, hmajor⟩ = 0)
  (htable : i.iDirectTable = Function.update (s.syncFromDiskInode n).iDirectTable ⟨_, hmajor⟩
    (UInt32.ofNat b))

theorem new_block {b : Nat} (hb : firstClear s.blockbmp.bit 262144 = some b) :
    b ∈ dataBlocks ∧ (UInt32.ofNat b).toNat = b ∧ UInt32.ofNat b ≠ 0 := by
  have hdata := Volume.firstClear_mem_dataBlocks (v := s.volume) h.tables hb
  have hlt := hdata.2
  have hnat : (UInt32.ofNat b).toNat = b := toNat_ofNat_of_lt (by omega)
  exact ⟨hdata, hnat, ne_zero_of_mem_dataBlocks (hnat.symm ▸ hdata)⟩

include hb htable

theorem grown_self :
    ((s.volume.stored i).allotted b (putDentry .zero (dnum % 32).toNat d)).slot i dnum = d := by
  obtain ⟨-, hnat, hne⟩ := h.new_block hb
  have hptr : i.iDirectTable ⟨_, hmajor⟩ = UInt32.ofNat b := by rw [htable, Function.update_self]
  rw [Volume.slot_present hmajor (hptr.symm ▸ hne), hptr, hnat]
  simp only [Volume.allotted, Function.update_self]
  rw [dentryAt_putDentry _ _ (slot_mod_lt dnum), if_pos rfl]

include hzero

theorem grown_kept {m k : UInt32} (hm : s.IsDirectory m)
    (hk : ¬ Missing (s.syncFromDiskInode m) k) :
    ((s.volume.stored i).allotted b (putDentry .zero (dnum % 32).toNat d)).slot (if m = n then
    i else s.syncFromDiskInode m) k =
      s.volume.slot (s.syncFromDiskInode m) k := by
  obtain ⟨hdata, -, -⟩ := h.new_block hb
  have hlt := hdata.2
  by_cases h12 : (k / 32).toNat < 12
  · have hold : (s.syncFromDiskInode m).iDirectTable ⟨_, h12⟩ ≠ 0 := fun heq => hk ⟨h12, heq⟩
    have hptr : (if m = n then i else s.syncFromDiskInode m).iDirectTable ⟨_, h12⟩ =
        (s.syncFromDiskInode m).iDirectTable ⟨_, h12⟩ := by
      split_ifs with hmn
      · subst hmn
        have hindex : (⟨_, h12⟩ : Fin 12) ≠ ⟨_, hmajor⟩ :=
          fun heq => hold (by rw [heq]; exact hzero)
        rw [htable, Function.update_of_ne hindex]
      · rfl
    have hne : ((s.syncFromDiskInode m).iDirectTable ⟨_, h12⟩).toNat ≠ b := fun heq => by
      have hset := (h.data m _ hm hold).2
      rw [heq, (firstClear_eq_some.mp hb).2.1] at hset
      cases hset
    rw [Volume.slot_present h12 (hptr.symm ▸ hold), hptr, Volume.slot_present h12 hold]
    simp only [Volume.allotted, Function.update_of_ne hne]
    rfl
  · rw [Volume.slot_behind (Nat.not_lt.mp h12), Volume.slot_behind (Nat.not_lt.mp h12)]
    simp only [Volume.allotted, Function.update_of_ne (show 1048575 ≠ b by omega)]
    rfl

theorem grown_missing_iff {m k : UInt32} (hother : s.OtherSlot n dnum m k)
    (hk : Missing (s.syncFromDiskInode m) k) :
    ((s.volume.stored i).allotted b (putDentry .zero (dnum % 32).toNat d)).slot (if m = n then
    i else s.syncFromDiskInode m) k =
      s.volume.slot (s.syncFromDiskInode m) k ↔ k % 32 ≠ 0 := by
  obtain ⟨h12, hold⟩ := hk
  obtain ⟨-, hnat, hne⟩ := h.new_block hb
  have hmod := slot_mod_lt k
  have hplace : k % 32 ≠ 0 ↔ 0 < (k % 32).toNat := by
    rw [Nat.pos_iff_ne_zero, ne_eq, ne_eq, ← UInt32.toNat_inj]
    rfl
  rw [hplace, Volume.slot_missing h12 hold]
  by_cases hsame : m = n ∧ (k / 32).toNat = (dnum / 32).toNat
  · obtain ⟨rfl, hdiv⟩ := hsame
    have hslot : (k % 32).toNat ≠ (dnum % 32).toNat :=
      fun hmod => hother.2.2 ⟨rfl, slot_ext hdiv hmod⟩
    have hptr : i.iDirectTable ⟨_, h12⟩ = UInt32.ofNat b := by
      rw [htable, show (⟨_, h12⟩ : Fin 12) = ⟨_, hmajor⟩ from Fin.ext hdiv, Function.update_self]
    rw [if_pos rfl, Volume.slot_present h12 (hptr.symm ▸ hne), hptr, hnat]
    simp only [Volume.allotted, Function.update_self]
    rw [dentryAt_putDentry _ _ hmod, if_neg hslot, dentryAt_zero]
    obtain hz | hpos := Nat.eq_zero_or_pos (k % 32).toNat
    · rw [hz]
      exact iff_of_false (Ne.symm (dentryAt_superblockOf_ne_zero _ _)) (by omega)
    · exact iff_of_true (dentryAt_superblockOf _ _ hmod hpos).symm hpos
  · have hptr : (if m = n then i else s.syncFromDiskInode m).iDirectTable ⟨_, h12⟩ = 0 := by
      split_ifs with hmn
      · rw [htable, Function.update_of_ne fun heq => hsame ⟨hmn, Fin.mk.inj heq⟩, ← hmn, hold]
      · exact hold
    rw [Volume.slot_missing h12 hptr]
    obtain hz | hpos := Nat.eq_zero_or_pos (k % 32).toNat
    · rw [hz]
      exact iff_of_false (dentryAt_superblockOf_ne _ (sub_one_ne _)) (by omega)
    · rw [dentryAt_superblockOf _ _ hmod hpos, dentryAt_superblockOf _ _ hmod hpos]
      exact iff_of_true rfl hpos

end Grown

theorem writes_missing_iff (hn : s.IsDirectory n) (hslot : 2 ≤ dnum ∧
    dnum ≤ (s.syncFromDiskInode n).iFnum + 2)
    (hfree : ∃ b < 262144, s.blockbmp.bit b = false) (hmissing : Missing (s.syncFromDiskInode n)
    dnum) :
    s.WritesSlot n dnum d ↔ ∀ m k, s.OtherSlot n dnum m k → Missing (s.syncFromDiskInode m) k →
    k % 32 ≠ 0 := by
  obtain ⟨hmajor, hzero⟩ := hmissing
  obtain ⟨b₀, hb₀, hclear⟩ := hfree
  obtain ⟨b, hb⟩ := exists_firstClear_of_clear hb₀ hclear
  obtain ⟨hdata, hnat, -⟩ := h.new_block hb
  obtain ⟨i, hi⟩ : ∃ i, i = ((s.syncFromDiskInode n).point ⟨_, hmajor⟩
    (UInt32.ofNat b)).addSize.addEntry := ⟨_, rfl⟩
  have htable : i.iDirectTable = Function.update (s.syncFromDiskInode n).iDirectTable ⟨_, hmajor⟩
      (UInt32.ofNat b) := by
    rw [hi, Inode.addEntry_iDirectTable, Inode.addSize_iDirectTable, Inode.point_iDirectTable]
  have hwithin : Within dataBlocks i := fun k => by
    rw [htable, Function.update_apply]
    split_ifs
    · exact .inr (hnat.symm ▸ hdata)
    · exact h.within hn k
  have hind : i.iIndirectBlock1Ptr = 0 := by
    rw [hi]
    exact h.indirect n hn
  have hnum : i.iNum = (s.syncFromDiskInode n).iNum := by rw [hi]; rfl
  have hgrown := Volume.writeDentry_grown (v := s.volume) d h.tables (h.num_lt hn) hslot hmajor
    hzero hb hi
  rw [h.writesSlot_iff d (h.written hn d hgrown rfl hnum hwithin hind), and_iff_right
    (h.grown_self d hb hmajor htable)]
  refine forall₃_congr fun m k hother => ?_
  by_cases hk : Missing (s.syncFromDiskInode m) k
  · rw [forall_prop_of_true hk]
    exact h.grown_missing_iff d hb hmajor hzero htable hother hk
  · exact iff_of_true (h.grown_kept d hb hmajor hzero htable hother.1 hk) fun hmissing =>
      absurd hmissing hk

end FileSys.Directories

/-- If slot `dnum` is in a direct block that is missing, no other slot at the start of a block is;
and if it is behind the direct blocks, every other slot there at the same place of a block has entry
`d` already. -/
def FileSys.KeepsApart (s : FileSys) (n dnum : UInt32) (d : Dentry) : Prop :=
  ∀ m k, s.OtherSlot n dnum m k →
  (FileSys.Missing (s.syncFromDiskInode n) dnum → FileSys.Missing (s.syncFromDiskInode m) k →
    k % 32 ≠ 0) ∧
    (FileSys.Behind dnum → FileSys.Behind k → k % 32 = dnum % 32 →
      s.readDentry (s.syncFromDiskInode m) k = .ok d)

theorem slots_independent_iff {s : FileSys} (h : s.Directories)
    (hfree : ∃ b < 262144, s.blockbmp.bit b = false)
    {n : UInt32} (hn : s.IsDirectory n) {dnum : UInt32} (hslot : 2 ≤ dnum ∧
    dnum ≤ (s.syncFromDiskInode n).iFnum + 2)
    (d : Dentry) : s.WritesSlot n dnum d ↔ s.KeepsApart n dnum d := by
  unfold FileSys.KeepsApart
  by_cases hmajor : (dnum / 32).toNat < 12
  · have hfront : ¬ FileSys.Behind dnum := Nat.not_le.mpr hmajor
    by_cases hzero : (s.syncFromDiskInode n).iDirectTable ⟨_, hmajor⟩ = 0
    · have hmissing : FileSys.Missing (s.syncFromDiskInode n) dnum := ⟨hmajor, hzero⟩
      rw [h.writes_missing_iff d hn hslot hfree hmissing]
      exact forall₃_congr fun m k hother =>
        ⟨fun hk => ⟨fun _ => hk, fun hback => absurd hback hfront⟩, fun hk => hk.1 hmissing⟩
    · exact iff_of_true (h.writes_present hn d hslot hmajor hzero) fun m k _ =>
        ⟨fun hmissing => absurd hmissing.2 hzero, fun hback => absurd hback hfront⟩
  · have hback : FileSys.Behind dnum := Nat.not_lt.mp hmajor
    rw [h.writes_behind_iff hn d hslot hback]
    exact forall₃_congr fun m k hother =>
      ⟨fun hk => ⟨fun hmissing => absurd hmissing.1 hmajor, fun _ => hk⟩, fun hk => hk.2 hback⟩

section Crowded
variable {s t : FileSys} {e : Env} {f : UInt32}

def crowded (e : Env) (f : UInt32) : Inode := { rootOf e with iFnum := f }

variable (ht : Shows t ((Volume.mkfs e s).stored (crowded e f)))
include ht

theorem crowded_record : t.syncFromDiskInode 0 = crowded e f := by
  have hnum : (crowded e f).iNum.toNat = 0 := rfl
  rw [ht.load (Volume.load_of_lt (by decide))]
  simp only [Volume.stored, hnum, UInt32.reduceToNat, Function.update_self]

theorem crowded_isDirectory {q : UInt32} : t.IsDirectory q ↔ q = 0 := by
  constructor
  · intro hq
    have hbit := hq.allocated
    rw [← ht.inodeBit _ hq.lt] at hbit
    exact UInt32.toNat_inj.mp (of_decide_eq_true hbit)
  · rintro rfl
    refine ⟨by decide, ?_, ?_⟩
    · rw [← ht.inodeBit _ (by decide)]
      rfl
    · rw [crowded_record ht]
      exact (by decide : sIsdir (sIfdir ||| 0o755) = true)

omit ht in
theorem crowded_table {k : Fin 12} (hk : (crowded e f).iDirectTable k ≠ 0) :
    k = 0 ∧ ((crowded e f).iDirectTable k).toNat = 266 := by
  have hzero : k = 0 := by
    by_contra hne
    exact hk (by simp [crowded, rootOf, newInode, Function.update_of_ne hne])
  rw [hzero]
  exact ⟨rfl, block_rootOf (e := e)⟩

theorem directories_crowded : t.Directories := by
  have hrecord := crowded_record ht
  refine ⟨ht.mounted (well_mkfs e s).low, fun q hq => ?_, fun q k hq hne => ?_, fun q k q' k' hq hq'
    hne heq => ?_, fun q hq => ?_⟩
  · obtain rfl := (crowded_isDirectory ht).mp hq
    rw [hrecord]
    rfl
  · obtain rfl := (crowded_isDirectory ht).mp hq
    rw [hrecord] at hne ⊢
    rw [(crowded_table hne).2, ← ht.blockBit 266 (by omega)]
    exact ⟨⟨le_rfl, by omega⟩, rfl⟩
  · obtain rfl := (crowded_isDirectory ht).mp hq
    obtain rfl := (crowded_isDirectory ht).mp hq'
    rw [hrecord] at hne heq
    exact ⟨rfl, (crowded_table hne).1.trans (crowded_table (heq ▸ hne)).1.symm⟩
  · obtain rfl := (crowded_isDirectory ht).mp hq
    rw [hrecord]
    rfl

theorem crowded_free : ∃ b < 262144, t.blockbmp.bit b = false :=
  ⟨267, by omega, by rw [← ht.blockBit 267 (by omega)]; rfl⟩

end Crowded

theorem exists_crowded (f : UInt32) :
    ∃ t, Shows t ((Volume.mkfs .blank .blank).stored (crowded .blank f)) := by
  obtain ⟨t, -, hshows⟩ := doMkfs_shows .blank .blank
  exact ⟨_, hshows.store (i := crowded .blank f) (if_pos (Nat.succ_pos 8191))⟩

/-- With a missing second block the first entry there is written alone, the second is not. -/
theorem slots_independent_iff_next_block : ∃ s : FileSys, s.Directories ∧ s.IsDirectory 0 ∧
    (s.syncFromDiskInode 0).iFnum = 40 ∧ s.WritesSlot 0 32 (Dentry.fill .zero 1 .a) ∧
    ¬ s.WritesSlot 0 33 (Dentry.fill .zero 1 .a) := by
  obtain ⟨t, ht⟩ := exists_crowded 40
  have hdirs := directories_crowded ht
  have hdir := (crowded_isDirectory ht).mpr rfl
  have hrecord := crowded_record ht
  have hfnum : (t.syncFromDiskInode 0).iFnum = 40 := by
    rw [hrecord]
    rfl
  have hmissing : ∀ k, FileSys.Missing (t.syncFromDiskInode 0) k → 32 ≤ k.toNat := by
    rintro k ⟨h12, hzero⟩
    by_contra hlt
    have hmajor : (k / 32).toNat = 0 := by
      rw [UInt32.toNat_div]
      exact Nat.div_eq_of_lt (Nat.not_le.mp hlt)
    rw [hrecord, show (⟨_, h12⟩ : Fin 12) = 0 from Fin.ext hmajor] at hzero
    exact rootOf_direct_zero .blank hzero
  have hsecond : (t.syncFromDiskInode 0).iDirectTable 1 = 0 := by
    rw [hrecord]
    exact rootOf_direct_of_ne .blank (show (1 : Fin 12) ≠ 0 by decide)
  refine ⟨t, hdirs, hdir, hfnum, ?_, ?_⟩
  · rw [slots_independent_iff hdirs (crowded_free ht) hdir (by rw [hfnum]; decide)]
    intro m k hother
    obtain ⟨hm, hk, hne⟩ := hother
    obtain rfl := (crowded_isDirectory ht).mp hm
    refine ⟨fun _ hmiss heq => hne ⟨rfl, ?_⟩, fun hbehind => absurd hbehind (by decide)⟩
    have hge := hmissing k hmiss
    rw [hfnum, UInt32.lt_iff_toNat_lt] at hk
    rw [← UInt32.toNat_inj, UInt32.toNat_mod] at heq
    simp only [UInt32.reduceToNat, UInt32.reduceAdd] at hk heq
    exact UInt32.toNat_inj.mp (show k.toNat = 32 by omega)
  · rw [slots_independent_iff hdirs (crowded_free ht) hdir (by rw [hfnum]; decide)]
    intro hkeeps
    exact (hkeeps 0 32 ⟨hdir, by rw [hfnum]; decide, by decide⟩).1 ⟨by decide, hsecond⟩
      ⟨by decide, hsecond⟩ (by decide)

theorem slot_overwritten :
    ∃ s : FileSys, s.Directories ∧ (∃ b < 262144, s.blockbmp.bit b = false) ∧ s.IsDirectory 0 ∧
    (s.syncFromDiskInode 0).iFnum = 415 ∧ s.readDentry (s.syncFromDiskInode 0) 384 = .ok .zero ∧
    ∃ i t, s.writeDentry (s.syncFromDiskInode 0) 416 (Dentry.fill .zero 1 .a) = .ok (i, t) ∧
      t.readDentry i 384 = .ok (Dentry.fill .zero 1 .a) ∧ ¬ s.WritesSlot 0 416 (Dentry.fill .zero 1
      .a) := by
  obtain ⟨s, hs⟩ := exists_crowded 415
  have hdirs := directories_crowded hs
  have hdir := (crowded_isDirectory hs).mpr rfl
  have hrecord := crowded_record hs
  have hslot : (2 : UInt32) ≤ 416 ∧ 416 ≤ (s.syncFromDiskInode 0).iFnum + 2 := by
    rw [hrecord]
    exact (by decide : (2 : UInt32) ≤ 416 ∧ (416 : UInt32) ≤ 415 + 2)
  have hother : s.OtherSlot 0 416 0 384 := by
    refine ⟨hdir, ?_, by decide⟩
    rw [hrecord]
    exact (by decide : (384 : UInt32) < 415 + 2)
  have hempty : s.readDentry (s.syncFromDiskInode 0) 384 = .ok .zero := by
    have hkept : ((Volume.mkfs .blank .blank).stored (crowded .blank 415)).block 1048575 =
        FileSys.blank.readBlock 1048575 := by
      simp [Volume.stored, Volume.mkfs]
    have hblock : FileSys.blank.readBlock 1048575 = .zero := by
      apply Buffer.ext
      intro k hk
      rw [FileSys.readBlock, Device.read, Buffer.get_ofFn, if_pos hk, Buffer.get_zero]
      rfl
    rw [hs.readDentry (hdirs.within hdir) (hdirs.indirect 0 hdir), Volume.slot_behind (by decide),
      hkept, hblock, dentryAt_zero]
  have hlost := Volume.writeDentry_lost (v := (Volume.mkfs .blank .blank).stored
    (crowded .blank 415)) (Dentry.fill .zero 1 .a)
    (hdirs.num_lt hdir) hslot (by decide) (hdirs.indirect 0 hdir)
  obtain ⟨⟨i, t⟩, ht, hi, hshows⟩ := (hs.writeDentry _ 416 (Dentry.fill .zero 1 .a)).exists_ok hlost
  rw [show i = (s.syncFromDiskInode 0).addEntry from hi] at ht
  dsimp only at hshows
  refine ⟨s, hdirs, crowded_free hs, hdir, by rw [hrecord]; rfl, hempty, _, t, ht, ?_,
    fun hwrites => ?_⟩
  · rw [hshows.readDentry (i := (s.syncFromDiskInode 0).addEntry) (hdirs.within hdir)
      (hdirs.indirect 0 hdir),
      Volume.slot_behind (by decide)]
    simp only [Volume.wrote, Function.update_self]
    rw [dentryAt_putDentry _ _ (by decide), if_pos (by decide)]
  · have hsame := (hdirs.writes_behind_iff hdir _ hslot (by decide)).mp hwrites 0 384 hother
      (by decide) (by decide)
    rw [hempty] at hsame
    exact absurd (congrArg Dentry.dInum (Except.ok.inj hsame))
      (by rw [dInum_zero, dInum_fill]; decide)

end Ucas.Fs

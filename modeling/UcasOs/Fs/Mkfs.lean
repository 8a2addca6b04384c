import UcasOs.Fs.RefineOps
import UcasOs.Lib.Simulation

/-! The volume that `do_mkfs` leaves, whatever was on the card before, and runs from there. -/

namespace Ucas.Fs
open Ucas.Lib Relation

def rootOf (e : Env) : Inode := newInode e (sIfdir ||| 0o755) 4096 266 0

theorem rootOf_direct_zero (e : Env) : (rootOf e).iDirectTable 0 ≠ 0 :=
  (by decide : (266 : UInt32) ≠ 0)

theorem rootOf_direct_of_ne (e : Env) {k : Fin 12} (hk : k ≠ 0) :
    (rootOf e).iDirectTable k = 0 := by
  simp [rootOf, newInode, Function.update_of_ne hk]

def Volume.mkfs (e : Env) (s : FileSys) : Volume where
  toSession := { s.toSession with
    rootInode := rootOf e, currentDir := rootOf e, fileDescriptorTable := fun _ => .zero }
  inode := Function.update (fun q => s.syncFromDiskInode (UInt32.ofNat q)) 0 (rootOf e)
  block := Function.update (fun k => s.readBlock (UInt32.ofNat k)) 266 (directoryBlock 0 0)
  blockBit k := decide (k ≤ 266)
  inodeBit q := decide (q = 0)
  freeBlocks := 262144 - 266 - 1
  freeInodes := 8192 - 1

theorem mkfsSuperblock_eq : mkfsSuperblock = superblockOf (262144 - 266) 8192 := by
  have h24 : mkfsSuperblock.word 24 = 262144 - 266 := by
    simp (disch := omega) only [mkfsSuperblock, Buffer.word_setWord_of_disjoint,
      Buffer.word_setWord]
  have h20 : mkfsSuperblock.word 20 = 8192 := by
    simp (disch := omega) only [mkfsSuperblock, Buffer.word_setWord_of_disjoint,
      Buffer.word_setWord]
  rw [superblockOf, ← h20, Buffer.setWord_word, ← h24, Buffer.setWord_word]

theorem foldlM_setBlockBmp (s : FileSys) {n : Nat} (hn : n ≤ 262144) :
    ∃ b : Buffer 32768, (List.range n).foldlM (fun s i => s.setBlockBmp (UInt32.ofNat i)) s =
        .ok { s with blockbmp := b } ∧ ∀ k, b.bit k = (decide (k < n) || s.blockbmp.bit k) := by
  induction n with
  | zero => exact ⟨s.blockbmp, rfl, by simp⟩
  | succ n ih =>
    obtain ⟨b, hfold, hbit⟩ := ih (by omega)
    have hnat : (UInt32.ofNat n).toNat = n := by rw [UInt32.toNat_ofNat']; omega
    refine ⟨b.setBit n, ?_, ?_⟩
    · have hset : { s with blockbmp := b }.setBlockBmp (UInt32.ofNat n) =
          .ok { s with blockbmp := b.setBit n } := by
        rw [FileSys.setBlockBmp, hnat, if_pos (by omega)]
      rw [List.range_succ, List.foldlM_append, hfold, ok_bind, List.foldlM_cons, hset, ok_bind]
      rfl
    · intro k
      rw [Buffer.bit_setBit _ _ (by omega), hbit, ← Bool.or_assoc, ← Bool.decide_or]
      congr 2
      simp only [eq_iff_iff]
      omega

theorem shows_clearTables (s : FileSys) : Shows s.clearTables
    { toSession := s.toSession
      inode := fun q => s.syncFromDiskInode (UInt32.ofNat q)
      block := fun k => s.readBlock (UInt32.ofNat k)
      blockBit := fun _ => false
      inodeBit := fun _ => false
      freeBlocks := 262144 - 266
      freeInodes := 8192 } := by
  unfold FileSys.clearTables
  dsimp only
  generalize ht : ({ s with superblock := .zero, blockbmp := .zero, inodebmp := .zero } : FileSys) =
    t
  have hbmp := FileSys.sameMemory_syncToDiskBlockBmp t
  have hibmp : FileSys.SameMemory t t.syncToDiskBlockBmp.syncToDiskInodeBmp :=
    hbmp.trans (FileSys.sameMemory_writeBlock _ _ _)
  generalize hu : t.syncToDiskBlockBmp.syncToDiskInodeBmp = u at hibmp
  have hreadu : ∀ p, u.readBlock p = if 1 ≤ blockKey p ∧ blockKey p ≤ 9 then .zero else s.readBlock
      p := by
    intro p
    have hcard : t.readBlock p = s.readBlock p := by
      rw [← ht]
      rfl
    have hslice : ∀ o, t.blockbmp.slice o 4096 = .zero := by
      intro o
      rw [← ht]
      ext k hk
      rw [Buffer.get_slice _ _ hk, Buffer.get_zero, Buffer.get_zero]
    have hzero : t.syncToDiskBlockBmp.inodebmp = .zero := by
      rw [hbmp.inodebmp, ← ht]
    rw [← hu, FileSys.syncToDiskInodeBmp, FileSys.readBlock_writeBlock, blockKey_nine,
      FileSys.readBlock_syncToDiskBlockBmp, hslice, hzero, hcard]
    split_ifs <;> first | rfl | omega
  have hm := FileSys.sameMemory_writeBlock { u with superblock := mkfsSuperblock } 0 mkfsSuperblock
  have hread : ∀ p, { u with superblock := mkfsSuperblock }.syncToDiskSuperblock.readBlock p =
      if blockKey p = 0 then mkfsSuperblock else u.readBlock p := by
    intro p
    rw [FileSys.syncToDiskSuperblock, FileSys.readBlock_writeBlock, blockKey_zero]
    rfl
  have hblockbmp : { u with superblock := mkfsSuperblock }.syncToDiskSuperblock.blockbmp = .zero :=
      by
    refine hm.blockbmp.trans (hibmp.blockbmp.trans ?_)
    rw [← ht]
  have hinodebmp : { u with superblock := mkfsSuperblock }.syncToDiskSuperblock.inodebmp = .zero :=
      by
    refine hm.inodebmp.trans (hibmp.inodebmp.trans ?_)
    rw [← ht]
  constructor
  · constructor
    · rw [hread, if_pos blockKey_zero]
      exact hm.superblock.symm
    · intro k hk
      rw [hread, hreadu, blockKey_ofNat (by omega), if_neg (by omega), if_pos (by omega), hblockbmp]
      ext j hj
      rw [Buffer.get_slice _ _ hj, Buffer.get_zero, Buffer.get_zero]
    · rw [hread, hreadu, blockKey_nine, if_neg (by omega), if_pos (by omega), hinodebmp]
  · rw [← mkfsSuperblock_eq]
    exact hm.superblock
  · intro k hk
    rw [hinodebmp, Buffer.get_zero]
  · intro k hk
    rw [hblockbmp, Buffer.bit_zero]
  · intro k hk
    rw [hinodebmp, Buffer.bit_zero]
  · intro q hq
    have hnat : (UInt32.ofNat q).toNat = q := by rw [UInt32.toNat_ofNat']; omega
    have hkey := blockKey_inodeBlock (show (UInt32.ofNat q).toNat < 8192 by omega)
    symm
    apply FileSys.syncFromDiskInode_congr
    rw [hread, hreadu, if_neg (by omega), if_neg (by omega)]
  · intro k hk hk'
    rw [hread, hreadu, blockKey_ofNat hk', if_neg (by omega), if_neg (by omega)]
  · refine hm.session.trans (hibmp.session.trans ?_)
    rw [← ht]

theorem Shows.reserveTables {s : FileSys} {v : Volume} (h : Shows s v)
    (hbits : ∀ k, v.blockBit k = false) :
    ∃ t, s.reserveTables = .ok t ∧ Shows t { v with
      blockBit := fun k => decide (k ≤ 266), inodeBit := Function.update v.inodeBit 0 true
      freeBlocks := v.freeBlocks - 1, freeInodes := v.freeInodes - 1 } := by
  obtain ⟨b, hfold, hbit⟩ := foldlM_setBlockBmp s (n := 266) (by omega)
  unfold FileSys.reserveTables
  rw [hfold, ok_bind]
  dsimp only
  have hlow : ∀ k, k < 262144 → decide (k < 266) = b.bit k := fun k hk => by
    rw [hbit, ← h.blockBit k hk, hbits, Bool.or_false]
  have htables := h.putBlockbmp hlow
  generalize { s with blockbmp := b }.syncToDiskBlockBmp = t at htables
  have hset0 : t.setInodeBmp 0 = .ok { t with inodebmp := t.inodebmp.setBit 0 } := by
    simp [FileSys.setInodeBmp]
  have hinode := (htables.putInodebmp (b := t.inodebmp.setBit 0) (htables.tail_set (q := 0)
    (by omega) _)
    (Buffer.update_eq_setBit (q := 0) (by omega) htables.inodeBit)).countInode
  rw [hset0, ok_bind]
  generalize (FileSys.syncToDiskInodeBmp _).countInode = t at hinode
  have hset1 : t.setBlockBmp 266 = .ok { t with blockbmp := t.blockbmp.setBit 266 } := by
    simp [FileSys.setBlockBmp]
  have hblock := (hinode.putBlockbmp
    (Buffer.update_eq_setBit (q := 266) (by omega) hinode.blockBit)).countBlock
  have hupto : (fun k => decide (k ≤ 266)) = Function.update (fun k => decide (k < 266)) 266
      true := by
    funext k
    by_cases hk : k = 266
    · simp [hk]
    · rw [Function.update_of_ne hk, decide_eq_decide]
      omega
  rw [hset1, ok_bind, hupto]
  exact ⟨_, rfl, hblock⟩

theorem doMkfs_shows (e : Env) (s : FileSys) :
    ∃ t, s.doMkfs e = .ok t ∧ Shows t (Volume.mkfs e s) := by
  have hclear :=
    shows_clearTables (s.inSession fun x => { x with fileDescriptorTable := fun _ => .zero })
  unfold FileSys.doMkfs
  dsimp only
  generalize FileSys.clearTables _ = t at hclear
  obtain ⟨u, hreserve, hu⟩ := hclear.reserveTables fun _ => rfl
  rw [hreserve, ok_bind]
  have hnum : (rootOf e).iNum.toNat = 0 := by simp [rootOf, newInode]
  have hroot := (hu.inSession fun x => { x with rootInode := rootOf e }).store
    (i := rootOf e) (if_pos (by omega))
  have hdir :=
    (hroot.write (p := 266) (b := directoryBlock 0 0) (if_pos (by simp [blockKey]))).inSession
    fun x => { x with currentDir := rootOf e }
  have hinodes : (fun q => decide (q = 0)) = Function.update (fun _ => false) 0 true := by
    funext q
    by_cases hq : q = 0 <;> simp [hq]
  rw [show blockKey 266 = 266 by simp [blockKey], hnum] at hdir
  refine ⟨_, rfl, ?_⟩
  unfold Volume.mkfs
  rw [hinodes]
  exact hdir

end Ucas.Fs

import UcasOs.Fs.Volume

/-! When a file system shows a volume: the three buffers agree with their blocks on the card, and
the bits, inodes and blocks are those of the volume. Each function below the operations keeps this
up. -/

namespace Ucas.Fs
open Ucas.Lib

theorem blockKey_lt (p : UInt32) : blockKey p < 1048576 := Nat.mod_lt _ (by omega)

@[simp] theorem blockKey_ofNat {k : Nat} (h : k < 1048576) : blockKey (UInt32.ofNat k) = k := by
  rw [blockKey, UInt32.toNat_ofNat', Nat.mod_eq_of_lt (a := k) (by omega), Nat.mod_eq_of_lt h]

@[simp] theorem blockKey_zero : blockKey 0 = 0 := by simp [blockKey]

@[simp] theorem blockKey_nine : blockKey 9 = 9 := by simp [blockKey]

theorem blockKey_inodeBlock_notFound : blockKey (FileSys.inodeBlock notFound) = 9 := by
  simp [blockKey, FileSys.inodeBlock, notFound]

theorem sdOffset_toNat (p : UInt32) :
    (FileSys.sdOffset p).toNat = (4096 * blockKey p + 536870912) % 4294967296 := by
  simp only [FileSys.sdOffset, fsStartSdOffset, blockKey, UInt32.toNat_add, UInt32.toNat_mul,
    UInt32.reduceToNat]
  omega

namespace FileSys
variable (s : FileSys)

theorem readBlock_writeBlock (p q : UInt32) (b : Block) :
    (s.writeBlock q b).readBlock p = if blockKey p = blockKey q then b else s.readBlock p := by
  have hp := sdOffset_toNat p
  have hq := sdOffset_toNat q
  have hkp := blockKey_lt p
  have hkq := blockKey_lt q
  rw [readBlock, writeBlock]
  dsimp only
  split_ifs with h
  · rw [UInt32.toNat_inj.mp (by omega : (sdOffset p).toNat = (sdOffset q).toNat)]
    exact Device.read_write _ _ _ (by omega)
  · have hdiff : (sdOffset p - sdOffset q).toNat =
        (4294967296 - (sdOffset q).toNat + (sdOffset p).toNat) % 4294967296 := UInt32.toNat_sub ..
    exact Device.read_write_of_disjoint _ _ (by omega) (by omega)

theorem readBlock_congr {p q : UInt32} (h : blockKey p = blockKey q) :
    s.readBlock p = s.readBlock q := by
  have hoff : sdOffset p = sdOffset q := by
    apply UInt32.toNat_inj.mp
    rw [sdOffset_toNat, sdOffset_toNat, h]
  rw [readBlock, readBlock, hoff]

theorem readBlock_eq_ofNat (p : UInt32) : s.readBlock p = s.readBlock (UInt32.ofNat (blockKey p)) :=
  s.readBlock_congr (blockKey_ofNat (blockKey_lt p)).symm

structure SameMemory (s t : FileSys) : Prop where
  superblock : t.superblock = s.superblock
  blockbmp : t.blockbmp = s.blockbmp
  inodebmp : t.inodebmp = s.inodebmp
  session : t.toSession = s.toSession

theorem sameMemory_writeBlock (p : UInt32) (b : Block) : SameMemory s (s.writeBlock p b) := by
  unfold writeBlock
  exact ⟨rfl, rfl, rfl, rfl⟩

theorem SameMemory.trans {s t u : FileSys} (h : SameMemory s t) (h' : SameMemory t u) :
    SameMemory s u :=
  ⟨h'.superblock.trans h.superblock, h'.blockbmp.trans h.blockbmp, h'.inodebmp.trans h.inodebmp,
    h'.session.trans h.session⟩

theorem sameMemory_foldl {β : Type*} {f : FileSys → β → FileSys} (hf : ∀ t x, SameMemory t (f t x))
    (l : List β) (t : FileSys) : SameMemory t (l.foldl f t) := by
  induction l generalizing t with
  | nil => exact ⟨rfl, rfl, rfl, rfl⟩
  | cons x l ih => exact (hf t x).trans (ih _)

theorem readBlock_writeBlocks (t : FileSys) (n : Nat) (hn : n ≤ 8) (p : UInt32) :
    ((List.range n).foldl (fun u i => u.writeBlock (UInt32.ofNat (1 + i))
      (s.blockbmp.slice (4096 * i) 4096)) t).readBlock p =
    if 1 ≤ blockKey p ∧ blockKey p ≤ n then s.blockbmp.slice (4096 * (blockKey p - 1)) 4096
    else t.readBlock p := by
  induction n with
  | zero => simp; omega
  | succ n ih =>
    rw [List.range_succ, List.foldl_append, List.foldl_cons, List.foldl_nil, readBlock_writeBlock,
      ih (by omega), blockKey_ofNat (by omega)]
    split_ifs with h1 h2 h3 h4 h5
    · rw [show blockKey p - 1 = n by omega]
    · omega
    · rfl
    · omega
    · omega
    · rfl

theorem readBlock_syncToDiskBlockBmp (p : UInt32) : s.syncToDiskBlockBmp.readBlock p =
    if 1 ≤ blockKey p ∧ blockKey p ≤ 8 then s.blockbmp.slice (4096 * (blockKey p - 1)) 4096
    else s.readBlock p := s.readBlock_writeBlocks s 8 le_rfl p

theorem sameMemory_syncToDiskBlockBmp : SameMemory s s.syncToDiskBlockBmp :=
  sameMemory_foldl (fun t _ => t.sameMemory_writeBlock _ _) _ _

end FileSys

structure Synced (s : FileSys) : Prop where
  superblock : s.readBlock 0 = s.superblock
  blockbmp : ∀ k, k < 8 → s.readBlock (UInt32.ofNat (1 + k)) = s.blockbmp.slice (4096 * k) 4096
  inodebmp : s.readBlock 9 = s.inodebmp

structure Shows (s : FileSys) (v : Volume) : Prop extends Synced s where
  counters : s.superblock = superblockOf v.freeBlocks v.freeInodes
  tail : ∀ k, 1024 ≤ k → s.inodebmp.get k = 0
  blockBit : ∀ k, k < 262144 → v.blockBit k = s.blockbmp.bit k
  inodeBit : ∀ k, k < 8192 → v.inodeBit k = s.inodebmp.bit k
  inode : ∀ q, q < 8192 → v.inode q = s.syncFromDiskInode (UInt32.ofNat q)
  block : ∀ k, 266 ≤ k → k < 1048576 → v.block k = s.readBlock (UInt32.ofNat k)
  session : s.toSession = v.toSession

theorem blockKey_inodeBlock {inum : UInt32} (h : inum.toNat < 8192) :
    blockKey (FileSys.inodeBlock inum) = 10 + inum.toNat / 32 := by
  simp only [blockKey, FileSys.inodeBlock, UInt32.toNat_add, UInt32.toNat_div, UInt32.reduceToNat]
  omega

theorem FileSys.syncFromDiskInode_inodeKey (s : FileSys) (inum : UInt32) :
    s.syncFromDiskInode (UInt32.ofNat (inodeKey inum)) = s.syncFromDiskInode inum := by
  have hnat : (UInt32.ofNat (inodeKey inum)).toNat = inum.toNat % 33554432 := by
    rw [inodeKey, UInt32.toNat_ofNat']
    omega
  have hslot : (UInt32.ofNat (inodeKey inum) % 32).toNat = (inum % 32).toNat := by
    simp only [UInt32.toNat_mod, UInt32.reduceToNat, hnat]
    omega
  have hblock : blockKey (inodeBlock (UInt32.ofNat (inodeKey inum))) = blockKey (inodeBlock inum) :=
      by
    have := inum.toNat_lt
    simp only [blockKey, inodeBlock, UInt32.toNat_add, UInt32.toNat_div, UInt32.reduceToNat, hnat]
    omega
  rw [syncFromDiskInode, syncFromDiskInode, s.readBlock_congr hblock, hslot]

theorem FileSys.syncFromDiskInode_congr {s t : FileSys} {inum : UInt32}
    (h : t.readBlock (inodeBlock inum) = s.readBlock (inodeBlock inum)) :
    t.syncFromDiskInode inum = s.syncFromDiskInode inum := by
  rw [syncFromDiskInode, syncFromDiskInode, h]

theorem FileSys.syncFromDiskInode_syncToDiskInode (s : FileSys) {i : Inode} {q : UInt32}
    (hi : i.iNum.toNat < 8192)
    (hq : q.toNat < 8192) :
    (s.syncToDiskInode i).syncFromDiskInode q = if q = i.iNum then i else s.syncFromDiskInode
      q := by
  have hkey := blockKey_inodeBlock hi
  have hkey' := blockKey_inodeBlock hq
  have hslot : ∀ n : UInt32, (n % 32).toNat = n.toNat % 32 := fun n => by simp
  by_cases hblock : q.toNat / 32 = i.iNum.toNat / 32
  · rw [syncFromDiskInode, syncToDiskInode, readBlock_writeBlock, if_pos (by omega), hslot, hslot]
    split_ifs with heq
    · rw [heq, Buffer.slice_blit _ _ (by omega), Inode.ofBuffer_toBuffer]
    · have hne : q.toNat ≠ i.iNum.toNat := UInt32.toNat_inj.ne.mpr heq
      rw [Buffer.slice_blit_of_disjoint _ _ (by omega) (by omega), syncFromDiskInode, hslot,
        s.readBlock_congr (show blockKey (inodeBlock q) = blockKey (inodeBlock i.iNum) by omega)]
  · have hne : q ≠ i.iNum := fun heq => hblock (by rw [heq])
    rw [if_neg hne]
    refine syncFromDiskInode_congr ?_
    rw [syncToDiskInode, readBlock_writeBlock, if_neg (by omega)]

theorem inode_table_update (s : FileSys) (p : Inode) (hp : p.iNum.toNat < inodeNum) :
    (∀ q : UInt32, q.toNat < inodeNum →
      (s.syncToDiskInode p).syncFromDiskInode q = if q = p.iNum then p else s.syncFromDiskInode q) ∧
    ∀ a : UInt32, (s.syncToDiskInode p).sd a ≠ s.sd a →
      FileSys.sdOffset 10 ≤ a ∧ a < FileSys.sdOffset (UInt32.ofNat dataBlockIndex) := by
  refine ⟨fun q hq => s.syncFromDiskInode_syncToDiskInode hp hq, fun a hne => ?_⟩
  have hlt : p.iNum.toNat < 8192 := hp
  have hkey := blockKey_inodeBlock hp
  have hoffset := sdOffset_toNat (FileSys.inodeBlock p.iNum)
  -- the write touches 4096 bytes from the offset of the record's block on
  have hin : (a - FileSys.sdOffset (FileSys.inodeBlock p.iNum)).toNat < 4096 := by
    by_contra hout
    exact hne (if_neg hout)
  have hsub := UInt32.toNat_sub a (FileSys.sdOffset (FileSys.inodeBlock p.iNum))
  have ha := a.toNat_lt
  rw [UInt32.le_iff_toNat_le, UInt32.lt_iff_toNat_lt, show (FileSys.sdOffset 10).toNat = 536911872
    from rfl,
    show (FileSys.sdOffset (UInt32.ofNat dataBlockIndex)).toNat = 537960448 from rfl]
  omega

theorem inode_table_update_three : ∃ p : Inode, p.iNum = 3 ∧
    (FileSys.blank.syncToDiskInode p).syncFromDiskInode 3 = p ∧
    (FileSys.blank.syncToDiskInode p).syncFromDiskInode 4 = FileSys.blank.syncFromDiskInode 4 := by
  have h := (inode_table_update .blank { Inode.ofBuffer .zero with iNum := 3 } (by decide)).1
  exact ⟨_, rfl, h 3 (by decide), h 4 (by decide)⟩

namespace Shows
variable {s : FileSys} {v : Volume}

theorem read (h : Shows s v) {p : UInt32} {b : Block} (hv : v.read p = .ok b) :
    s.readBlock p = b := by
  unfold Volume.read at hv
  have hp := blockKey_lt p
  split_ifs at hv with h1 h2
  · rw [s.readBlock_eq_ofNat, ← h.block _ h1 hp, Except.ok.inj hv]
  · rw [s.readBlock_congr (q := 0) (by simpa using h2), h.superblock, h.counters, Except.ok.inj hv]

theorem load (h : Shows s v) {n : UInt32} {i : Inode} (hv : v.load n = .ok i) :
    s.syncFromDiskInode n = i := by
  unfold Volume.load at hv
  split_ifs at hv with h1 h2
  · rw [← Except.ok.inj hv, h.inode _ h1, s.syncFromDiskInode_inodeKey]
  · subst h2
    rw [← Except.ok.inj hv, FileSys.syncFromDiskInode, s.readBlock_congr (q := 9)
      (by simp [blockKey_inodeBlock_notFound]), h.inodebmp,
      zeroInode]
    congr 1
    apply Buffer.ext
    intro k hk
    rw [Buffer.get_slice _ _ hk, Buffer.get_zero]
    have hslot : (notFound % 32).toNat = 31 := by simp [notFound]
    exact h.tail (128 * (notFound % 32).toNat + k) (by omega)

theorem of_sameMemory (h : Shows s v) {t : FileSys} (hm : FileSys.SameMemory s t)
    (hlow : ∀ q, blockKey q < 10 → t.readBlock q = s.readBlock q) {inode : Nat → Inode}
    {block : Nat → Block}
    (hinode : ∀ q, q < 8192 → inode q = t.syncFromDiskInode (UInt32.ofNat q))
    (hblock : ∀ k, 266 ≤ k → k < 1048576 → block k = t.readBlock (UInt32.ofNat k)) :
    Shows t { v with inode := inode, block := block } := by
  constructor
  · constructor
    · rw [hlow 0 (by simp), hm.superblock, h.superblock]
    · intro k hk
      rw [hlow _ (by rw [blockKey_ofNat (by omega)]; omega), hm.blockbmp, h.blockbmp k hk]
    · rw [hlow 9 (by simp), hm.inodebmp, h.inodebmp]
  · rw [hm.superblock, h.counters]
  · rw [hm.inodebmp]
    exact h.tail
  · rw [hm.blockbmp]
    exact h.blockBit
  · rw [hm.inodebmp]
    exact h.inodeBit
  · exact hinode
  · exact hblock
  · rw [hm.session]
    exact h.session

theorem write (h : Shows s v) {p : UInt32} {b : Block} {v' : Volume} (hv : v.write p b = .ok v') :
    Shows (s.writeBlock p b) v' := by
  unfold Volume.write at hv
  split_ifs at hv with hp
  obtain rfl := Except.ok.inj hv
  have hread : ∀ q, blockKey q < 266 → (s.writeBlock p b).readBlock q = s.readBlock q := by
    intro q hq
    rw [FileSys.readBlock_writeBlock, if_neg (by omega)]
  apply h.of_sameMemory (s.sameMemory_writeBlock p b) fun q hq => hread q (by omega)
  · intro q hq
    have hnat : (UInt32.ofNat q).toNat = q := by rw [UInt32.toNat_ofNat']; omega
    rw [FileSys.syncFromDiskInode_congr (hread _ (by rw [blockKey_inodeBlock (by omega)]; omega))]
    exact h.inode q hq
  · intro k hk hk'
    rw [FileSys.readBlock_writeBlock, blockKey_ofNat hk']
    by_cases heq : k = blockKey p
    · rw [if_pos heq, heq, Function.update_self]
    · rw [if_neg heq, Function.update_of_ne heq, h.block k hk hk']

theorem store (h : Shows s v) {i : Inode} {v' : Volume} (hv : v.store i = .ok v') :
    Shows (s.syncToDiskInode i) v' := by
  unfold Volume.store at hv
  split_ifs at hv with hi
  obtain rfl := Except.ok.inj hv
  have hkey := blockKey_inodeBlock hi
  have hread : ∀ q, blockKey q ≠ 10 + i.iNum.toNat / 32 →
      (s.syncToDiskInode i).readBlock q = s.readBlock q := by
    intro q hq
    rw [FileSys.syncToDiskInode, FileSys.readBlock_writeBlock, if_neg (by omega)]
  have hm : FileSys.SameMemory s (s.syncToDiskInode i) := s.sameMemory_writeBlock _ _
  apply h.of_sameMemory hm fun q hq => hread q (by omega)
  · intro q hq
    have hnat : (UInt32.ofNat q).toNat = q := by rw [UInt32.toNat_ofNat']; omega
    rw [s.syncFromDiskInode_syncToDiskInode hi (by rw [hnat]; exact hq), Function.update_apply,
      h.inode q hq]
    exact if_congr (by rw [← UInt32.toNat_inj, hnat]) rfl rfl
  · intro k hk hk'
    rw [hread _ (by rw [blockKey_ofNat hk']; omega)]
    exact h.block k hk hk'

end Shows

theorem superblockOf_word_blocks (fb fi : UInt32) : (superblockOf fb fi).word 24 = fb :=
  Buffer.word_setWord _ _ (by omega)

theorem superblockOf_word_inodes (fb fi : UInt32) : (superblockOf fb fi).word 20 = fi := by
  rw [superblockOf, Buffer.word_setWord_of_disjoint _ _ (by omega), Buffer.word_setWord _ _
    (by omega)]

theorem superblockOf_word_magic (fb fi : UInt32) : (superblockOf fb fi).word 8 = fsMagicNumber := by
  simp (disch := omega) only [superblockOf, mkfsSuperblock, Buffer.word_setWord_of_disjoint,
    Buffer.word_setWord]

theorem superblockOf_setWord_blocks (fb fi w : UInt32) :
    (superblockOf fb fi).setWord 24 w = superblockOf w fi := Buffer.setWord_setWord _ _ _ _

theorem superblockOf_setWord_inodes (fb fi w : UInt32) :
    (superblockOf fb fi).setWord 20 w = superblockOf fb w := by
  rw [superblockOf, Buffer.setWord_comm _ _ _ (by omega), Buffer.setWord_setWord, superblockOf]

namespace FileSys

theorem skipSet_eq {n : Nat} {bmp : Buffer n} {fuel j q : Nat} (hq : bmp.bit q = false)
    (hjq : j ≤ q)
    (hset : ∀ k, j ≤ k → k < q → bmp.bit k = true) (hfuel : q < j + fuel) :
    skipSet bmp fuel j = q := by
  induction fuel generalizing j with
  | zero => omega
  | succ fuel ih =>
    rw [skipSet]
    by_cases h : j = q
    · simp [h, hq]
    · rw [if_pos (hset j le_rfl (by omega))]
      exact ih (by omega) (fun k hk => hset k (by omega)) (by omega)

theorem findFree_eq {n : Nat} (bmp : Buffer n) (error : UInt32) (k i : Nat) (hn : i + k ≤ n)
    (hset : ∀ j, j < 8 * i → bmp.bit j = true) : findFree bmp error k i (8 * i) =
      (firstClear bmp.bit (8 * (i + k))).elim error UInt32.ofNat := by
  induction k generalizing i with
  | zero =>
    rw [findFree, Nat.add_zero, firstClear_eq_none.mpr hset]
    rfl
  | succ k ih =>
    rw [findFree]
    split_ifs with hbyte
    · obtain ⟨o, ho, hclear⟩ := Buffer.exists_clear_of_ne hbyte
      have hbit : bmp.bit (8 * i + o) = false := by
        rw [Buffer.bit, show (8 * i + o) / 8 = i by omega, show (8 * i + o) % 8 = o by omega,
          hclear]
      cases hfirst : firstClear bmp.bit (8 * (i + (k + 1))) with
      | none => simp [firstClear_eq_none.mp hfirst _ (by omega : 8 * i + o < _)] at hbit
      | some q =>
        obtain ⟨hq, hqclear, hbefore⟩ := firstClear_eq_some.mp hfirst
        have hge : 8 * i ≤ q := by
          by_contra hlt
          simp [hset q (by omega)] at hqclear
        rw [skipSet_eq hqclear hge (fun k _ => hbefore k) (by omega)]
        rfl
    · have hfull : bmp.get i = 0xff := not_not.mp hbyte
      have hset' : ∀ j, j < 8 * (i + 1) → bmp.bit j = true := by
        intro j hj
        by_cases hji : j < 8 * i
        · exact hset j hji
        · exact Buffer.bit_of_byte_full (by rw [show j / 8 = i by omega, hfull])
      rw [show 8 * i + 8 = 8 * (i + 1) by omega, ih (i + 1) (by omega) hset',
        show i + 1 + k = i + (k + 1) by omega]

theorem findFreeInode_eq (s : FileSys) :
    s.findFreeInode = (firstClear s.inodebmp.bit 8192).elim errorNoFreeInode UInt32.ofNat :=
  findFree_eq s.inodebmp errorNoFreeInode 1024 0 (by omega) (by omega)

theorem findFreeBlock_eq (s : FileSys) :
    s.findFreeBlock = (firstClear s.blockbmp.bit 262144).elim errorNoFreeBlock UInt32.ofNat :=
  findFree_eq s.blockbmp errorNoFreeBlock 32768 0 (by omega) (by omega)

end FileSys

/-- What the blocks in front of the inodes hold once the copies in memory are written back. -/
def FileSys.metadata (s : FileSys) (k : Nat) : Block :=
  if k = 0 then s.superblock else if k = 9 then s.inodebmp else
    s.blockbmp.slice (4096 * (k - 1)) 4096

namespace Synced
variable {s : FileSys}

theorem of_metadata (h : ∀ p, blockKey p < 10 → s.readBlock p = s.metadata (blockKey p)) :
    Synced s := by
  refine ⟨(h 0 (by simp)).trans (by simp [FileSys.metadata]), fun k hk => ?_,
    (h 9 (by simp)).trans (by simp [FileSys.metadata])⟩
  rw [h _ (by rw [blockKey_ofNat (by omega)]; omega), blockKey_ofNat (by omega), FileSys.metadata,
    if_neg (by omega), if_neg (by omega), Nat.add_sub_cancel_left]

variable (h : Synced s)
include h

theorem metadata {p : UInt32} (hp : blockKey p < 10) : s.readBlock p = s.metadata (blockKey p) := by
  rw [s.readBlock_eq_ofNat, FileSys.metadata]
  split_ifs with hzero hnine
  · rw [hzero]
    exact h.superblock
  · rw [hnine]
    exact h.inodebmp
  · rw [← h.blockbmp _ (by omega), Nat.add_sub_cancel' (by omega)]

theorem reload_eq : s.syncFromDiskBlockBmp.syncFromDiskInodeBmp = s := by
  have hbmp : (List.range 8).foldl (fun b i => b.blit (4096 * i)
    (s.readBlock (UInt32.ofNat (1 + i))))
      s.blockbmp = s.blockbmp := by
    ext k hk
    rw [Buffer.get_foldl_blit _ _ (by omega) hk, if_pos (by omega), h.blockbmp _ (by omega),
      Buffer.get_slice _ _ (Nat.mod_lt _ (by omega)), Nat.div_add_mod]
  have hblock : s.syncFromDiskBlockBmp = s := by
    rw [FileSys.syncFromDiskBlockBmp, hbmp]
  rw [hblock, FileSys.syncFromDiskInodeBmp, h.inodebmp]

theorem reload_superblock_eq : s.syncFromDiskSuperblock = s := by
  rw [FileSys.syncFromDiskSuperblock, h.superblock]

end Synced

/-- The same result, with a file system that shows the volume. -/
def Agrees {α : Type} (x : α × FileSys) (y : α × Volume) : Prop := x.1 = y.1 ∧ Shows x.2 y.2

theorem Agrees.mk {α : Type} {x y : α} {s : FileSys} {v : Volume} (hxy : x = y) (h : Shows s v) :
    Agrees (x, s) (y, v) := ⟨hxy, h⟩

theorem Agrees.bind {α : Type} {β γ : Type} {R : β → γ → Prop} {c : Except Fault (α × FileSys)}
    {a : Result (α × Volume)} {f : α × FileSys → Except Fault β} {g : α × Volume → Result γ}
    (h : Refines Agrees c a) (hf : ∀ x s v, a = .ok (x, v) → Shows s v → Refines R (f (x, s))
    (g (x, v))) :
    Refines R (c >>= f) (a >>= g) := by
  apply h.bind
  intro x y _ ha hxy
  obtain ⟨x, s⟩ := x
  obtain ⟨y, v⟩ := y
  obtain ⟨rfl, hsv⟩ := hxy
  exact hf x s v ha hsv

namespace Shows
variable {s : FileSys} {v : Volume}

/-- Writing back the blocks `K`, which alone differ in memory. -/
theorem writeBack (h : Shows s v) {u t : FileSys} {K : Nat → Prop} [DecidablePred K]
    (hm : FileSys.SameMemory u t) (hsession : u.toSession = s.toSession) (hK : ∀ k, K k → k < 10)
    (hread : ∀ p, t.readBlock p = if K (blockKey p) then u.metadata (blockKey p) else s.readBlock p)
    (hsame : ∀ k, k < 10 → ¬ K k → u.metadata k = s.metadata k) {fb fi : UInt32}
    {bb ib : Nat → Bool} (hcounters : u.superblock = superblockOf fb fi)
    (htail : ∀ k, 1024 ≤ k → u.inodebmp.get k = 0)
    (hbb : ∀ k, k < 262144 → bb k = u.blockbmp.bit k)
    (hib : ∀ k, k < 8192 → ib k = u.inodebmp.bit k) :
    Shows t { v with blockBit := bb, inodeBit := ib, freeBlocks := fb, freeInodes := fi } := by
  have hmetadata : t.metadata = u.metadata := by
    unfold FileSys.metadata
    rw [hm.superblock, hm.inodebmp, hm.blockbmp]
  have hrest : ∀ p, 10 ≤ blockKey p → t.readBlock p = s.readBlock p := fun p hp => by
    rw [hread, if_neg fun hkey => absurd (hK _ hkey) (by omega)]
  refine ⟨.of_metadata fun p hp => ?_, hm.superblock.trans hcounters, hm.inodebmp ▸ htail,
    hm.blockbmp ▸ hbb, hm.inodebmp ▸ hib, fun q hq => ?_, fun k hk hk' => ?_,
    (hm.session.trans hsession).trans h.session⟩
  · rw [hread, hmetadata]
    split_ifs with hkey
    · rfl
    · rw [hsame _ hp hkey, h.toSynced.metadata hp]
  · have hnat : (UInt32.ofNat q).toNat = q := by rw [UInt32.toNat_ofNat']; omega
    rw [FileSys.syncFromDiskInode_congr (hrest _ (by rw [blockKey_inodeBlock (by omega)]; omega))]
    exact h.inode q hq
  · rw [hrest _ (by rw [blockKey_ofNat hk']; omega)]
    exact h.block k hk hk'

theorem tail_set (h : Shows s v) {q : Nat} (hq : q < 8192) (x : UInt8) :
    ∀ k, 1024 ≤ k → (s.inodebmp.set (q / 8) x).get k = 0 := by
  intro k hk
  rw [Buffer.get_set, if_neg (by omega), h.tail k hk]

theorem putSuperblock (h : Shows s v) {b : Block} {fb fi : UInt32} (hb : b = superblockOf fb fi) :
    Shows { s with superblock := b }.syncToDiskSuperblock
    { v with freeBlocks := fb, freeInodes := fi } := by
  refine h.writeBack (u := { s with superblock := b }) (K := (· = 0))
    (FileSys.sameMemory_writeBlock ..) rfl (fun _ hk => by omega) (fun p => ?_) (fun k _ hk => ?_)
    hb h.tail h.blockBit h.inodeBit
  · rw [FileSys.readBlock_writeBlock, blockKey_zero]
    split_ifs with hp
    · rw [hp, FileSys.metadata, if_pos rfl]
    · rfl
  · rw [FileSys.metadata, FileSys.metadata, if_neg hk, if_neg hk]

theorem countInode (h : Shows s v) :
    Shows s.countInode { v with freeInodes := v.freeInodes - 1 } := by
  unfold FileSys.countInode
  apply h.putSuperblock
  rw [FileSys.sFreeInodeCnt, h.counters, superblockOf_word_inodes, superblockOf_setWord_inodes]

theorem countBlock (h : Shows s v) :
    Shows s.countBlock { v with freeBlocks := v.freeBlocks - 1 } := by
  unfold FileSys.countBlock
  apply h.putSuperblock
  rw [FileSys.sFreeBlocksCnt, h.counters, superblockOf_word_blocks, superblockOf_setWord_blocks]

theorem putInodebmp (h : Shows s v) {b : Block} {ib : Nat → Bool} (htail : ∀ k, 1024 ≤ k →
    b.get k = 0)
    (hib : ∀ k, k < 8192 → ib k = b.bit k) :
    Shows { s with inodebmp := b }.syncToDiskInodeBmp { v with inodeBit := ib } := by
  refine h.writeBack (u := { s with inodebmp := b }) (K := (· = 9))
    (FileSys.sameMemory_writeBlock ..) rfl (fun _ hk => by omega) (fun p => ?_) (fun k _ hk => ?_)
    h.counters htail h.blockBit hib
  · rw [FileSys.readBlock_writeBlock, blockKey_nine]
    split_ifs with hp
    · rw [hp, FileSys.metadata, if_neg (by omega), if_pos rfl]
    · rfl
  · rw [FileSys.metadata, FileSys.metadata, if_neg hk, if_neg hk]

theorem putBlockbmp (h : Shows s v) {b : Buffer 32768} {bb : Nat → Bool}
    (hbb : ∀ k, k < 262144 → bb k = b.bit k) :
    Shows { s with blockbmp := b }.syncToDiskBlockBmp { v with blockBit := bb } := by
  refine h.writeBack (u := { s with blockbmp := b }) (K := fun k => 1 ≤ k ∧ k ≤ 8)
    (FileSys.sameMemory_syncToDiskBlockBmp _) rfl (fun _ hk => by omega) (fun p => ?_)
    (fun k hlt hk => ?_) h.counters h.tail hbb h.inodeBit
  · rw [FileSys.readBlock_syncToDiskBlockBmp]
    split_ifs with hp
    · rw [FileSys.metadata, if_neg (by omega), if_neg (by omega)]
    · rfl
  · rw [FileSys.metadata, FileSys.metadata]
    split_ifs
    · rfl
    · rfl
    · omega

theorem takeInode (h : Shows s v) : Refines Agrees s.takeFreeInode v.takeInode := by
  have hfirst : firstClear v.inodeBit 8192 = firstClear s.inodebmp.bit 8192 :=
    firstClear_congr h.inodeBit
  unfold Volume.takeInode FileSys.takeFreeInode
  rw [FileSys.findFreeInode_eq, hfirst]
  cases hq : firstClear s.inodebmp.bit 8192 with
  | none => exact .error rfl
  | some q =>
    obtain ⟨hlt, -, -⟩ := firstClear_eq_some.mp hq
    have hnat : (UInt32.ofNat q).toNat = q := by rw [UInt32.toNat_ofNat']; omega
    have hset : s.setInodeBmp (UInt32.ofNat q) = .ok { s with inodebmp := s.inodebmp.setBit q } :=
        by
      rw [FileSys.setInodeBmp, hnat, if_pos (by omega)]
    have hbit := Buffer.update_eq_setBit (q := q) (by omega) h.inodeBit
    have hput := (h.putInodebmp (h.tail_set hlt _) hbit).countInode
    simp only [Option.elim_some, hset, bind, Except.bind, pure, Except.pure]
    exact .ok (.mk rfl hput)

theorem takeBlock (h : Shows s v) : Refines Agrees s.takeFreeBlock v.takeBlock := by
  have hfirst : firstClear v.blockBit 262144 = firstClear s.blockbmp.bit 262144 :=
    firstClear_congr h.blockBit
  unfold Volume.takeBlock FileSys.takeFreeBlock
  rw [FileSys.findFreeBlock_eq, hfirst]
  cases hq : firstClear s.blockbmp.bit 262144 with
  | none => exact .error rfl
  | some q =>
    obtain ⟨hlt, -, -⟩ := firstClear_eq_some.mp hq
    have hnat : (UInt32.ofNat q).toNat = q := by rw [UInt32.toNat_ofNat']; omega
    have hset : s.setBlockBmp (UInt32.ofNat q) = .ok { s with blockbmp := s.blockbmp.setBit q } :=
        by
      rw [FileSys.setBlockBmp, hnat, if_pos (by omega)]
    have hbit := Buffer.update_eq_setBit (q := q) (by omega) h.blockBit
    have hput := (h.putBlockbmp hbit).countBlock
    simp only [Option.elim_some, hset, bind, Except.bind, pure, Except.pure]
    exact .ok (.mk rfl hput)

section Steps
variable {α : Type} {β : Type} {R : α → β → Prop} {c : Except Fault α}

theorem loading (h : Shows s v) {inum : UInt32} {g : Inode → Result β}
    (hg : Refines R c (g (s.syncFromDiskInode inum))) : Refines R c (v.load inum >>= g) := by
  apply Refines.guard
  · intro e he
    unfold Volume.load at he
    split_ifs at he
    cases he
  · intro i hi
    rw [h.load hi] at hg
    exact hg

theorem reading (h : Shows s v) {p : UInt32} {g : Block → Result β}
    (hg : Refines R c (g (s.readBlock p))) : Refines R c (v.read p >>= g) := by
  apply Refines.guard
  · intro e he
    unfold Volume.read at he
    split_ifs at he
    cases he
  · intro b hb
    rw [h.read hb] at hg
    exact hg

theorem storing (h : Shows s v) {i : Inode} {g : Volume → Result β}
    (hg : ∀ v', v.store i = .ok v' → Shows (s.syncToDiskInode i) v' → Refines R c (g v')) :
    Refines R c (v.store i >>= g) := by
  apply Refines.guard
  · intro e he
    unfold Volume.store at he
    split_ifs at he
    cases he
  · exact fun v' hv => hg v' hv (h.store hv)

theorem writing (h : Shows s v) {p : UInt32} {b : Block} {g : Volume → Result β}
    (hg : ∀ v', v.write p b = .ok v' → Shows (s.writeBlock p b) v' → Refines R c (g v')) :
    Refines R c (v.write p b >>= g) := by
  apply Refines.guard
  · intro e he
    unfold Volume.write at he
    split_ifs at he
    cases he
  · exact fun v' hv => hg v' hv (h.write hv)

end Steps

end Shows

end Ucas.Fs

import UcasOs.Fs.Entries

/-! The block map of an inode. `get_block_index_in_inode` starts all three indirect levels from
`i_indirect_block_1_ptr`, `write_block_index_in_inode` starts each from its own pointer, its second
level runs on into the third, and the third puts its first block of pointers back to the address of
the second. -/

namespace Ucas.Fs
open Ucas.Lib

namespace FileSys

def readPath (s : FileSys) (p : UInt32) : List Nat → UInt32
  | [] => p
  | m :: rest => if p = 0 then notFound else s.readPath (pointer (s.readBlock p) m) rest

def follow (s : FileSys) (p : UInt32) : List Nat → UInt32
  | [] => p
  | m :: rest => if p = 0 then 0 else s.follow (pointer (s.readBlock p) m) rest

def Assigned (s : FileSys) (i : Inode) (idx : Nat) (p : UInt32) : Prop :=
  s.getBlockIndexInInode i idx = .ok p ∧ p ≠ 0 ∧ p ≠ notFound

/-- After `write_block_index_in_inode` index `idx` has block `b`, and the others have the blocks
they had. -/
def MapsBlock (s : FileSys) (i : Inode) (idx : Nat) (b : UInt32) : Prop :=
  ∃ i' t, s.writeBlockIndexInInode i idx b = .ok (i', t) ∧ t.getBlockIndexInInode i' idx = .ok b ∧
    ∀ idx' < maxBlockIndex, idx' ≠ idx → ∀ p, s.Assigned i idx' p → t.getBlockIndexInInode i' idx' =
      .ok p

end FileSys

def pathOf (idx : Nat) : List Nat :=
  if idx < 1036 then [idx - 12]
  else if idx < 1049612 then [(idx - 1036) / 1024, (idx - 1036) % 1024]
  else [(idx - 1049612) / (1024 * 1024), (idx - 1049612) % (1024 * 1024) / 1024, (idx - 1049612) %
    1024]

theorem pathOf_cases {idx : Nat} (hge : 12 ≤ idx) (hlt : idx < maxBlockIndex) :
    (∃ k < 1024, pathOf idx = [k] ∧ idx = 12 + k) ∨
    (∃ k < 1024, ∃ m < 1024, pathOf idx = [k, m] ∧ idx = 1036 + 1024 * k + m) ∨
    ∃ k < 1024, ∃ m < 1024, ∃ w < 1024, pathOf idx = [k, m, w] ∧ 1049612 ≤ idx := by
  unfold maxBlockIndex at hlt
  unfold pathOf
  by_cases h1 : idx < 1036
  · exact .inl ⟨idx - 12, by omega, if_pos h1, by omega⟩
  rw [if_neg h1]
  by_cases h2 : idx < 1049612
  · exact .inr (.inl ⟨(idx - 1036) / 1024, by omega, (idx - 1036) % 1024, by omega,
      if_pos h2, by omega⟩)
  · exact .inr (.inr ⟨(idx - 1049612) / (1024 * 1024), by omega, (idx - 1049612) % (1024 * 1024) /
      1024, by omega,
      (idx - 1049612) % 1024, by omega, if_neg h2, by omega⟩)

theorem pathOf_lt {idx : Nat} (hge : 12 ≤ idx) (hlt : idx < maxBlockIndex) :
    (pathOf idx).length ≤ 3 ∧ ∀ m ∈ pathOf idx, m < 1024 := by
  obtain ⟨k, hk, hpath, -⟩ | ⟨k, hk, m, hm, hpath, -⟩ | ⟨k, hk, m, hm, w, hw, hpath, -⟩ :=
    pathOf_cases hge hlt
  all_goals
    rw [hpath]
    simp
    omega

theorem pathOf_ne_nil (idx : Nat) : pathOf idx ≠ [] := by
  unfold pathOf
  split_ifs <;> simp

theorem pathOf_rest_ne_nil {idx a : Nat} {rest : List Nat} (h : pathOf idx = a :: rest)
    (hge : 1036 ≤ idx) : rest ≠ [] := by
  rintro rfl
  rw [pathOf, if_neg (by omega)] at h
  split_ifs at h <;> simp at h

theorem pathOf_first {k : Nat} (hk : k < 1024) : pathOf (12 + k) = [k] := by
  rw [pathOf, if_pos (by omega), Nat.add_sub_cancel_left]

theorem pathOf_second {k m : Nat} (hk : k < 1024) (hm : m < 1024) :
    pathOf (1036 + 1024 * k + m) = [k, m] := by
  rw [pathOf, if_neg (by omega), if_pos (by omega), show (1036 + 1024 * k + m - 1036) / 1024 =
    k by omega,
    show (1036 + 1024 * k + m - 1036) % 1024 = m by omega]

inductive Place
  | direct (k : Fin 12)
  | indirect (level : Fin 3) (path : List Nat)

namespace Place

theorem level_cases (level : Fin 3) : level = 0 ∨ level = 1 ∨ level = 2 := by
  revert level
  decide

/-- The block pointers of an inode: a path leads through blocks of pointers only. -/
def InLayout : Place → Prop
  | direct _ => True
  | indirect level path => path.length ≤ level + 1 ∧ ∀ m ∈ path, m < 1024

def value (s : FileSys) (i : Inode) : Place → UInt32
  | direct k => i.iDirectTable k
  | indirect level path => s.follow (i.indirectPtr level) path

end Place

/-- All block pointers of the inode are distinct allocated blocks. -/
structure WellMapped (s : FileSys) (i : Inode) : Prop where
  num : i.iNum.toNat < 8192
  tables : ∀ k, k < 266 → s.blockbmp.bit k = true
  allocated : ∀ P : Place, P.InLayout → P.value s i ≠ 0 →
    (P.value s i).toNat ∈ dataBlocks ∧ s.blockbmp.bit (P.value s i).toNat = true
  distinct : ∀ P Q : Place, P.InLayout → Q.InLayout → P.value s i ≠ 0 →
    P.value s i = Q.value s i → P = Q

namespace FileSys

/-- The blocks that `write_block_index_in_inode` may write, the first level's own free block
excepted: without a block of pointers the reader finds nothing that could change. -/
inductive Writes (s : FileSys) (i : Inode) : Nat → Nat → Prop
  | record {idx : Nat} (h : idx < 12) : Writes s i idx (10 + i.iNum.toNat / 32)
  | first {idx : Nat} (hge : 12 ≤ idx) (hlt : idx < 1036) :
      Writes s i idx (blockKey i.iIndirectBlock1Ptr)
  | table {idx k : Nat} (hge : 1049612 ≤ idx) (hk : k < 266) : Writes s i idx k
  | free {idx k : Nat} (hge : 1049612 ≤ idx) (hk : k < 262144) (hclear : s.blockbmp.bit k = false) :
      Writes s i idx k
  | second {idx : Nat} (hge : 1049612 ≤ idx) : Writes s i idx (blockKey i.iIndirectBlock2Ptr)
  | third {idx : Nat} {path : List Nat} (hge : 1049612 ≤ idx) (hlen : path.length ≤ 2)
      (hentries : ∀ m ∈ path, m < 1024) (hne : s.follow i.iIndirectBlock3Ptr path ≠ 0) :
      Writes s i idx (blockKey (s.follow i.iIndirectBlock3Ptr path))

/-- On its way to an index of the third level the reader takes words of data blocks for block
numbers. None of them is the number of a block that the call may write. -/
def Apart (s : FileSys) (i : Inode) (idx : Nat) : Prop :=
  ∀ a < 1024, ∀ m < 1024, 12 + a ≠ idx → s.follow i.iIndirectBlock1Ptr [a, m] ≠ 0 →
    ¬ s.Writes i idx (blockKey (s.follow i.iIndirectBlock1Ptr [a, m]))

/-- Entry `k` of the first block of pointers set to `b`. -/
def setEntry (s : FileSys) (i : Inode) (k : Nat) (b : UInt32) : FileSys :=
  s.writeBlock i.iIndirectBlock1Ptr (setPointer (s.readBlock i.iIndirectBlock1Ptr) k b)

end FileSys

namespace FileSys
variable {s t : FileSys}

theorem pointer_setPointer (b : Block) {k : Nat} (hk : k < 1024) (m : Nat) (v : UInt32) :
    pointer (setPointer b k v) m = if m = k then v else pointer b m := by
  unfold pointer setPointer
  split_ifs with hmk
  · rw [hmk, Buffer.word_setWord _ _ (by omega)]
  · rw [Buffer.word_setWord_of_disjoint _ _ (by omega)]

theorem path_congr {p : UInt32} {path : List Nat} (h : ∀ pre m rest, path = pre ++ m :: rest →
    s.follow p pre ≠ 0 → t.readBlock (s.follow p pre) = s.readBlock (s.follow p pre)) :
    t.follow p path = s.follow p path ∧ t.readPath p path = s.readPath p path := by
  induction path generalizing p with
  | nil => exact ⟨rfl, rfl⟩
  | cons m rest ih =>
    simp only [follow, readPath]
    split_ifs with hp
    · exact ⟨rfl, rfl⟩
    rw [show t.readBlock p = s.readBlock p from h [] m rest rfl hp]
    refine ih fun pre m' rest' hpath hne => ?_
    have hstep : s.follow p (m :: pre) = s.follow (pointer (s.readBlock p) m) pre := by
      rw [follow, if_neg hp]
    rw [← hstep] at hne ⊢
    exact h (m :: pre) m' rest' (by rw [hpath, List.cons_append]) hne

theorem getBlockIndexInInode_eq {i : Inode} {idx : Nat} (hge : 12 ≤ idx)
    (hlt : idx < maxBlockIndex) :
    s.getBlockIndexInInode i idx = .ok (s.readPath i.iIndirectBlock1Ptr (pathOf idx)) := by
  unfold getBlockIndexInInode pathOf
  rw [dif_neg (by omega)]
  by_cases hfirst : idx < 1036
  · simp only [if_pos hfirst, readPath, apply_ite Except.ok]
  by_cases hsecond : idx < 1049612
  · simp only [if_neg hfirst, if_pos hsecond, readPath, apply_ite Except.ok]
  · simp only [if_neg hfirst, if_neg hsecond, if_pos hlt, readPath, apply_ite Except.ok]

structure Spares (R : Set UInt32) (s t : FileSys) : Prop where
  block : ∀ p ∈ R, t.readBlock p = s.readBlock p
  bit : ∀ k, s.blockbmp.bit k = true → t.blockbmp.bit k = true

def Guarded (R : Set UInt32) (s : FileSys) : Prop :=
  (∀ k, k < 266 → s.blockbmp.bit k = true) ∧
    ∀ p ∈ R, 266 ≤ blockKey p ∧ (blockKey p < 262144 → s.blockbmp.bit (blockKey p) = true)

variable {R : Set UInt32}

theorem Spares.trans {u : FileSys} (h : Spares R s t) (h' : Spares R t u) : Spares R s u :=
  ⟨fun p hp => (h'.block p hp).trans (h.block p hp), fun k hk => h'.bit k (h.bit k hk)⟩

theorem Spares.refl (R : Set UInt32) (s : FileSys) : Spares R s s := ⟨fun _ _ => rfl, fun _ h => h⟩

theorem Spares.guarded (h : Spares R s t) (hs : Guarded R s) : Guarded R t :=
  ⟨fun k hk => h.bit k (hs.1 k hk), fun p hp =>
    ⟨(hs.2 p hp).1, fun hlt => h.bit _ ((hs.2 p hp).2 hlt)⟩⟩

theorem spares_writeBlock {q : UInt32} (b : Block) (hq : ∀ p ∈ R, blockKey p ≠ blockKey q) :
    Spares R s (s.writeBlock q b) := by
  refine ⟨fun p hp => ?_, fun k hk => ?_⟩
  · rw [readBlock_writeBlock, if_neg (hq p hp)]
  · rw [(s.sameMemory_writeBlock q b).blockbmp]
    exact hk

theorem countBlock_blockbmp (s : FileSys) : s.countBlock.blockbmp = s.blockbmp := by
  rw [countBlock, syncToDiskSuperblock, (sameMemory_writeBlock _ _ _).blockbmp]

theorem readBlock_countBlock (s : FileSys) {p : UInt32} (hp : blockKey p ≠ 0) :
    s.countBlock.readBlock p = s.readBlock p := by
  rw [countBlock, syncToDiskSuperblock, readBlock_writeBlock, if_neg (by rwa [blockKey_zero])]
  rfl

theorem takeFreeBlock_spec (hfree : 0 < s.freeBlockCount) : ∃ b t, s.takeFreeBlock = .ok (b, t) ∧
    firstClear s.blockbmp.bit 262144 = some b.toNat ∧ t.blockbmp = s.blockbmp.setBit b.toNat ∧
    ∀ p, 10 ≤ blockKey p → t.readBlock p = s.readBlock p := by
  obtain ⟨q, hq⟩ := exists_firstClear hfree
  have hlt := (firstClear_eq_some.mp hq).1
  have hnat : (UInt32.ofNat q).toNat = q := toNat_ofNat_of_lt (by omega)
  have hset : s.setBlockBmp (UInt32.ofNat q) = .ok { s with blockbmp := s.blockbmp.setBit q } := by
    rw [setBlockBmp, hnat, if_pos (by omega)]
  set u : FileSys := { s with blockbmp := s.blockbmp.setBit q } with hu
  refine ⟨UInt32.ofNat q, u.syncToDiskBlockBmp.countBlock, ?_, by rw [hnat, hq], ?_, fun p hp => ?_⟩
  · rw [takeFreeBlock, findFreeBlock_eq, hq, Option.elim_some, hset, ok_bind]
    rfl
  · rw [hnat, countBlock_blockbmp, u.sameMemory_syncToDiskBlockBmp.blockbmp]
  · rw [readBlock_countBlock _ (by omega), readBlock_syncToDiskBlockBmp, if_neg (by omega)]
    rfl

theorem takePointerBlock_spec {i : Inode} (enter : UInt32 → Inode → Inode) (hR : Guarded R s)
    (hfree : 0 < s.freeBlockCount) (hnum : ∀ b, (enter b i.addSize).iNum.toNat < 8192) :
    ∃ b t, s.takePointerBlock i enter = .ok (b, enter b i.addSize, t) ∧ b.toNat ∈ dataBlocks ∧
      firstClear s.blockbmp.bit 262144 = some b.toNat ∧ t.blockbmp.bit b.toNat = true ∧
      t.readBlock b = .zero ∧ Spares R s t ∧
      t.freeBlockCount + 1 = s.freeBlockCount := by
  obtain ⟨b, t, ht, hb, hbmp, hread⟩ := takeFreeBlock_spec hfree
  obtain ⟨hlt, hclear, -⟩ := firstClear_eq_some.mp hb
  have hge : 266 ≤ b.toNat := by
    by_contra hlow
    rw [hR.1 _ (by omega)] at hclear
    cases hclear
  have hkey : blockKey b = b.toNat := blockKey_of_lt (by omega)
  have hinode := blockKey_inodeBlock (hnum b)
  have hnum := hnum b
  refine ⟨b, (t.clearBlockIndex b).syncToDiskInode (enter b i.addSize), ?_, ⟨hge, hlt⟩, hb, ?_,
    ?_, ⟨?_, ?_⟩, ?_⟩
  · rw [takePointerBlock, ht, ok_bind]
    rfl
  all_goals
    have hmem : ((t.clearBlockIndex b).syncToDiskInode (enter b i.addSize)).blockbmp =
        s.blockbmp.setBit b.toNat := by
      rw [syncToDiskInode, (sameMemory_writeBlock _ _ _).blockbmp, clearBlockIndex,
        (sameMemory_writeBlock _ _ _).blockbmp,
        hbmp]
  · rw [hmem, Buffer.bit_setBit _ _ (by omega)]
    simp
  · rw [syncToDiskInode, readBlock_writeBlock, if_neg (by omega), clearBlockIndex,
      readBlock_writeBlock, if_pos rfl]
  · intro p hp
    obtain ⟨hpge, hbit⟩ := hR.2 p hp
    have hpb : blockKey p ≠ b.toNat := fun heq => by
      rw [heq, hclear] at hbit
      cases hbit hlt
    rw [syncToDiskInode, readBlock_writeBlock, if_neg (by omega), clearBlockIndex,
      readBlock_writeBlock, if_neg (by omega),
      hread p (by omega)]
  · intro k hk
    rw [hmem, Buffer.bit_setBit _ _ (by omega), hk, Bool.or_true]
  · have hcount := clearCount_set (f := s.blockbmp.bit) hlt hclear
    rw [freeBlockCount, hmem, freeBlockCount, ← hcount]
    refine congrArg (· + 1) (clearCount_congr fun k _ => ?_)
    rw [Buffer.bit_setBit _ _ (by omega), Function.update_apply]
    split_ifs with hk <;> simp [hk]

def Outside (R : Set UInt32) (s : FileSys) (p : UInt32) : Prop :=
  (∀ p' ∈ R, blockKey p' ≠ blockKey p) ∧ (blockKey p ∈ dataBlocks →
    s.blockbmp.bit (blockKey p) = true)

def Beside (R : Set UInt32) (s : FileSys) : Nat → UInt32 → Prop
  | 0, p => Outside R s p
  | n + 1, p =>
    Outside R s p ∧ ∀ m < 1024, pointer (s.readBlock p) m ≠ 0 →
      Beside R s n (pointer (s.readBlock p) m)

theorem Outside.spares {p : UInt32} (h : Outside R s p) (hst : Spares R s t) : Outside R t p :=
  ⟨h.1, fun hp => hst.bit _ (h.2 hp)⟩

theorem Beside.outside {n : Nat} {p : UInt32} (h : Beside R s n p) : Outside R s p := by
  cases n with
  | zero => exact h
  | succ n => exact h.1

theorem beside_of_zero {p : UInt32} (h : Outside R s p) (hzero : s.readBlock p = .zero) (n : Nat) :
    Beside R s n p := by
  cases n with
  | zero => exact h
  | succ n =>
    refine ⟨h, fun m _ hne => absurd ?_ hne⟩
    rw [hzero, pointer, Buffer.word_zero]

theorem outside_of_clear (hR : Guarded R s) {b : UInt32} (hb : b.toNat ∈ dataBlocks)
    (hclear : firstClear s.blockbmp.bit 262144 = some b.toNat)
    (hset : t.blockbmp.bit b.toNat = true) : Outside R t b := by
  have hkey : blockKey b = b.toNat := blockKey_of_lt (by have := hb.2; omega)
  refine ⟨fun p hp heq => ?_, fun _ => by rw [hkey]; exact hset⟩
  have hbit := (hR.2 p hp).2
  rw [heq, hkey, (firstClear_eq_some.mp hclear).2.1] at hbit
  cases hbit hb.2

structure SamePointers (i i' : Inode) : Prop where
  num : i'.iNum = i.iNum
  direct : i'.iDirectTable = i.iDirectTable
  first : i'.iIndirectBlock1Ptr = i.iIndirectBlock1Ptr
  second : i'.iIndirectBlock2Ptr = i.iIndirectBlock2Ptr

theorem SamePointers.trans {i i' i'' : Inode} (h : SamePointers i i') (h' : SamePointers i' i'') :
    SamePointers i i'' :=
  ⟨h'.num.trans h.num, h'.direct.trans h.direct, h'.first.trans h.first, h'.second.trans h.second⟩

theorem samePointers_addSize (i : Inode) : SamePointers i i.addSize := by
  constructor <;> simp only [Inode.addSize]

section Write
variable {i : Inode} (hR : Guarded R s) (hfree : 0 < s.freeBlockCount) {n : Nat} {p : UInt32}
include hR hfree

theorem needIndirect_spec (enter : UInt32 → Inode → Inode) (hnum : i.iNum.toNat < 8192)
    (henter : ∀ b, SamePointers i (enter b i.addSize)) (hp : p ≠ 0 → Beside R s n p) :
    ∃ q i' t, s.needIndirect i p enter = .ok (q, i', t) ∧ SamePointers i i' ∧ Beside R t n q ∧
    Spares R s t ∧
      s.freeBlockCount ≤ t.freeBlockCount + 1 := by
  unfold needIndirect
  split_ifs with hzero
  · obtain ⟨b, t, ht, hb, hclear, hset, hempty, hst, hcount⟩ :=
      takePointerBlock_spec enter hR hfree fun b => (henter b).num.symm ▸ hnum
    exact ⟨b, _, t, ht, henter b, beside_of_zero (outside_of_clear hR hb hclear hset) hempty n, hst,
      hcount.ge⟩
  · exact ⟨p, i, s, rfl, ⟨rfl, rfl, rfl, rfl⟩, hp hzero, .refl R s, Nat.le_succ _⟩

theorem needPointer_spec {k : Nat} (hk : k < 1024) {home : UInt32} (hnum : i.iNum.toNat < 8192)
    (hp : Beside R s (n + 1) p) (hhome : Outside R s home) :
    ∃ q i' t, s.needPointer i (s.readBlock p) k home = .ok (q, i', t) ∧ SamePointers i i' ∧
      Beside R t n q ∧ Spares R s t ∧ s.freeBlockCount ≤ t.freeBlockCount + 1 := by
  unfold needPointer
  split_ifs with hzero
  · obtain ⟨b, t, ht, hb, hclear, hset, hempty, hst, hcount⟩ :=
      takePointerBlock_spec (i := i) (fun _ i => i) hR hfree fun _ => by simpa using hnum
    have hkey : blockKey b = b.toNat := blockKey_of_lt (by have := hb.2; omega)
    have hne : blockKey b ≠ blockKey home := fun heq => by
      have hbit := hhome.2 (by rw [← heq, hkey]; exact hb)
      rw [← heq, hkey, (firstClear_eq_some.mp hclear).2.1] at hbit
      cases hbit
    have hwrite := spares_writeBlock (s := t) (setPointer (s.readBlock p) k b) hhome.1
    refine ⟨b, i.addSize, _, by rw [ht, ok_bind]; rfl, samePointers_addSize i, ?_, hst.trans hwrite,
      ?_⟩
    · refine beside_of_zero ((outside_of_clear hR hb hclear hset).spares hwrite) ?_ n
      rw [readBlock_writeBlock, if_neg hne, hempty]
    · rw [freeBlockCount, freeBlockCount, (sameMemory_writeBlock _ _ _).blockbmp]
      exact hcount.ge
  · exact ⟨_, i, s, rfl, ⟨rfl, rfl, rfl, rfl⟩, hp.2 k hk hzero, .refl R s, Nat.le_succ _⟩

omit hfree in
theorem writeThirdLevel_spares (hfree : 3 ≤ s.freeBlockCount) (hnum : i.iNum.toNat < 8192)
    {idx : Nat} (b : UInt32)
    (hge : 1049612 ≤ idx) (hlt : idx < maxBlockIndex) (hsecond : Outside R s i.iIndirectBlock2Ptr)
    (hthird : i.iIndirectBlock3Ptr ≠ 0 → Beside R s 2 i.iIndirectBlock3Ptr) :
    ∃ i' t, s.writeThirdLevel i idx b = .ok (i', t) ∧ SamePointers i i' ∧ Spares R s t := by
  unfold maxBlockIndex at hlt
  have henter : ∀ b, SamePointers i { i.addSize with iIndirectBlock3Ptr := b } := fun b => by
    constructor <;> simp only [Inode.addSize]
  obtain ⟨p, i₁, s₁, h₁, hi₁, hp, hs₁, hc₁⟩ :=
    needIndirect_spec hR (by omega) (fun b i => { i with iIndirectBlock3Ptr := b }) hnum henter
      hthird
  obtain ⟨q, i₂, s₂, h₂, hi₂, hq, hs₂, hc₂⟩ := needPointer_spec (i := i₁) (hs₁.guarded hR)
    (by omega)
    (k := (idx - 1049612) / (1024 * 1024)) (by omega) (hi₁.num.symm ▸ hnum) hp (hi₁.second.symm ▸
      hsecond.spares hs₁)
  have hi := hi₁.trans hi₂
  obtain ⟨r, i₃, s₃, h₃, hi₃, hr, hs₃, -⟩ :=
    needPointer_spec (i := i₂) (hs₂.guarded (hs₁.guarded hR)) (by omega)
    (k := (idx - 1049612) % (1024 * 1024) / 1024) (by omega) (hi.num.symm ▸ hnum) hq hq.outside
  refine ⟨i₃, s₃.writeBlock r (setPointer (s₃.readBlock r) ((idx - 1049612) % 1024) b), ?_,
    hi.trans hi₃,
    ((hs₁.trans hs₂).trans hs₃).trans (spares_writeBlock _ hr.outside.1)⟩
  rw [writeThirdLevel, h₁, ok_bind]
  dsimp only
  rw [if_neg (by omega), h₂, ok_bind]
  dsimp only
  rw [h₃, ok_bind]
  rfl

end Write

/-- Without a block of pointers yet, the first free block becomes that block. -/
theorem write_first_of_zero {i : Inode} (hR : Guarded R s) (hfree : 0 < s.freeBlockCount)
    (hnum : i.iNum.toNat < 8192) (hfirst : i.iIndirectBlock1Ptr = 0) {k : Nat} (hk : k < 1024)
    (b : UInt32) :
    ∃ f u, s.writeBlockIndexInInode i (12 + k) b =
        .ok (i.addSize.pointIndirect f, u.writeBlock f (setPointer .zero k b)) ∧
      f.toNat ∈ dataBlocks ∧ firstClear s.blockbmp.bit 262144 = some f.toNat ∧
      u.blockbmp.bit f.toNat = true ∧ Spares R s u ∧ u.freeBlockCount + 1 = s.freeBlockCount := by
  obtain ⟨f, u, hu, hf, hclear, hset, hempty, hspares, hcount⟩ :=
    takePointerBlock_spec (i := i) (fun b i => i.pointIndirect b) hR hfree
      fun _ => by simpa using hnum
  refine ⟨f, u, ?_, hf, hclear, hset, hspares, hcount⟩
  rw [writeBlockIndexInInode, dif_neg (by omega), if_pos (by omega), needIndirect, if_pos hfirst,
    hu, ok_bind, Nat.add_sub_cancel_left, ← hempty]
  rfl

theorem writeThirdLevel_overflows {i : Inode} {idx : Nat} {b : UInt32} {r : Inode × FileSys}
    (h : idx < 1049612) :
    s.writeThirdLevel i idx b ≠ .ok r := by
  intro hok
  obtain ⟨⟨p, i', t⟩, -, hok⟩ := exists_of_bind_ok hok
  dsimp only at hok
  rw [if_pos h] at hok
  cases hok

theorem follow_append (p : UInt32) (path : List Nat) (m : Nat) : s.follow p (path ++ [m]) =
    if s.follow p path = 0 then 0 else pointer (s.readBlock (s.follow p path)) m := by
  induction path generalizing p with
  | nil => rw [List.nil_append, follow, follow, follow]
  | cons k rest ih =>
    rw [List.cons_append, follow, follow]
    split_ifs with hp hp' hp'
    · rfl
    · exact absurd rfl hp'
    · rw [ih, if_pos hp']
    · rw [ih, if_neg hp']

def readerBlocks (s : FileSys) (i : Inode) : Set UInt32 :=
  { p | p ≠ 0 ∧ ∃ path : List Nat, path.length ≤ 2 ∧ (∀ m ∈ path, m < 1024) ∧
    s.follow i.iIndirectBlock1Ptr path = p }

theorem getBlockIndexInInode_congr {i i' : Inode} (hdirect : i'.iDirectTable = i.iDirectTable)
    (hfirst : i'.iIndirectBlock1Ptr = i.iIndirectBlock1Ptr) (h : Spares (readerBlocks s i) s t)
    {idx : Nat}
    (hlt : idx < maxBlockIndex) : t.getBlockIndexInInode i' idx = s.getBlockIndexInInode i idx := by
  by_cases h12 : idx < 12
  · rw [getBlockIndexInInode, dif_pos h12, hdirect, getBlockIndexInInode, dif_pos h12]
  · rw [getBlockIndexInInode_eq (by omega) hlt, getBlockIndexInInode_eq (by omega) hlt, hfirst]
    refine congrArg Except.ok (path_congr fun pre m rest hpath hne => ?_).2
    obtain ⟨hlen, hentries⟩ := pathOf_lt (by omega) hlt
    rw [hpath] at hlen hentries
    simp only [List.length_append, List.length_cons] at hlen
    exact h.block _ ⟨hne, pre, by omega, fun m hm => hentries m (List.mem_append_left _ hm), rfl⟩

end FileSys

namespace WellMapped
variable {s : FileSys} {i : Inode} (h : WellMapped s i)
include h

theorem key {P : Place} (hP : P.InLayout) (hne : P.value s i ≠ 0) :
    blockKey (P.value s i) = (P.value s i).toNat :=
  blockKey_of_lt (by have := (h.allocated P hP hne).1.2; omega)

theorem data {P : Place} (hP : P.InLayout) (hne : P.value s i ≠ 0) :
    blockKey (P.value s i) ∈ dataBlocks ∧ s.blockbmp.bit (blockKey (P.value s i)) = true := by
  rw [h.key hP hne]
  exact h.allocated P hP hne

theorem key_ne {P Q : Place} (hP : P.InLayout) (hQ : Q.InLayout) (hPQ : P ≠ Q)
    (hneP : P.value s i ≠ 0) (hneQ : Q.value s i ≠ 0) :
    blockKey (P.value s i) ≠ blockKey (Q.value s i) := fun heq => by
  rw [h.key hP hneP, h.key hQ hneQ] at heq
  exact hPQ (h.distinct P Q hP hQ hneP (UInt32.toNat_inj.mp heq))

omit h in
/-- What the reader goes through: the first block of pointers and the data blocks under it, or a
block whose number it takes from a data block. -/
theorem reader_cases {p : UInt32} (hp : p ∈ FileSys.readerBlocks s i) :
    (∃ path, (Place.indirect 0 path).InLayout ∧ (Place.indirect 0 path).value s i ≠ 0 ∧
      (Place.indirect 0 path).value s i = p) ∨
    ∃ a < 1024, ∃ m < 1024, s.follow i.iIndirectBlock1Ptr [a, m] ≠ 0 ∧
      s.follow i.iIndirectBlock1Ptr [a, m] = p := by
  obtain ⟨hne, path, hlen, hentries, rfl⟩ := hp
  match path with
  | [] => exact .inl ⟨[], ⟨by simp, by simp⟩, hne, rfl⟩
  | [a] => exact .inl ⟨[a], ⟨by simp, hentries⟩, hne, rfl⟩
  | [a, m] => exact .inr ⟨a, hentries a (by simp), m, hentries m (by simp), hne, rfl⟩

section Third
variable {idx : Nat} (hge : 1049612 ≤ idx) (hapart : s.Apart i idx)
include hge hapart

theorem guarded : FileSys.Guarded (FileSys.readerBlocks s i) s := by
  refine ⟨h.tables, fun p hp => ?_⟩
  obtain ⟨path, hP, hne, rfl⟩ | ⟨a, ha, m, hm, hne, rfl⟩ := reader_cases hp
  · exact ⟨(h.data hP hne).1.1, fun _ => (h.data hP hne).2⟩
  · have hout := hapart a ha m hm (by omega) hne
    refine ⟨Nat.le_of_not_lt fun hlt => hout (.table hge hlt), fun hlt => ?_⟩
    exact eq_true_of_ne_false fun hclear => hout (.free hge hlt hclear)

theorem outside (level : Fin 3) (path : List Nat) (hlevel : level ≠ 0)
    (hP : (Place.indirect level path).InLayout) (hne : s.follow (i.indirectPtr level) path ≠ 0)
    (hwrites : s.Writes i idx (blockKey (s.follow (i.indirectPtr level) path))) :
    FileSys.Outside (FileSys.readerBlocks s i) s (s.follow (i.indirectPtr level) path) := by
  refine ⟨fun p hp heq => ?_, fun _ => (h.data hP hne).2⟩
  obtain ⟨path', hP', hne', rfl⟩ | ⟨a, ha, m, hm, hne', rfl⟩ := reader_cases hp
  · exact h.key_ne hP' hP (fun heq => hlevel (Place.indirect.inj heq).1.symm) hne' hne heq
  · exact hapart a ha m hm (by omega) hne' (heq ▸ hwrites)

theorem outside_second : FileSys.Outside (FileSys.readerBlocks s i) s i.iIndirectBlock2Ptr := by
  by_cases hzero : i.iIndirectBlock2Ptr = 0
  · rw [hzero]
    refine ⟨fun p hp heq => ?_, fun hdata => absurd hdata.1 (by simp)⟩
    have hdata := ((h.guarded hge hapart).2 p hp).1
    rw [heq, blockKey_zero] at hdata
    omega
  · exact h.outside hge hapart 1 [] (by decide) ⟨by simp, by simp⟩ hzero
      (.second hge)

theorem beside {n : Nat} (path : List Nat) (hlen : path.length + n ≤ 2)
    (hentries : ∀ m ∈ path, m < 1024) (hne : s.follow i.iIndirectBlock3Ptr path ≠ 0) :
    FileSys.Beside (FileSys.readerBlocks s i) s n (s.follow i.iIndirectBlock3Ptr path) := by
  have hout := h.outside hge hapart 2 path (by decide)
    ⟨by simp; omega, hentries⟩ hne (.third hge (by omega) hentries hne)
  induction n generalizing path with
  | zero => exact hout
  | succ n ih =>
    refine ⟨hout, fun m hm hp => ?_⟩
    have hstep : s.follow i.iIndirectBlock3Ptr (path ++ [m]) = FileSys.pointer
        (s.readBlock (s.follow i.iIndirectBlock3Ptr path)) m := by
      rw [FileSys.follow_append, if_neg hne]
    rw [← hstep] at hp ⊢
    have hentries' : ∀ k ∈ path ++ [m], k < 1024 := fun k hk =>
      (List.mem_append.mp hk).elim (hentries k) fun hk => List.mem_singleton.mp hk ▸ hm
    have hlen' : (path ++ [m]).length + n ≤ 2 := by simp; omega
    exact ih _ hlen' hentries' hp (h.outside hge hapart 2 _ (by decide)
      ⟨by simp; omega, hentries'⟩ hp (.third hge (by omega) hentries' hp))

end Third

theorem maps_direct {idx : Nat} (hidx : idx < 12) (hapart : s.Apart i idx) (b : UInt32) :
    s.MapsBlock i idx b := by
  refine ⟨i.point ⟨idx, hidx⟩ b, s.syncToDiskInode (i.point ⟨idx, hidx⟩ b), ?_, ?_, fun idx' hlt hne
    p hp => ?_⟩
  · rw [FileSys.writeBlockIndexInInode, dif_pos hidx]
  · rw [FileSys.getBlockIndexInInode, dif_pos hidx, Inode.point_iDirectTable, Function.update_self]
  by_cases h12 : idx' < 12
  · rw [← hp.1, FileSys.getBlockIndexInInode, dif_pos h12, FileSys.getBlockIndexInInode,
      dif_pos h12,
      Inode.point_iDirectTable, Function.update_of_ne fun heq => hne (congrArg Fin.val heq)]
  · have hspares : FileSys.Spares (FileSys.readerBlocks s i) s (s.syncToDiskInode
        (i.point ⟨idx, hidx⟩ b)) := by
      refine FileSys.spares_writeBlock _ fun p hp heq => ?_
      have hnum := h.num
      rw [Inode.point_iNum, blockKey_inodeBlock hnum] at heq
      obtain ⟨path, hP, hne', rfl⟩ | ⟨a, ha, m, hm, hne', rfl⟩ := reader_cases hp
      · have := (h.data hP hne').1.1
        omega
      · exact hapart a ha m hm (by omega) hne' (heq ▸ .record hidx)
    rw [← hp.1, ← FileSys.getBlockIndexInInode_congr rfl rfl hspares hlt,
      FileSys.getBlockIndexInInode_eq (by omega) hlt,
      FileSys.getBlockIndexInInode_eq (by omega) hlt]
    rfl

theorem third_kept (hfree : 3 ≤ s.freeBlockCount) {idx : Nat} (hge : 1049612 ≤ idx)
    (hlt : idx < maxBlockIndex) (hapart : s.Apart i idx) (b : UInt32) :
    ∃ i' t, s.writeBlockIndexInInode i idx b = .ok (i', t) ∧
      ∀ {idx'}, idx' < maxBlockIndex → t.getBlockIndexInInode i' idx' = s.getBlockIndexInInode i
      idx' := by
  obtain ⟨i', t, ht, hi', hst⟩ := FileSys.writeThirdLevel_spares (h.guarded hge hapart) hfree h.num
    b hge hlt (h.outside_second hge hapart) fun hne =>
      h.beside hge hapart [] (by simp) (by simp) hne
  refine ⟨i', t, ?_, FileSys.getBlockIndexInInode_congr hi'.direct hi'.first hst⟩
  rw [FileSys.writeBlockIndexInInode, dif_neg (by omega), if_neg (by omega), if_neg (by omega),
    if_pos hlt, ht]

theorem maps_third (hfree : 3 ≤ s.freeBlockCount) {idx : Nat} (hge : 1049612 ≤ idx)
    (hlt : idx < maxBlockIndex) (hapart : s.Apart i idx) (b : UInt32) :
    s.MapsBlock i idx b ↔ s.getBlockIndexInInode i idx = .ok b := by
  obtain ⟨i', t, hwrite, hget⟩ := h.third_kept hfree hge hlt hapart b
  constructor
  · rintro ⟨i'', t', hwrite', hb, -⟩
    obtain ⟨rfl, rfl⟩ := Prod.mk.inj (Except.ok.inj (hwrite.symm.trans hwrite'))
    rw [← hget hlt, hb]
  · intro hb
    exact ⟨i', t, hwrite, by rw [hget hlt, hb], fun idx' hlt' _ p hp => by rw [hget hlt', hp.1]⟩

section First
variable {k : Nat} (hk : k < 1024) (hfirst : i.iIndirectBlock1Ptr ≠ 0) (b : UInt32)

omit h in
theorem readBlock_setEntry {p : UInt32} (hp : blockKey p ≠ blockKey i.iIndirectBlock1Ptr) :
    (s.setEntry i k b).readBlock p = s.readBlock p := by
  rw [FileSys.setEntry, FileSys.readBlock_writeBlock, if_neg hp]

include hk hfirst

omit h in
theorem readPath_setEntry (m : Nat) (rest : List Nat) :
    (s.setEntry i k b).readPath i.iIndirectBlock1Ptr (m :: rest) = (s.setEntry i k b).readPath
      (if m = k then b else FileSys.pointer (s.readBlock i.iIndirectBlock1Ptr) m) rest := by
  rw [FileSys.readPath, if_neg hfirst, FileSys.setEntry, FileSys.readBlock_writeBlock, if_pos rfl,
    FileSys.pointer_setPointer _ hk]

/-- Nothing changes for the indices that the reader reaches through another entry. -/
theorem readPath_other (hapart : s.Apart i (12 + k)) {m : Nat} (hm : m ≠ k) {rest : List Nat}
    (hlen : rest.length ≤ 2) (hentries : ∀ m' ∈ m :: rest, m' < 1024) :
    (s.setEntry i k b).readPath i.iIndirectBlock1Ptr (m :: rest) =
      s.readPath i.iIndirectBlock1Ptr (m :: rest) := by
  rw [readPath_setEntry hk hfirst, if_neg hm, FileSys.readPath, if_neg hfirst]
  refine (FileSys.path_congr fun pre m' rest' hrest hne => ?_).2
  have hstep : s.follow i.iIndirectBlock1Ptr (m :: pre) =
      s.follow (FileSys.pointer (s.readBlock i.iIndirectBlock1Ptr) m) pre := by
    rw [FileSys.follow, if_neg hfirst]
  rw [← hstep] at hne ⊢
  subst hrest
  rw [List.length_append, List.length_cons] at hlen
  have hm1 := hentries m (by simp)
  refine readBlock_setEntry b ?_
  rcases pre with _ | ⟨m₁, _ | ⟨m₂, pre⟩⟩
  · exact h.key_ne (P := .indirect 0 [m]) (Q := .indirect 0 []) ⟨by simp, by simpa using hm1⟩
      ⟨by simp, by simp⟩ (by simp) hne hfirst
  · exact fun heq => hapart m hm1 m₁ (hentries m₁ (by simp)) (by omega) hne
      (heq ▸ .first (by omega) (by omega))
  · simp at hlen
    omega

end First

theorem maps_first_of_zero (hfree : 0 < s.freeBlockCount) (hfirst : i.iIndirectBlock1Ptr = 0)
    {k : Nat} (hk : k < 1024)
    (b : UInt32) : s.MapsBlock i (12 + k) b := by
  obtain ⟨f, u, hwrite, hf, -⟩ :=
    FileSys.write_first_of_zero (R := ∅) ⟨h.tables, by simp⟩ hfree h.num hfirst hk b
  have hf0 : f ≠ 0 := ne_zero_of_mem_dataBlocks hf
  have hptr : (i.addSize.pointIndirect f).iIndirectBlock1Ptr = f := rfl
  refine ⟨_, _, hwrite, ?_, fun idx' hlt hne p hp => ?_⟩
  · rw [FileSys.getBlockIndexInInode_eq (by omega) (by rw [maxBlockIndex]; omega), pathOf_first hk,
      hptr,
      FileSys.readPath, if_neg hf0, FileSys.readPath, FileSys.readBlock_writeBlock, if_pos rfl,
      FileSys.pointer_setPointer _ hk, if_pos rfl]
  by_cases h12 : idx' < 12
  · rw [← hp.1, FileSys.getBlockIndexInInode, dif_pos h12, FileSys.getBlockIndexInInode,
      dif_pos h12,
      Inode.pointIndirect_iDirectTable, Inode.addSize_iDirectTable]
  · obtain ⟨hget, -, hmiss⟩ := hp
    rw [FileSys.getBlockIndexInInode_eq (by omega) hlt, hfirst] at hget
    refine absurd (Except.ok.inj hget ▸ ?_) hmiss
    unfold pathOf
    split_ifs <;> rw [FileSys.readPath, if_pos rfl]

theorem maps_first (hfree : 0 < s.freeBlockCount) {k : Nat} (hk : k < 1024)
    (hapart : s.Apart i (12 + k)) (b : UInt32) :
    s.MapsBlock i (12 + k) b ↔ ∀ idx' < maxBlockIndex, 1036 ≤ idx' → ∀ rest,
      pathOf idx' = k :: rest →
      ∀ p, s.Assigned i idx' p → (s.setEntry i k b).readPath b rest = p := by
  have hget : ∀ {u : FileSys} {idx : Nat}, 12 ≤ idx → idx < maxBlockIndex →
      u.getBlockIndexInInode i idx = .ok (u.readPath i.iIndirectBlock1Ptr (pathOf idx)) :=
        FileSys.getBlockIndexInInode_eq
  by_cases hfirst : i.iIndirectBlock1Ptr = 0
  · refine ⟨fun _ idx' hlt hge rest hpath p hp => ?_, fun _ =>
      h.maps_first_of_zero hfree hfirst hk b⟩
    obtain ⟨hp, -, hmiss⟩ := hp
    rw [hget (by omega) hlt, hpath, hfirst, FileSys.readPath, if_pos rfl] at hp
    exact absurd (Except.ok.inj hp).symm hmiss
  have hwrite : s.writeBlockIndexInInode i (12 + k) b = .ok (i, s.setEntry i k b) := by
    rw [FileSys.writeBlockIndexInInode, dif_neg (by omega), if_pos (by omega), FileSys.needIndirect,
      if_neg hfirst, ok_bind, Nat.add_sub_cancel_left]
    rfl
  have hbelow : ∀ rest, (s.setEntry i k b).readPath i.iIndirectBlock1Ptr (k :: rest) =
      (s.setEntry i k b).readPath b rest := fun rest => by
    rw [readPath_setEntry hk hfirst, if_pos rfl]
  constructor
  · rintro ⟨i', t, hwrite', -, hother⟩ idx' hlt hge rest hpath p hp
    obtain ⟨rfl, rfl⟩ := Prod.mk.inj (Except.ok.inj (hwrite.symm.trans hwrite'))
    have hkept := hother idx' hlt (by omega) p hp
    rw [hget (by omega) hlt, hpath, hbelow] at hkept
    exact Except.ok.inj hkept
  · intro hcond
    refine ⟨i, _, hwrite, ?_, fun idx' hlt hne p hp => ?_⟩
    · rw [hget (by omega) (by rw [maxBlockIndex]; omega), pathOf_first hk, hbelow, FileSys.readPath]
    by_cases h12 : idx' < 12
    · rw [← hp.1, FileSys.getBlockIndexInInode, dif_pos h12, FileSys.getBlockIndexInInode,
        dif_pos h12]
    have hge : 12 ≤ idx' := by omega
    obtain ⟨hlen, hentries⟩ := pathOf_lt hge hlt
    obtain ⟨a, rest, hpath⟩ : ∃ a rest, pathOf idx' = a :: rest :=
      List.exists_cons_of_ne_nil (pathOf_ne_nil idx')
    rw [hget hge hlt, hpath]
    rw [hpath] at hlen hentries
    by_cases hak : a = k
    · -- through the entry that was written, for an index of the second or third level
      subst hak
      have hge' : 1036 ≤ idx' := by
        by_contra hlow
        rw [pathOf, if_pos (by omega)] at hpath
        have := (List.cons.inj hpath).1
        omega
      rw [hbelow, hcond idx' hlt hge' rest hpath p hp]
    · have hp := hp.1
      rw [hget hge hlt, hpath] at hp
      rw [List.length_cons] at hlen
      rw [h.readPath_other hk hfirst b hapart hak (by omega) hentries, hp]

end WellMapped

theorem FileSys.follow_zero (s : FileSys) (path : List Nat) : s.follow 0 path = 0 := by
  cases path <;> simp [FileSys.follow]

theorem Place.value_rootOf {t : FileSys} {e : Env} {P : Place} (hne : P.value t (rootOf e) ≠ 0) :
    P = .direct 0 ∧ (P.value t (rootOf e)).toNat = 266 := by
  cases P with
  | direct k =>
    by_cases hk : k = 0
    · subst hk
      exact ⟨rfl, block_rootOf⟩
    · exact absurd (show (rootOf e).iDirectTable
        k = 0 by simp [rootOf, newInode, Function.update_of_ne hk]) hne
  | indirect level path =>
    have hzero : (rootOf e).indirectPtr level = 0 := by
      obtain rfl | rfl | rfl := Place.level_cases level
      · rfl
      · rfl
      · rfl
    rw [Place.value, hzero] at hne
    exact absurd (t.follow_zero path) hne

section Mkfs
variable {t s : FileSys} {e : Env} (ht : Shows t (Volume.mkfs e s))
include ht

theorem wellMapped_mkfs : WellMapped t (rootOf e) := by
  refine ⟨Nat.zero_lt_succ _, fun k hk => ?_, fun P _ hne => ?_, fun P Q _ _ hne heq => ?_⟩
  · rw [← ht.blockBit k (by omega)]
    exact (well_mkfs e s).low k hk
  · rw [(Place.value_rootOf hne).2, ← ht.blockBit 266 (by omega)]
    exact ⟨⟨by omega, by omega⟩, rfl⟩
  · rw [(Place.value_rootOf hne).1, (Place.value_rootOf (P := Q) (heq ▸ hne)).1]

theorem freeBlockCount_mkfs : 3 ≤ t.freeBlockCount := by
  have hsub : ({267, 268, 269} : Finset Nat) ⊆ (Finset.range 262144).filter fun k => t.blockbmp.bit
      k = false := by
    intro k hk
    simp only [Finset.mem_insert, Finset.mem_singleton] at hk
    rw [Finset.mem_filter, Finset.mem_range, ← ht.blockBit k (by omega)]
    exact ⟨by omega, decide_eq_false (by omega)⟩
  exact Finset.card_le_card hsub

end Mkfs

section TwoDirectories
variable {s : FileSys}

/-- After `mkdir ./a; mkdir ./b`: the blocks of the two directories are 267 and 268, and 269 is the
first free one. -/
structure TwoDirectories (s : FileSys) : Prop where
  num : (s.syncFromDiskInode 0).iNum = 0
  direct : ∀ k, (s.syncFromDiskInode 0).iDirectTable k = if k = 0 then 266 else 0
  indirect : ∀ level, (s.syncFromDiskInode 0).indirectPtr level = 0
  used : ∀ k < 269, s.blockbmp.bit k = true
  free : ∀ k ∈ [269, 270, 271, 272], s.blockbmp.bit k = false
  word : ∀ m < 1024, blockKey (FileSys.pointer (s.readBlock 267) m) ≠ 269
  first : FileSys.pointer (s.readBlock 267) 0 = 1 ∧ FileSys.pointer (s.readBlock 268) 0 = 2

theorem exists_twoDirectories : ∃ s₀ s, FileSys.blank.doMkfs .blank = .ok s₀ ∧
    runOps [.mkdir (Text.dot.child .a) 0, .mkdir (Text.dot.child .b) 0] s₀ = .ok s ∧
    TwoDirectories s := by
  obtain ⟨s₀, s, v, hs₀, hs, -, hv, hp⟩ := exists_run_checked (C := fun _ _ => True)
    (c := fun _ _ => true) (fun _ _ _ _ _ => trivial)
    [.mkdir (Text.dot.child .a) 0, .mkdir (Text.dot.child .b) 0]
    (p := fun v => (v.load 0).sure (fun i => decide (i.iNum = 0 ∧
        (∀ k, i.iDirectTable k = if k = 0 then 266 else 0) ∧ ∀ level, i.indirectPtr level = 0)) &&
      ((List.range 269).all v.blockBit && ([269, 270, 271, 272].all (fun k => !v.blockBit k) &&
      ((v.read 267).sure (fun b => (List.range 1024).all (fun m =>
        decide (blockKey (FileSys.pointer b m) ≠ 269)) && FileSys.pointer b 0 == 1) &&
      (v.read 268).sure (fun b => FileSys.pointer b 0 == 2))))) (by decide +kernel)
  obtain ⟨hload, hp⟩ := Bool.and_eq_true_iff.mp hp
  obtain ⟨hused, hp⟩ := Bool.and_eq_true_iff.mp hp
  obtain ⟨hfree, hp⟩ := Bool.and_eq_true_iff.mp hp
  obtain ⟨ha, hb⟩ := Bool.and_eq_true_iff.mp hp
  obtain ⟨hnum, hdirect, hindirect⟩ := of_decide_eq_true (hv.of_sure_load hload :)
  obtain ⟨hword, hone⟩ := Bool.and_eq_true_iff.mp (hv.of_sure_read ha :)
  refine ⟨s₀, s, hs₀, hs, hnum, hdirect, hindirect, fun k hk => ?_, fun k hk => ?_, fun m hm => ?_,
    eq_of_beq hone, eq_of_beq (hv.of_sure_read hb :)⟩
  · rw [← hv.blockBit k (by omega)]
    exact List.all_eq_true.mp hused k (List.mem_range.mpr hk)
  · have hlt : k < 262144 := by
      simp only [List.mem_cons, List.not_mem_nil, or_false] at hk
      omega
    have hclear := List.all_eq_true.mp hfree k hk
    rw [hv.blockBit k hlt] at hclear
    simpa using hclear
  · exact of_decide_eq_true (List.all_eq_true.mp hword m (List.mem_range.mpr hm))

variable (h : TwoDirectories s)
include h

theorem TwoDirectories.four_free : 4 ≤ s.freeBlockCount := by
  have hsub : ({269, 270, 271, 272} : Finset Nat) ⊆
      (Finset.range 262144).filter fun k => s.blockbmp.bit k = false := by
    intro k hk
    simp only [Finset.mem_insert, Finset.mem_singleton] at hk
    rw [Finset.mem_filter, Finset.mem_range]
    exact ⟨by omega, h.free k (by simpa using hk)⟩
  exact Finset.card_le_card hsub

/-- The directory's block becomes block 12 of the root: what it holds is ordinary data. -/
structure FirstLevel (s t : FileSys) (i : Inode) : Prop where
  num : i.iNum = 0
  direct : ∀ k, i.iDirectTable k = if k = 0 then 266 else 0
  pointers : i.iIndirectBlock1Ptr = 269 ∧ i.iIndirectBlock2Ptr = 0 ∧ i.iIndirectBlock3Ptr = 0
  entry : ∀ m < 1024, FileSys.pointer (t.readBlock 269) m = if m = 0 then 267 else 0
  used : ∀ k < 270, t.blockbmp.bit k = true
  free : 3 ≤ t.freeBlockCount
  kept : t.readBlock 267 = s.readBlock 267 ∧ t.readBlock 268 = s.readBlock 268

theorem TwoDirectories.firstLevel : ∃ i t,
    s.writeBlockIndexInInode (s.syncFromDiskInode 0) 12 267 = .ok (i, t) ∧ FirstLevel s t i := by
  have hR : FileSys.Guarded {267, 268} s := by
    refine ⟨fun k hk => h.used k (by omega), fun p hp => ?_⟩
    obtain rfl | rfl := hp
    · exact ⟨by decide, fun _ => h.used _ (by decide)⟩
    · exact ⟨by decide, fun _ => h.used _ (by decide)⟩
  have hfree := h.four_free
  obtain ⟨f, u, hwrite, hf, hclear, hset, hspares, hcount⟩ :=
    FileSys.write_first_of_zero hR (by omega) (by rw [h.num]; decide) (h.indirect 0)
      (k := 0) (by omega) 267
  obtain rfl : f = 269 := by
    obtain ⟨-, hf0, hlow⟩ := firstClear_eq_some.mp hclear
    have hge : ¬ f.toNat < 269 := fun hlt => by
      rw [h.used _ hlt] at hf0
      cases hf0
    have hle : ¬ 269 < f.toNat := fun hlt => by
      have := hlow 269 hlt
      rw [h.free 269 (by simp)] at this
      cases this
    exact UInt32.toNat_inj.mp (by simp; omega)
  refine ⟨_, _, hwrite, ?_⟩
  have hbmp : (u.writeBlock 269 (FileSys.setPointer .zero 0 267)).blockbmp = u.blockbmp :=
    (FileSys.sameMemory_writeBlock _ _ _).blockbmp
  refine ⟨h.num, h.direct, ⟨rfl, h.indirect 1, h.indirect 2⟩, fun m hm => ?_, fun k hk => ?_, ?_,
    ?_, ?_⟩
  · rw [FileSys.readBlock_writeBlock, if_pos rfl, FileSys.pointer_setPointer _ (by omega),
      FileSys.pointer, Buffer.word_zero]
  · rw [hbmp]
    obtain rfl | hlt := Nat.eq_or_lt_of_le (Nat.le_of_lt_succ hk)
    · exact hset
    · exact hspares.bit k (h.used k hlt)
  · rw [FileSys.freeBlockCount, hbmp]
    rw [FileSys.freeBlockCount] at hcount
    omega
  · rw [FileSys.readBlock_writeBlock, if_neg (by decide), hspares.block 267 (.inl rfl)]
  · rw [FileSys.readBlock_writeBlock, if_neg (by decide), hspares.block 268 (.inr rfl)]

end TwoDirectories

namespace FirstLevel
variable {s t : FileSys} {i : Inode} (h : FirstLevel s t i)
include h

theorem follow_cons {m : Nat} (hm : m < 1024) (rest : List Nat) :
    t.follow i.iIndirectBlock1Ptr (m :: rest) = if m = 0 then t.follow 267 rest else 0 := by
  rw [h.pointers.1, FileSys.follow, if_neg (by decide), h.entry m hm]
  split_ifs with hm0
  · rfl
  · exact t.follow_zero rest

theorem value {P : Place} (hP : P.InLayout) (hne : P.value t i ≠ 0) :
    P = .direct 0 ∧ P.value t i = 266 ∨ P = .indirect 0 [] ∧ P.value t i = 269 ∨
      P = .indirect 0 [0] ∧ P.value t i = 267 := by
  cases P with
  | direct k =>
    rw [Place.value, h.direct] at hne ⊢
    split_ifs at hne ⊢ with hk
    · exact .inl ⟨by rw [hk], rfl⟩
    · exact absurd rfl hne
  | indirect level path =>
    obtain rfl | rfl | rfl := Place.level_cases level
    · rcases path with _ | ⟨m, _ | ⟨m', rest⟩⟩
      · exact .inr (.inl ⟨rfl, h.pointers.1⟩)
      · have hvalue : (Place.indirect 0 [m]).value t i = if m = 0 then 267 else 0 :=
          h.follow_cons (hP.2 m (by simp)) []
        rw [hvalue] at hne ⊢
        split_ifs at hne ⊢ with hm
        · exact .inr (.inr ⟨by rw [hm], rfl⟩)
        · exact absurd rfl hne
      · have hlen := hP.1
        simp at hlen
    · exact absurd (by rw [Place.value, Inode.indirectPtr, h.pointers.2.1, t.follow_zero]) hne
    · exact absurd (by rw [Place.value, Inode.indirectPtr, h.pointers.2.2, t.follow_zero]) hne

theorem wellMapped : WellMapped t i := by
  refine ⟨by rw [h.num]; decide, fun k hk => h.used k (by omega), fun P hP hne => ?_,
    fun P Q hP hQ hne heq => ?_⟩
  · obtain ⟨-, hvalue⟩ | ⟨-, hvalue⟩ | ⟨-, hvalue⟩ := h.value hP hne
    all_goals
      rw [hvalue]
      exact ⟨⟨by decide, by decide⟩, h.used _ (by decide)⟩
  · obtain ⟨rfl, hvalue⟩ | ⟨rfl, hvalue⟩ | ⟨rfl, hvalue⟩ := h.value hP hne
    all_goals
      obtain ⟨rfl, hvalue'⟩ | ⟨rfl, hvalue'⟩ | ⟨rfl, hvalue'⟩ := h.value hQ (heq ▸ hne)
    all_goals
      first
      | rfl
      | exact absurd (hvalue.symm.trans (heq.trans hvalue')) (by decide)

theorem follow_second {a m : Nat} (ha : a < 1024)
    (hne : t.follow i.iIndirectBlock1Ptr [a, m] ≠ 0) :
    a = 0 ∧ t.follow i.iIndirectBlock1Ptr [a, m] = FileSys.pointer (s.readBlock 267) m := by
  rw [h.follow_cons ha] at hne ⊢
  split_ifs at hne ⊢ with ha0
  · refine ⟨ha0, ?_⟩
    rw [FileSys.follow, if_neg (by decide), FileSys.follow, h.kept.1]
  · exact absurd rfl hne

theorem apart_same : t.Apart i 12 := by
  intro a ha m hm hne hfollow
  exact absurd (h.follow_second ha hfollow).1 (by omega)

theorem apart_next (hword : ∀ m < 1024, blockKey (FileSys.pointer (s.readBlock 267) m) ≠ 269) :
    t.Apart i 13 := by
  intro a ha m hm _ hfollow hwrites
  have hne := hword m hm
  rw [← (h.follow_second ha hfollow).2] at hne
  generalize blockKey (t.follow i.iIndirectBlock1Ptr [a, m]) = k at hwrites hne
  cases hwrites with
  | first => exact hne (by rw [h.pointers.1]; rfl)
  | record hlt => omega
  | table hge | free hge | second hge | third hge => omega

end FirstLevel

end Ucas.Fs

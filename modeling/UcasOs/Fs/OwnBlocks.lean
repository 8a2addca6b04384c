import UcasOs.Fs.Exact

/-! Files keep to their blocks. `do_fwrite` and `do_fread` go over all blocks of the card from that
of the first byte to that of the byte behind the last: these are the file's own only if they follow
one another there. -/

namespace Ucas.Fs
open Ucas.Lib

def writeBlocks (i : Inode) (used : Nat → Bool) (w len : Nat) : List Nat :=
  (if h : w ≠ 0 ∧ w / 4096 < 12 then [(i.iDirectTable ⟨w / 4096, h.2⟩).toNat] else []) ++
    (clears used 262144).take (blocksFor w len)

section WriteBlocks
variable {i : Inode} {v : Volume} {w len : Nat} (hshort : w + len < 49152)
  (hfree : blocksFor w len ≤ (clears v.blockBit 262144).length)
include hshort hfree

theorem length_writeBlocks :
    (writeBlocks i v.blockBit w len).length = (w + len) / 4096 - w / 4096 + 1 := by
  rw [writeBlocks, List.length_append, List.length_take, min_eq_left hfree, blocksFor]
  by_cases hw : w = 0
  · rw [dif_neg (by omega), if_pos hw, List.length_nil, hw]
    omega
  · rw [dif_pos ⟨hw, by omega⟩, if_neg hw, List.length_singleton]
    omega

theorem direct_writeBlocks {r : Inode × Volume}
    (h : Volume.Took i v (if w = 0 then 0 else w / 4096 + 1) ((clears v.blockBit 262144).take
    (blocksFor w len)) r)
    {m : Nat} (hm : m ≤ (w + len) / 4096 - w / 4096) (hk : w / 4096 + m < 12) :
    r.1.iDirectTable ⟨w / 4096 + m, hk⟩ = UInt32.ofNat ((writeBlocks i v.blockBit w len).getD m
    0) := by
  rw [h.direct, List.length_take, min_eq_left hfree, writeBlocks]
  dsimp only
  by_cases hw : w = 0
  · have hblocks : blocksFor w len = len / 4096 + 1 := if_pos hw
    rw [if_pos hw, if_pos (by omega), dif_neg (by omega), List.nil_append, hw]
    simp
  · have hblocks : blocksFor w len = (w + len) / 4096 - w / 4096 := if_neg hw
    rw [if_neg hw, dif_pos ⟨hw, by omega⟩, List.singleton_append]
    cases m with
    | zero =>
      rw [if_neg (by omega), List.getD_cons_zero, UInt32.ofNat_toNat]
      rfl
    | succ m =>
      rw [if_pos (by omega), List.getD_cons_succ, show w / 4096 + (m + 1) - (w / 4096 + 1) =
        m by omega]

theorem exists_direct_writeBlocks {r : Inode × Volume}
    (h : Volume.Took i v (if w = 0 then 0 else w / 4096 + 1) ((clears v.blockBit 262144).take
    (blocksFor w len)) r)
    {b : Nat} (hb : b ∈ writeBlocks i v.blockBit w len) :
    ∃ k, r.1.iDirectTable k = UInt32.ofNat b := by
  obtain ⟨m, hm, rfl⟩ := List.mem_iff_getElem.mp hb
  have hlength := length_writeBlocks (i := i) hshort hfree
  refine ⟨⟨w / 4096 + m, by omega⟩, ?_⟩
  rw [direct_writeBlocks hshort hfree h (by omega), List.getD_eq_getElem _ _ hm]

omit hshort hfree in
theorem of_mem_writeBlocks {b : Nat} (hb : b ∈ writeBlocks i v.blockBit w len) :
    (∃ j : Fin 12, j.val = w / 4096 ∧ w ≠ 0 ∧ b = (i.iDirectTable j).toNat) ∨ b < 262144 ∧
    v.blockBit b = false := by
  rw [writeBlocks, List.mem_append] at hb
  refine hb.imp (fun hb => ?_) fun hb => mem_clears.mp (List.mem_of_mem_take hb)
  split_ifs at hb with hw
  · exact ⟨_, rfl, hw.1, List.mem_singleton.mp hb⟩
  · cases hb

omit hshort hfree in
theorem mem_dataBlocks_of_writeBlocks (hlow : ∀ k, k < 266 → v.blockBit k = true)
    (hwithin : Within dataBlocks i)
    (hpresent : ∀ j : Fin 12, j.val = w / 4096 → w ≠ 0 → i.iDirectTable j ≠ 0) {b : Nat}
    (hb : b ∈ writeBlocks i v.blockBit w len) : b ∈ dataBlocks := by
  obtain ⟨j, hj, hw, rfl⟩ | ⟨hlt, hclear⟩ := of_mem_writeBlocks hb
  · exact (hwithin j).resolve_left (hpresent j hj hw)
  · refine ⟨?_, hlt⟩
    by_contra hge
    rw [hlow b (by omega)] at hclear
    cases hclear

end WriteBlocks

theorem Shows.writeBlocks_eq {s : FileSys} {v : Volume} (hs : Shows s v) {n : UInt32} {i : Inode}
    (hload : v.load n = .ok i) (w len : Nat) :
    writeBlocks (s.syncFromDiskInode n) s.blockbmp.bit w len = writeBlocks i v.blockBit w len := by
  rw [hs.load hload, writeBlocks, clears_congr fun b hb =>
    (hs.blockBit b hb).symm, ← writeBlocks]

theorem Volume.Owned.not_has_writeBlocks {v : Volume} (ho : v.Owned) {w len q p : Nat}
    (hq : q ∈ taken v) (hp : p ∈ taken v) (hpq : p ≠ q)
    (hpresent : ∀ j : Fin 12, j.val = w / 4096 → w ≠ 0 → (v.inode q).iDirectTable j ≠ 0) {b : Nat}
    (hb : b ∈ dataBlocks)
    (hmem : b ∈ writeBlocks (v.inode q) v.blockBit w len) (k : Fin 12) :
    (v.inode p).iDirectTable k ≠ UInt32.ofNat b := by
  have hnat : (UInt32.ofNat b).toNat = b := toNat_of_mem_dataBlocks hb
  obtain ⟨j, hj, hw, rfl⟩ | ⟨-, hclear⟩ := of_mem_writeBlocks hmem
  · rw [UInt32.ofNat_toNat]
    exact (ho q hq).other j (hpresent j hj hw) p hp hpq k
  · intro heq
    have hne : (v.inode p).iDirectTable k ≠ 0 := ne_zero_of_mem_dataBlocks (by rwa [heq, hnat])
    have hset := (ho p hp).bit k hne
    rw [heq, hnat, hclear] at hset
    cases hset

def Gapless (l : List Nat) : Prop := ∀ x ∈ l.head?, ∀ y ∈ l.getLast?, ∀ b, x ≤ b → b ≤ y → b ∈ l

theorem Gapless.length_le {l : List Nat} (h : Gapless l) {x y : Nat} (hx : x ∈ l.head?)
    (hy : y ∈ l.getLast?) :
    y + 1 - x ≤ l.length := by
  have hsub : List.range' x (y + 1 - x) ⊆ l := fun b hb => by
    obtain ⟨hle, hlt⟩ := List.mem_range'_1.mp hb
    exact h x hx y hy b hle (by omega)
  have hle := (List.subperm_of_subset List.nodup_range' hsub).length_le
  rwa [List.length_range'] at hle

namespace Volume

theorem fwrite_took {v : Volume} {fd : UInt32} {k : Fin 32} (hk : FileSys.descriptor fd = .ok k)
    {d : FileDescriptor}
    (hd : v.fileDescriptorTable k = d) {i : Inode} (hload : v.load d.fdInum = .ok i)
    (hnum : i.iNum.toNat < 8192)
    (hrecord : v.inode i.iNum.toNat = i) (hlow : ∀ k, k < 266 → v.blockBit k = true)
    (hwithin : Within dataBlocks i)
    {data : List UInt8} (hshort : d.fdWOffset.toNat + data.length < 49152)
    (hpresent : ∀ j : Fin 12, j.val = d.fdWOffset.toNat / 4096 → d.fdWOffset.toNat ≠ 0 →
    i.iDirectTable j ≠ 0)
    (hbuffer : FitsBuffer d.fdWOffset.toNat data.length)
    (hfree : blocksFor d.fdWOffset.toNat data.length ≤ (clears v.blockBit 262144).length)
    (hspan : ∀ x ∈ (writeBlocks i v.blockBit d.fdWOffset.toNat data.length).head?,
      ∀ y ∈ (writeBlocks i v.blockBit d.fdWOffset.toNat data.length).getLast?, y + 1 - x ≤ 5) :
    ∃ r f, v.fwrite fd data = .ok (UInt32.ofNat data.length, { r.2.setDescriptor k
        { d with fdWOffset := d.fdWOffset + UInt32.ofNat data.length } with block := f }) ∧
      Took i v (if d.fdWOffset.toNat = 0 then 0 else d.fdWOffset.toNat / 4096 + 1)
        ((clears v.blockBit 262144).take (blocksFor d.fdWOffset.toNat data.length)) r ∧
      ∀ b, b ∉ writeBlocks i v.blockBit d.fdWOffset.toNat data.length →
        (∀ x ∈ (writeBlocks i v.blockBit d.fdWOffset.toNat data.length).head?,
          ∀ y ∈ (writeBlocks i v.blockBit d.fdWOffset.toNat data.length).getLast?, x ≤ b → y < b) →
              f b = v.block b := by
  obtain ⟨w, hw⟩ : ∃ w, d.fdWOffset.toNat = w := ⟨_, rfl⟩
  have hoffset : d.fdWOffset = UInt32.ofNat w := by rw [← hw, UInt32.ofNat_toNat]
  rw [hw] at hshort hpresent hbuffer hfree hspan ⊢
  obtain ⟨r, hr, htook⟩ := grow_took hlow hnum hrecord (blocksFor_le hshort) hfree
  have hdirect := fun {m} => direct_writeBlocks hshort hfree htook (m := m)
  have hlength := length_writeBlocks (i := i) hshort hfree
  have hmem : ∀ b ∈ writeBlocks i v.blockBit w data.length, b ∈ dataBlocks :=
    fun b => mem_dataBlocks_of_writeBlocks hlow hwithin hpresent
  -- the range runs from the first to the last of the blocks
  generalize hW : writeBlocks i v.blockBit w data.length = W at hspan hdirect hlength hmem ⊢
  generalize hn : (w + data.length) / 4096 - w / 4096 = n at hdirect hlength
  have hfive : n < 5 := by
    unfold FitsBuffer at hbuffer
    omega
  have hx : W.getD 0 0 ∈ W.head? := by
    rw [List.head?_eq_getElem?, List.getD_eq_getElem _ _ (by omega), List.getElem?_eq_getElem
      (by omega)]
    rfl
  have hy : W.getD n 0 ∈ W.getLast? := by
    rw [List.getLast?_eq_getElem?, hlength, Nat.add_sub_cancel, List.getD_eq_getElem _ _ (by omega),
      List.getElem?_eq_getElem (by omega)]
    rfl
  obtain ⟨hxge, hxlt⟩ := hmem _ (List.mem_of_mem_head? hx)
  obtain ⟨-, hylt⟩ := hmem _ (List.mem_of_mem_getLast? hy)
  have hspanle := hspan _ hx _ hy
  have hfirst : (UInt32.ofNat (W.getD 0 0)).toNat = W.getD 0 0 := toNat_ofNat_of_lt (by omega)
  have hlast : (UInt32.ofNat (W.getD n 0)).toNat = W.getD n 0 := toNat_ofNat_of_lt (by omega)
  have hspanOf : FileSys.spanOf (UInt32.ofNat (W.getD 0 0)) (UInt32.ofNat (W.getD n 0)) = W.getD n
      0 + 1 - W.getD 0 0 := by
    rw [spanOf_of_lt (by omega), hfirst, hlast]
  obtain ⟨buffer, hread, -⟩ := readSpan_eq hspanOf (by rw [hfirst]; exact hxge)
    (by rw [hfirst]; omega) r.2 (by omega)
  obtain ⟨f, hwrite, hf⟩ : ∃ f : Nat → Block,
      (r.2.setDescriptor k { d with fdWOffset := d.fdWOffset + UInt32.ofNat data.length }).writeSpan
        (UInt32.ofNat (W.getD 0 0))
        (UInt32.ofNat (W.getD n 0)) (buffer.putBytes (w % 4096) data) =
          .ok { r.2.setDescriptor k
              { d with fdWOffset := d.fdWOffset + UInt32.ofNat data.length } with block := f } ∧
      ∀ b, b ∉ W → (∀ x ∈ W.head?, ∀ y ∈ W.getLast?, x ≤ b → y < b) → f b = v.block b := by
    refine ⟨_, writeSpan_eq hspanOf (by rw [hfirst]; exact hxge) (by rw [hfirst]; omega) _ _,
      fun b hb hout => ?_⟩
    have hnot : ¬ (W.getD 0 0 ≤ b ∧ b < W.getD 0 0 + (W.getD n 0 + 1 - W.getD 0 0)) := fun hin => by
      have := hout _ hx _ hy hin.1
      omega
    rw [hfirst, if_neg hnot]
    refine htook.block b fun hmem => hb ?_
    rw [← hW, writeBlocks]
    exact List.mem_append_right _ hmem
  have hbegin : Volume.blockIndex r.1 (w / 4096) = .ok (UInt32.ofNat (W.getD 0 0)) := by
    rw [blockIndex_of_lt (show w / 4096 < 12 by omega)]
    exact congrArg Except.ok (hdirect (Nat.zero_le n) (show w / 4096 + 0 < 12 by omega))
  have hend : Volume.blockIndex r.1 ((w + data.length) / 4096) = .ok (UInt32.ofNat (W.getD n 0)) :=
      by
    rw [show (w + data.length) / 4096 = w / 4096 + n by omega, blockIndex_of_lt (by omega),
      hdirect le_rfl]
  have hin : FileSys.inBuffer (UInt32.ofNat w) data.length = .ok () := by
    rw [FileSys.inBuffer, toNat_offset_mod (by omega), if_pos]
    unfold FitsBuffer at hbuffer
    omega
  refine ⟨r, f, ?_, htook, hf⟩
  rw [hoffset] at hwrite ⊢
  rw [fwrite, hk, exactly_ok, ok_bind]
  dsimp only
  rw [hd, hload, ok_bind, hoffset, growIndices_eq hshort, hr, ok_bind, offset_add, toNat_offset_div
    (by omega), toNat_offset_div hshort, hbegin, ok_bind, hend, ok_bind, hread, ok_bind, hin,
    exactly_ok, ok_bind, toNat_offset_mod (by omega), ← offset_add, hwrite, ok_bind]
  rfl

end Volume

namespace FileSys
variable (s t : FileSys)

structure CanWrite (d : FileDescriptor) (len : Nat) : Prop where
  allocated : s.Allocated d.fdInum
  short : d.fdWOffset.toNat + len < 49152
  present : ∀ j : Fin 12, j.val = d.fdWOffset.toNat / 4096 → d.fdWOffset.toNat ≠ 0 →
    (s.syncFromDiskInode d.fdInum).iDirectTable j ≠ 0
  buffer : FitsBuffer d.fdWOffset.toNat len
  free : blocksFor d.fdWOffset.toNat len ≤ (clears s.blockbmp.bit 262144).length
  own : Gapless (writeBlocks (s.syncFromDiskInode d.fdInum) s.blockbmp.bit d.fdWOffset.toNat len)

def Has (q : UInt32) (b : Nat) : Prop :=
  ∃ k, (s.syncFromDiskInode q).iDirectTable k = UInt32.ofNat b

/-- From `s` to `t` only inode `q` and its blocks have changed: of the blocks in front of the data
blocks the record of `q`, the bits of the blocks it got, and the count of the free ones. -/
structure WritesOwn (q : UInt32) : Prop where
  mounted : t.Mounted
  block : ∀ b ∈ dataBlocks, t.readBlock (UInt32.ofNat b) ≠ s.readBlock (UInt32.ofNat b) →
    t.Has q b ∧ ∀ p, s.Allocated p → inodeKey p ≠ inodeKey q → ¬ s.Has p b
  inode : ∀ p, inodeKey p < 8192 → inodeKey p ≠ inodeKey q →
    t.syncFromDiskInode p = s.syncFromDiskInode p
  inodebmp : ∀ p < 8192, t.inodebmp.bit p = s.inodebmp.bit p
  blockbmp : ∀ b < 262144, t.blockbmp.bit b ≠ s.blockbmp.bit b → s.blockbmp.bit b = false ∧
    t.Has q b
  counter : t.sFreeInodeCnt = s.sFreeInodeCnt

end FileSys

theorem Well.load_of_mem {v : Volume} (hw : Well (taken v) v) {q : UInt32}
    (hq : inodeKey q ∈ taken v) :
    v.load q = .ok (v.inode (inodeKey q)) ∧ (v.inode (inodeKey q)).iNum.toNat = inodeKey q :=
  ⟨by rw [Volume.load, if_pos hq.1], hw.num _ hq⟩

theorem FileSys.CanWrite.doFwrite {s : FileSys} {v : Volume} (hs : Shows s v)
    (hw : Well (taken v) v) (ho : v.Owned)
    {fd : UInt32} {k : Fin 32} (hk : descriptor fd = .ok k) {data : List UInt8}
    (hcan : s.CanWrite (s.fileDescriptorTable k) data.length) :
    ∃ t, s.doFwrite fd data = .ok (UInt32.ofNat data.length, t) ∧
    s.WritesOwn t (s.fileDescriptorTable k).fdInum := by
  have hd : v.fileDescriptorTable k = s.fileDescriptorTable k := (hs.descriptor_eq k).symm
  generalize s.fileDescriptorTable k = d at hcan hd ⊢
  have hq := hcan.allocated.shows hs
  obtain ⟨hload, hnum⟩ := hw.load_of_mem hq
  have hinode : s.syncFromDiskInode d.fdInum = v.inode (inodeKey d.fdInum) :=
    hs.load hload
  obtain ⟨-, hshort, hpresent, hbuffer, hfree, hown⟩ := hcan
  rw [clears_congr fun b hb => (hs.blockBit b hb).symm] at hfree
  rw [hs.writeBlocks_eq hload] at hown
  rw [hinode] at hpresent
  obtain ⟨r, f, hrun, htook, hf⟩ := Volume.fwrite_took hk hd hload (hnum.symm ▸ hq.1) (by rw [hnum])
    hw.low (hw.within _ hq)
    hshort hpresent hbuffer hfree fun x hx y hy => by
      refine (hown.length_le hx hy).trans ?_
      rw [length_writeBlocks hshort hfree]
      unfold FitsBuffer at hbuffer
      omega
  obtain ⟨⟨x, t⟩, ht, rfl, hshows⟩ := (hs.doFwrite fd data).exists_ok hrun
  dsimp only at ht hshows
  have hself : t.syncFromDiskInode d.fdInum = r.1 := by
    have hloaded := hshows.load (n := d.fdInum)
      (by rw [Volume.load, if_pos hq.1])
    rw [hloaded, ← hnum]
    exact (congrFun htook.record _).trans (Function.update_self ..)
  have hhas : ∀ b ∈ writeBlocks (v.inode (inodeKey d.fdInum)) v.blockBit d.fdWOffset.toNat
      data.length, t.Has d.fdInum b :=
    fun b hb => by
      rw [FileSys.Has, hself]
      exact exists_direct_writeBlocks hshort hfree htook hb
  refine ⟨t, ht, hshows.mounted fun b hb => ?_, fun b hb hne => ?_, fun p hp hpq => ?_, fun p hp =>
    ?_, fun b hb hne => ?_, ?_⟩
  · exact (htook.bit b).trans (by rw [hw.low b hb, Bool.true_or])
  · have hmem : b ∈ writeBlocks (v.inode (inodeKey d.fdInum)) v.blockBit d.fdWOffset.toNat
        data.length := by
      by_contra hnot
      rw [← hs.block b hb.1 (by have := hb.2; omega), ← hshows.block b hb.1
        (by have := hb.2; omega)] at hne
      exact hne (hf b hnot fun x hx y hy hle => not_le.mp fun hge => hnot (hown x hx y hy b hle
        hge))
    refine ⟨hhas b hmem, fun p hp hpq hother => ?_⟩
    obtain ⟨j, hj⟩ := hother
    have hp := hp.shows hs
    rw [hs.load (hw.load_of_mem hp).1] at hj
    exact ho.not_has_writeBlocks hq hp hpq hpresent hb hmem j hj
  · rw [hs.load (n := p) (by rw [Volume.load, if_pos hp]),
      hshows.load (n := p) (by rw [Volume.load, if_pos hp])]
    exact (congrFun htook.record _).trans (Function.update_of_ne (by rwa [hnum]) _ _)
  · rw [← hs.inodeBit p hp, ← hshows.inodeBit p hp]
    exact congrFun htook.inodeBit p
  · rw [← hs.blockBit b hb, ← hshows.blockBit b hb] at hne
    rw [← hs.blockBit b hb]
    have hbit := htook.bit b
    by_cases hmem : b ∈ (clears v.blockBit 262144).take (blocksFor d.fdWOffset.toNat data.length)
    · exact ⟨(mem_clears.mp (List.mem_of_mem_take hmem)).2, hhas b (List.mem_append_right _ hmem)⟩
    · rw [decide_eq_false hmem, Bool.or_false] at hbit
      exact absurd hbit hne
  · rw [FileSys.sFreeInodeCnt, FileSys.sFreeInodeCnt, hs.counters, hshows.counters,
      superblockOf_word_inodes, superblockOf_word_inodes]
    exact htook.freeInodes

namespace FileSys
variable {s : FileSys} {d : FileDescriptor}

def CanRead (s : FileSys) (d : FileDescriptor) (n : Nat) : Prop :=
  s.Allocated d.fdInum ∧ d.fdROffset.toNat + n < 49152 ∧ ∀ first last : Fin 12,
    first.val = d.fdROffset.toNat / 4096 →
    last.val = (d.fdROffset.toNat + n) / 4096 →
    let table := (s.syncFromDiskInode d.fdInum).iDirectTable
    spanOf (table first) (table last) ≤ 5 ∧ ∀ m < n, ∀ k : Fin 12, k.val = (d.fdROffset.toNat + m) /
      4096 →
      table k ≠ 0 ∧ table k = table first + UInt32.ofNat (k.val - first.val) ∧
        k.val - first.val < spanOf (table first) (table last)

/-- Byte `m` is the one at its place in the file, from a block that no other inode in use has, or
zero where the file has no block. -/
def ReadsOwn (s : FileSys) (d : FileDescriptor) (data : List UInt8) : Prop :=
  ∀ m < data.length, ∃ k : Fin 12, k.val = (d.fdROffset.toNat + m) / 4096 ∧
    let b := (s.syncFromDiskInode d.fdInum).iDirectTable k
    (b ≠ 0 ∧ data.getD m 0 = (s.readBlock b).get ((d.fdROffset.toNat + m) % 4096) ∧
      ∀ p, s.Allocated p → inodeKey p ≠ inodeKey d.fdInum → ¬ s.Has p b.toNat) ∨ b = 0 ∧
        data.getD m 0 = 0

theorem getBlockIndex_direct (s : FileSys) (i : Inode) {k : Nat} (hk : k < 12) :
    s.getBlockIndexInInode i k = .ok (i.iDirectTable ⟨k, hk⟩) :=
  eq_ok_of_refines (s.getBlockIndex_refines i k) (Volume.blockIndex_of_lt hk)

theorem readSpan_ok (s : FileSys) {first last : UInt32} (hfive : spanOf first last ≤ 5) :
    ∃ buffer, s.readSpan first last = .ok buffer ∧ ∀ i < 4096 * spanOf first last,
      buffer.get i = (s.readBlock (first + UInt32.ofNat (i / 4096))).get (i % 4096) := by
  refine ⟨_, if_pos hfive, fun i hi => ?_⟩
  rw [Buffer.get_foldl_blit (fun k => s.readBlock (first + UInt32.ofNat k)) _ (by omega) (by omega),
    if_pos hi]

theorem CanRead.doFread {v : Volume} (hs : Shows s v) (hw : Well (taken v) v) (ho : v.Owned)
    {fd : UInt32} {k : Fin 32}
    (hk : descriptor fd = .ok k) {n : UInt32} (hcan : s.CanRead (s.fileDescriptorTable k) n.toNat) :
    ∃ data t, s.doFread fd n = .ok (data, t) ∧ data.length = n.toNat ∧
    s.ReadsOwn (s.fileDescriptorTable k) data := by
  obtain ⟨hallocated, hshort, hcan⟩ := hcan
  generalize hd : s.fileDescriptorTable k = d at hallocated hshort hcan ⊢
  have hq := hallocated.shows hs
  obtain ⟨r, hr⟩ : ∃ r, d.fdROffset.toNat = r := ⟨_, rfl⟩
  obtain ⟨len, hlen⟩ : ∃ len, n.toNat = len := ⟨_, rfl⟩
  have hoffset : d.fdROffset = UInt32.ofNat r := by rw [← hr, UInt32.ofNat_toNat]
  have hn : n = UInt32.ofNat len := by rw [← hlen, UInt32.ofNat_toNat]
  rw [hr, hlen] at hshort
  rw [hr, hlen] at hcan
  obtain ⟨hfive, hblocks⟩ := hcan ⟨r / 4096, by omega⟩ ⟨(r + len) / 4096, by omega⟩ rfl rfl
  dsimp only at hblocks
  have hin : inBuffer (UInt32.ofNat r) len = .ok () := by
    rw [inBuffer, toNat_offset_mod (by omega), if_pos]
    by_cases hzero : len = 0
    · omega
    · have hlast := (hblocks (len - 1) (by omega) ⟨(r + (len - 1)) / 4096, by omega⟩ rfl).2.2
      simp only at hlast
      omega
  obtain ⟨buffer, hbuffer, hget⟩ := s.readSpan_ok hfive
  refine ⟨(List.range len).map fun j => buffer.get (r % 4096 + j),
    s.setDescriptor k { d with fdROffset := UInt32.ofNat (r + len) }, ?_, by
      simp [hlen], fun m hm => ?_⟩
  · rw [FileSys.doFread, hk, ok_bind]
    dsimp only
    rw [hd, hoffset, hn, offset_add, toNat_offset_div (by omega), toNat_offset_div hshort,
      s.getBlockIndex_direct _ (show r / 4096 < 12 by omega), ok_bind,
      s.getBlockIndex_direct _ (show (r + len) / 4096 < 12 by omega), ok_bind, hbuffer, ok_bind,
        toNat_offset (w := len) (by omega), hin, ok_bind, toNat_offset_mod (by omega)]
    rfl
  · rw [List.length_map, List.length_range] at hm
    obtain ⟨hne, heq, hlt⟩ := hblocks m hm ⟨(r + m) / 4096, by omega⟩ rfl
    simp only at hlt heq
    refine ⟨⟨(r + m) / 4096, by omega⟩, by rw [hr], .inl ⟨hne, ?_, fun p hp hpq hother => ?_⟩⟩
    swap
    · obtain ⟨j, hj⟩ := hother
      rw [UInt32.ofNat_toNat, hs.load (hw.load_of_mem hq).1,
        hs.load (hw.load_of_mem (hp.shows hs)).1] at hj
      rw [hs.load (hw.load_of_mem hq).1] at hne
      exact (ho _ hq).other _ hne _ (hp.shows hs) hpq j hj
    rw [List.getD_eq_getElem _ _ (by simpa using hm), List.getElem_map, List.getElem_range, hget _
      (by omega), heq, hr,
      show (r % 4096 + m) / 4096 = (r + m) / 4096 - r / 4096 by
        omega, show (r % 4096 + m) % 4096 = (r + m) % 4096 by omega]

end FileSys

def FileSys.RemovesDirect (s : FileSys) : Op → Prop
  | .rmdir path =>
    ∀ n name c, s.parentOf path = .ok (n, name) → s.findFile (s.syncFromDiskInode n) name = .ok c →
      (∃ k, (s.syncFromDiskInode c).iDirectTable k = 0) ∨
      (s.syncFromDiskInode c).iIndirectBlock1Ptr = 0
  | _ => True

/-- The calls of `do_fwrite` and `do_fread` that go over blocks of their file only, and all regular
other calls. -/
def Op.KeepsBlocks (op : Op) (s : FileSys) : Prop :=
  match op with
  | .fwrite fd data =>
    ∀ k, FileSys.descriptor fd = .ok k → s.CanWrite (s.fileDescriptorTable k) data.length
  | .fread fd n => ∀ k, FileSys.descriptor fd = .ok k → s.CanRead (s.fileDescriptorTable k) n.toNat
  | op => op.Regular s ∧ s.RemovesDirect op

theorem Op.KeepsBlocks.regular {op : Op} {s : FileSys} (h : op.KeepsBlocks s) : op.Regular s := by
  cases op with
  | fwrite fd data =>
    refine ⟨fun k hk => .inr (h k hk).allocated, fun n name htarget => (by cases htarget),
      fun k hk => ⟨?_, fun hw j hj => ?_⟩⟩
    · have := (h k hk).short
      omega
    · refine (h k hk).present j (hj.trans (UInt32.toNat_div ..)) fun hzero => hw ?_
      exact UInt32.toNat_inj.mp hzero
  | fread fd n => exact ⟨trivial, fun n name htarget => (by cases htarget), trivial⟩
  | _ => exact h.1

theorem Volume.length_leading_lt {i : Inode} (h : ∃ k, i.iDirectTable k = 0) :
    (leading i).length < 12 := by
  obtain ⟨k, hk⟩ := h
  by_contra hge
  have hall : leading i = (List.finRange 12).map i.iDirectTable :=
    (List.takeWhile_prefix _).eq_of_length (by
      have hle := (List.takeWhile_prefix (l := (List.finRange 12).map i.iDirectTable)
        (· ≠ 0)).length_le
      rw [List.length_map, List.length_finRange] at hle ⊢
      rw [leading] at hge
      omega)
  have hmem : i.iDirectTable k ∈ leading i := hall ▸ List.mem_map_of_mem (List.mem_finRange k)
  exact (ne_zero_of_mem_leading hmem).1 hk

theorem Reach.owned {t : FileSys} (h : Reach Op.KeepsBlocks t) :
    ∃ v, Shows t v ∧ Well (taken v) v ∧ v.Owned := by
  refine h.invariant (I := fun v => Well (taken v) v ∧ v.Owned) (fun e s => ⟨?_, owned_mkfs e s⟩)
    fun {s t v e op} hs ⟨hw, ho⟩ hop hexec => ?_
  · rw [taken_mkfs]
    exact well_mkfs e s
  · have hremove : Volume.Removable (taken v) v op := fun path n name i c hpath htarget hload hc
        hmem => by
      subst hpath
      have hc' := eq_ok_of_refines (hs.findFile _ _) hc
      rw [← hs.load hload] at hc'
      have hdirect := hop.2 n name c (eq_ok_of_refines (hs.target (.rmdir path)) htarget) hc'
      rw [hs.load (Volume.load_of_lt hmem.1)] at hdirect
      exact hdirect.imp_left Volume.length_leading_lt
    obtain ⟨v', hv', hdoes, hwell⟩ := hop.regular.does hs hw hremove hexec
    exact ⟨v', hv', hwell, ho.change hw hdoes.change⟩

/-- In every run of such calls each `do_fwrite` changes only its file and each `do_fread` returns
only bytes of its file. -/
theorem io_keeps_to_own_blocks {s : FileSys} (h : Reach Op.KeepsBlocks s) {fd : UInt32} {k : Fin 32}
    (hk : FileSys.descriptor fd = .ok k) :
    (∀ data, (Op.fwrite fd data).KeepsBlocks s →
      ∃ t, s.doFwrite fd data = .ok (UInt32.ofNat data.length, t) ∧
      s.WritesOwn t (s.fileDescriptorTable k).fdInum) ∧
    ∀ n, (Op.fread fd n).KeepsBlocks s →
      ∃ data t, s.doFread fd n = .ok (data, t) ∧ data.length = n.toNat ∧
      s.ReadsOwn (s.fileDescriptorTable k) data := by
  obtain ⟨v, hs, hw, ho⟩ := h.owned
  exact ⟨fun data hop => (hop k hk).doFwrite hs hw ho hk, fun n hop => (hop k hk).doFread hs hw ho
    hk⟩

/-! One file: a byte is written, then read back. -/

section OneFile

theorem gapless_range' (a n : Nat) : Gapless (List.range' a n) := fun x hx y hy b hxb hby => by
  rw [List.head?_range'] at hx
  rw [List.getLast?_range'] at hy
  split_ifs at hx hy with hn
  · cases hx
  · obtain rfl := Option.some.inj hx
    obtain rfl := Option.some.inj hy
    exact List.mem_range'_1.mpr ⟨hxb, by omega⟩

theorem take_range' {a n c : Nat} (hc : c ≤ n) : (List.range' a n).take c = List.range' a c := by
  have happend := List.range'_append_1 (s := a) (m := c) (n := n - c)
  rw [Nat.add_sub_of_le hc] at happend
  rw [← happend]
  exact List.take_left' List.length_range'

namespace FileSys.Opened
variable {s : FileSys} {free r : Nat} {content : List UInt8} (h : s.Opened free r content)
include h

theorem allocated :
    s.Allocated (s.fileDescriptorTable 0).fdInum ∧ inodeKey (s.fileDescriptorTable 0).fdInum = 1 ∧
    (s.fileDescriptorTable 0).fdROffset = UInt32.ofNat r ∧ (s.fileDescriptorTable 0).fdWOffset =
    UInt32.ofNat content.length := by
  obtain ⟨v, hs, hv⟩ := h
  obtain ⟨mode, hd⟩ := hv.descriptor
  rw [hs.descriptor_eq, hd]
  exact ⟨⟨(by decide : inodeKey 1 < 8192), (hs.inodeBit 1 (by omega)).symm.trans hv.taken⟩, rfl,
    rfl, rfl⟩

theorem canWrite {len : Nat} (hshort : content.length + len < 49152)
    (hroom : free + blocksFor content.length len ≤ 262144)
    (hbuffer : FitsBuffer content.length len) : s.CanWrite (s.fileDescriptorTable 0) len := by
  obtain ⟨hallocated, hkey, -, hoffset⟩ := h.allocated
  obtain ⟨v, hs, hv⟩ := h
  have hinode : s.syncFromDiskInode (s.fileDescriptorTable 0).fdInum = v.inode 1 :=
    hs.load (by rw [Volume.load, if_pos hallocated.1, hkey])
  have hw : (s.fileDescriptorTable 0).fdWOffset.toNat = content.length := by
    rw [hoffset, toNat_offset (by omega)]
  have hclears : clears s.blockbmp.bit 262144 = List.range' free (262144 - free) :=
    (clears_congr fun b hb => (hs.blockBit b hb).symm).trans (clears_of_lt hv.bits hv.le)
  have hpointer : content.length ≠ 0 → ∃ first, 267 ≤ first ∧ first + content.length / 4096 + 1 =
    free ∧
      ∀ j : Fin 12, j.val ≤ content.length / 4096 → (v.inode 1).iDirectTable j = UInt32.ofNat
          (first + j.val) := fun hne => by
    obtain ⟨first, hfirst, hfile⟩ := hv.blocks.resolve_left fun hempty =>
      hne (by rw [hempty.1]; rfl)
    exact ⟨first, hfile.ge, hfirst, hfile.pointer⟩
  have hnat : ∀ {b}, b < free → (UInt32.ofNat b).toNat = b :=
    fun hb => toNat_ofNat_of_lt (by have := hv.le; omega)
  refine ⟨hallocated, by rw [hw]; exact hshort, fun j hj hne => ?_, by rw [hw]; exact hbuffer, ?_,
    ?_⟩
  · rw [hw] at hj hne
    obtain ⟨first, hge, hfirst, htable⟩ := hpointer hne
    rw [hinode, htable j hj.le, ← UInt32.toNat_inj.ne, hnat (by omega)]
    simp
    omega
  · rw [hw, hclears, List.length_range']
    omega
  · rw [hw, hinode, writeBlocks, hclears, take_range' (by omega)]
    split_ifs with hne
    · obtain ⟨first, hge, hfirst, htable⟩ := hpointer hne.1
      rw [htable _ le_rfl, hnat (show first + content.length / 4096 < free by omega),
        List.singleton_append, ← hfirst,
        ← List.range'_succ]
      exact gapless_range' _ _
    · rw [List.nil_append]
      exact gapless_range' _ _

theorem canRead {n : Nat} (hn : r + n ≤ content.length) (hne : content ≠ [])
    (hbuffer : FitsBuffer r n) :
    s.CanRead (s.fileDescriptorTable 0) n := by
  obtain ⟨hallocated, hkey, hoffset, -⟩ := h.allocated
  obtain ⟨v, hs, hv⟩ := h
  have hinode : s.syncFromDiskInode (s.fileDescriptorTable 0).fdInum = v.inode 1 :=
    hs.load (by rw [Volume.load, if_pos hallocated.1, hkey])
  have hshort := hv.short
  have hr : (s.fileDescriptorTable 0).fdROffset.toNat = r := by
    rw [hoffset, toNat_offset (by omega)]
  obtain ⟨first, hfirst, hfile⟩ := hv.blocks.resolve_left fun hempty => hne hempty.1
  have hge := hfile.ge
  have hle := hv.le
  refine ⟨hallocated, by rw [hr]; omega, fun i j hi hj => ?_⟩
  rw [hr] at hi hj
  rw [hr]
  unfold FitsBuffer at hbuffer
  have hspan : FileSys.spanOf ((v.inode 1).iDirectTable i) ((v.inode 1).iDirectTable j) = (r + n) /
      4096 - r / 4096 + 1 := by
    rw [hfile.pointer i (by omega), hfile.pointer j (by omega), spanOf_ofNat (by omega) (by omega)]
    omega
  dsimp only
  rw [hinode, hspan]
  refine ⟨by omega, fun m hm k hk => ⟨?_, ?_, by omega⟩⟩
  · rw [hfile.pointer k (by omega), ← UInt32.toNat_inj.ne, toNat_ofNat_of_lt (by omega)]
    simp
    omega
  · rw [hfile.pointer k (by omega), hfile.pointer i (by omega), offset_add]
    congr 1
    omega

end FileSys.Opened

theorem touch_regular {s t : FileSys} {e : Env} (ht : Shows t (Volume.mkfs e s)) :
    (Op.touch .a 0).Regular t := by
  have hparent : t.parentOf (Text.dotSlash.append .a) = .ok (0, .a) :=
    eq_ok_of_refines (ht.parentOf _) (Text.dotSlash_append .a ▸ mkfs_parentOf)
  have hallocated : t.Allocated 0 := ⟨by decide, (ht.inodeBit 0 (by omega)).symm⟩
  refine ⟨fun n name hn => ?_, fun n name hn => .inr ?_, trivial⟩
  · obtain ⟨rfl, -⟩ := Prod.mk.inj (Except.ok.inj (hn.symm.trans hparent))
    exact .inr hallocated
  · obtain ⟨rfl, -⟩ := Prod.mk.inj (Except.ok.inj (hn.symm.trans hparent))
    rw [ht.load Volume.mkfs_load]
    rfl

theorem io_keeps_one_byte :
    ∃ s₀ s₁ s₂ s₃, FileSys.blank.doMkfs .blank = .ok s₀ ∧ s₀.doTouch .blank .a 0 = .ok (0, s₁) ∧
    s₁.doFopen .a 0 = .ok (0, s₂) ∧ s₂.doFwrite 0 [1] = .ok (1, s₃) ∧
    (∃ t, s₃.doFwrite 0 [2] = .ok (1, t) ∧ s₃.WritesOwn t (s₃.fileDescriptorTable 0).fdInum) ∧
    ∃ data t, s₃.doFread 0 1 = .ok (data, t) ∧ data.length = 1 ∧
    s₃.ReadsOwn (s₃.fileDescriptorTable 0) data := by
  obtain ⟨s₀, s₁, s₂, hs₀, hs₁, hs₂, hopened₂⟩ := exists_opened Text.isFileName_a .blank .blank 0 0
    .blank
  have hcan : ∀ {s : FileSys} {free r : Nat} {content : List UInt8} (b : UInt8), s.Opened free r
    content → content.length ≤ 1 →
      free ≤ 268 → (Op.fwrite 0 [b]).KeepsBlocks s := fun b h hlen hfree k hk => by
    obtain rfl := Except.ok.inj hk
    refine h.canWrite (by simp; omega) ?_ ?_
    · simp only [blocksFor, List.length_singleton]
      split_ifs <;> omega
    · simp only [FitsBuffer, List.length_singleton]
      omega
  obtain ⟨-, -, s₃, hs₃, hopened₃⟩ | ⟨hbad, -⟩ := hopened₂.doFwrite (c := [1]) (by simp)
  swap
  · exact absurd ⟨by simp [blocksFor], by simp [FitsBuffer]⟩ hbad
  have hreach : Reach Op.KeepsBlocks s₃ := by
    obtain ⟨t, ht, hshows⟩ := doMkfs_shows .blank .blank
    obtain rfl := Except.ok.inj (hs₀.symm.trans ht)
    have htouch : Step Op.KeepsBlocks s₀ s₁ :=
      ⟨.blank, .touch .a 0, ⟨touch_regular hshows, trivial⟩, by rw [exec, hs₁]; rfl⟩
    have hfopen : Step Op.KeepsBlocks s₁ s₂ :=
      ⟨.blank, .fopen .a 0, ⟨⟨trivial, fun n name hn => (by cases hn), trivial⟩,
        trivial⟩, by rw [exec, hs₂]; rfl⟩
    have hfwrite : Step Op.KeepsBlocks s₂ s₃ :=
      ⟨.blank, .fwrite 0 [1], hcan 1 hopened₂ (by simp) (by omega), by rw [exec, hs₃]; rfl⟩
    exact ⟨_, _, s₀, hs₀, ((Relation.ReflTransGen.single htouch).tail hfopen).tail hfwrite⟩
  obtain ⟨hwrite, hread⟩ := io_keeps_to_own_blocks hreach (show FileSys.descriptor 0 = .ok 0
    from rfl)
  refine ⟨s₀, s₁, s₂, s₃, hs₀, hs₁, hs₂, hs₃, hwrite [2] (hcan 2 hopened₃ (by simp)
    (by simp [blocksFor])), hread 1 fun k hk => ?_⟩
  obtain rfl := Except.ok.inj hk
  exact hopened₃.canRead (by simp) (by simp) (by simp [FitsBuffer])

theorem fread_reads_superblock :
    ∃ s₀ s₁ s₂ data t, FileSys.blank.doMkfs .blank = .ok s₀ ∧ s₀.doTouch .blank .a 0 = .ok (0, s₁) ∧
    s₁.doFopen .a 0 = .ok (0, s₂) ∧ s₂.doFread 0 12 = .ok (data, t) ∧ data.getD 8 0 = 0x59 ∧
    ¬ s₂.ReadsOwn (s₂.fileDescriptorTable 0) data := by
  obtain ⟨s₀, s₁, s₂, hs₀, hs₁, hs₂, hopened⟩ := exists_opened Text.isFileName_a .blank .blank 0 0
    .blank
  obtain ⟨hallocated, hkey, hoffset, -⟩ := hopened.allocated
  obtain ⟨v, hs, hv⟩ := hopened
  have hpointer : (s₂.syncFromDiskInode (s₂.fileDescriptorTable 0).fdInum).iDirectTable 0 = 0 := by
    rw [hs.load (by rw [Volume.load, if_pos hallocated.1, hkey])]
    obtain hempty | ⟨first, hfirst, hfile⟩ := hv.blocks
    · exact hempty.2
    · have hge := hfile.ge
      simp at hfirst
      omega
  have hsuper : (s₂.readBlock 0).get 8 = 0x59 := by
    rw [hs.read Volume.read_zero, ← Nat.add_zero 8, ← Buffer.wordByte_word (by omega),
      superblockOf_word_magic]
    rfl
  obtain ⟨buffer, hbuffer, hget⟩ := s₂.readSpan_ok (show FileSys.spanOf 0 0 ≤ 5 by decide)
  have hread : s₂.doFread 0 12 = .ok ((List.range 12).map fun j => buffer.get (0 + j),
      s₂.setDescriptor 0 { s₂.fileDescriptorTable 0 with fdROffset := UInt32.ofNat 0 + 12 }) := by
    rw [FileSys.doFread, show FileSys.descriptor 0 = .ok 0 from rfl, ok_bind]
    dsimp only
    rw [hoffset, show (UInt32.ofNat 0 / 4096).toNat = 0 from rfl, show ((UInt32.ofNat 0 + 12) /
      4096).toNat = 0 from rfl,
      s₂.getBlockIndex_direct _ (by omega), show (⟨0, by omega⟩ : Fin 12) = 0 from rfl, hpointer,
        ok_bind, ok_bind, hbuffer, ok_bind]
    rfl
  have hbyte : ((List.range 12).map fun j => buffer.get (0 + j)).getD 8 0 = 0x59 := by
    rw [List.getD_eq_getElem _ _ (by simp), List.getElem_map, List.getElem_range, hget _
      (by decide)]
    exact hsuper
  refine ⟨s₀, s₁, s₂, _, _, hs₀, hs₁, hs₂, hread, hbyte, fun hown => ?_⟩
  obtain ⟨k, hk, hown⟩ := hown 8 (by simp)
  obtain rfl : k = 0 := Fin.ext (by rw [hk, hoffset]; rfl)
  obtain ⟨hne, -⟩ | ⟨-, hzero⟩ := hown
  · exact hne hpointer
  · rw [hbyte] at hzero
    cases hzero

end OneFile

end Ucas.Fs

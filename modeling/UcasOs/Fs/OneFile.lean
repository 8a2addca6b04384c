import UcasOs.Fs.Create
import UcasOs.Fs.Descriptors

/-! One file on a new file system: `do_touch`, `do_fopen`, and the calls of `do_fwrite` and
`do_fread` that follow. With nobody else taking blocks, those of the file lie one behind the other.
-/

namespace Ucas.Fs
open Ucas.Lib

/-- A name that `do_touch` can enter in the root directory of a new file system. -/
structure Text.IsFileName (name : Text) : Prop where
  nonempty : name.bytes ≠ []
  plain : Text.slash ∉ name.bytes
  short : name.length < 64
  notDot : name ≠ .dot
  notDotdot : name ≠ .dotdot

theorem Text.isFileName_a : Text.a.IsFileName :=
  ⟨by decide, by decide, by decide, by decide, by decide⟩

namespace Parent
variable {v : Volume} {n q b : Nat} {name : Text} (h : Parent v n name q b) (e : Env)
  (mode : UInt16)

def touched (e : Env) (mode : UInt16) (v : Volume) (n q : Nat) (name : Text) : Volume :=
  ((v.created q (newInode e (sIfreg ||| mode) 0 0 (UInt32.ofNat q))).stored
    (v.inode n).addEntry).wrote
    ((v.inode n).iDirectTable 0).toNat (entered e v n q name)

include h

theorem touch_eq : v.touch e name mode = .ok (0, touched e mode v n q name) := by
  have hslot := h.slot_toNat
  have habsent : v.findDentry (v.inode n) name = .ok notFound := by
    rw [Volume.findDentry_eq h.data h.named, slotOf_eq_none.mpr h.absent]
    rfl
  rw [Volume.touch_eq (Text.dotSlash_append name ▸ h.parentOf) h.load habsent h.inode,
    Volume.appendDentry,
    Volume.writeDentry_first _ (by rw [h.num]; exact h.lt)
      ⟨by rw [UInt32.le_iff_toNat_le, hslot]; simp, UInt32.le_refl _⟩ (by rw [hslot]; exact h.room)
        h.data, hslot]
  rfl

theorem findFile_touched {i : Inode} (hi : i.iDirectTable 0 = (v.inode n).iDirectTable 0)
    {other : Text}
    (hother : other.bytes ≠ []) : (touched e mode v n q name).findFile i other =
      if other = name then .ok (UInt32.ofNat q) else v.findFile i other := by
  -- the directory is the one that `do_mkdir` leaves, and lookups read nothing else
  have hsame := h.findFile_made e mode hi hother
  have hblock : ∀ u : Volume, u.block ((v.inode n).iDirectTable 0).toNat = entered e v n q name →
    u.findFile i other =
      .ok ((slotOf (entered e v n q name) other).elim notFound fun j =>
          (dentryAt (entered e v n q name) j).dInum) :=
    fun u hu => by
      rw [Volume.findFile_eq (hi ▸ h.data) (by rw [hi, hu]; exact h.named_entered e), hi, hu]
  rw [hblock _ (made_block_parent e mode)] at hsame
  rw [hblock _ (Function.update_self ..), hsame]

theorem touched_parent : (touched e mode v n q name).inode n = (v.inode n).addEntry := by
  have hnum : (v.inode n).addEntry.iNum.toNat = n := h.num
  simp only [touched, Volume.wrote, Volume.stored, hnum, Function.update_self]

theorem touched_child :
    (touched e mode v n q name).inode q = newInode e (sIfreg ||| mode) 0 0 (UInt32.ofNat q) := by
  have hnum : (v.inode n).addEntry.iNum.toNat = n := h.num
  simp only [touched, Volume.wrote, Volume.stored, Volume.created, hnum, Function.update_of_ne
    h.q_ne, Function.update_self]

theorem touched_dot (hdot : name ≠ .dot) :
    (touched e mode v n q name).findFile (touched e mode v n q name).currentDir .dot = .ok
    (UInt32.ofNat n) := by
  have hslot : slotOf (v.block ((v.inode n).iDirectTable 0).toNat) .dot = some 0 :=
    slotOf_eq_some.mpr ⟨by omega, h.dot, fun j hj => absurd hj (by omega)⟩
  rw [show (touched e mode v n q name).currentDir = v.currentDir from rfl,
    h.findFile_touched e mode h.copy (by decide), if_neg hdot.symm, h.findFile _ h.copy, hslot,
      Option.elim_some, h.self]

theorem touched_load :
    (touched e mode v n q name).load (UInt32.ofNat n) = .ok (v.inode n).addEntry := by
  rw [Volume.load_of_lt (by rw [h.number]; exact h.lt), h.number, h.touched_parent]

theorem fopen_eq (hdot : name ≠ .dot) (hq : q ≠ 0) (hfree : ∀ k, v.fileDescriptorTable k = .zero)
    (access : UInt32) :
    (touched e mode v n q name).fopen name access =
      .ok (0, (touched e mode v n q name).setDescriptor 0 ⟨UInt32.ofNat q, access, 0, 0⟩) := by
  have hnumber : UInt32.ofNat q ≠ 0 := fun hzero => hq (by
    rw [← toNat_ofNat_of_lt (n := q) (by have := h.q_lt; omega), hzero]
    rfl)
  have hnone : (touched e mode v n q name).firstDescriptor (fun d => d.fdInum == UInt32.ofNat q) =
      none :=
    Session.firstDescriptor_eq_none.mpr fun k => by
      rw [show (touched e mode v n q name).fileDescriptorTable k = .zero from hfree k]
      exact beq_eq_false_iff_ne.mpr hnumber.symm
  have hfirst : (touched e mode v n q name).firstDescriptor FileDescriptor.isEmpty = some 0 := by
    rw [Session.firstDescriptor, List.find?_eq_some_iff_append]
    refine ⟨?_, [], (List.finRange 32).tail, rfl, by simp⟩
    rw [show (touched e mode v n q name).fileDescriptorTable 0 = .zero from hfree 0]
    rfl
  rw [Volume.fopen, Text.dotSlash_append, h.separate, exactly_ok, ok_bind]
  dsimp only
  rw [h.touched_dot e mode hdot, ok_bind, h.touched_load, ok_bind, h.findFile_touched e mode
    (i := (v.inode n).addEntry) rfl h.nonempty, if_pos rfl, ok_bind,
    Volume.openDescriptor, hnone, hfirst]
  rfl

end Parent

section Mkfs
variable {name : Text} (hname : name.IsFileName) (e : Env) (s : FileSys)
include hname

theorem parent_mkfs : Parent (Volume.mkfs e s) 0 name 1 267 := by
  have hblock : (Volume.mkfs e s).block ((((Volume.mkfs e s).inode 0)).iDirectTable 0).toNat =
      directoryBlock 0 0 :=
    Volume.mkfs_block
  have hdata : (((Volume.mkfs e s).inode 0).iDirectTable 0).toNat = 266 := block_rootOf (e := e)
  constructor
  case low => exact mkfs_low
  case lt => omega
  case num => rfl
  case taken => rfl
  case data => exact hdata ▸ ⟨le_rfl, by omega⟩
  case bit => exact hdata ▸ rfl
  case copy => rfl
  case named => exact hblock ▸ named_directoryBlock 0 0
  case dot =>
    rw [hblock, dentryAt_directoryBlock _ _ (by omega), if_neg (by omega), if_pos rfl]
    exact dName_fill (by decide)
  case self =>
    rw [hblock, dentryAt_directoryBlock _ _ (by omega), if_neg (by omega), if_pos rfl]
    exact dInum_fill ..
  case room => exact Nat.lt_of_sub_eq_succ rfl
  case vacantInum =>
    rw [hblock, show ((Volume.mkfs e s).inode 0).iFnum.toNat + 2 = 2 from rfl,
      dentryAt_directoryBlock _ _ (by omega),
      if_neg (by omega), if_neg (by omega)]
    exact dInum_zero
  case vacantName =>
    rw [hblock, show ((Volume.mkfs e s).inode 0).iFnum.toNat + 2 = 2 from rfl,
      dentryAt_directoryBlock _ _ (by omega),
      if_neg (by omega), if_neg (by omega)]
    exact dName_zero
  case nonempty => exact hname.nonempty
  case plain => exact hname.plain
  case short => exact hname.short
  case absent =>
    rw [hblock]
    refine slotOf_eq_none.mp ?_
    rw [slotOf_directoryBlock hname.nonempty, if_neg hname.notDot, if_neg hname.notDotdot]
  case inode => exact mkfs_firstClear_inode
  case block => exact mkfs_firstClear_block

end Mkfs

def blocksFor (w len : Nat) : Nat := if w = 0 then len / 4096 + 1 else (w + len) / 4096 - w / 4096

theorem blocksFor_le {w len : Nat} (h : w + len < 49152) :
    (if w = 0 then 0 else w / 4096 + 1) + blocksFor w len ≤ 12 := by
  unfold blocksFor
  split_ifs <;> omega

def FitsBuffer (o len : Nat) : Prop := (o % 4096 + len) / 4096 < 5

theorem offset_add (w len : Nat) : UInt32.ofNat w + UInt32.ofNat len = UInt32.ofNat (w + len) :=
  (UInt32.ofNat_add ..).symm

section Offsets
variable {w : Nat} (hw : w < 49152)
include hw

theorem toNat_offset : (UInt32.ofNat w).toNat = w := toNat_ofNat_of_lt (by omega)

theorem toNat_offset_div : (UInt32.ofNat w / 4096).toNat = w / 4096 := by
  rw [UInt32.toNat_div, toNat_offset hw]
  rfl

theorem toNat_offset_mod : (UInt32.ofNat w % 4096).toNat = w % 4096 := by
  rw [UInt32.toNat_mod, toNat_offset hw]
  rfl

end Offsets

theorem growIndices_eq {w len : Nat} (hshort : w + len < 49152) :
    FileSys.growIndices (UInt32.ofNat w) (UInt32.ofNat len) =
      List.range' (if w = 0 then 0 else w / 4096 + 1) (blocksFor w len) := by
  have hend := toNat_offset_div hshort
  have hbegin := toNat_offset_div (show w < 49152 by omega)
  have hneed : (UInt32.ofNat (w + len) / 4096 - UInt32.ofNat w / 4096).toNat = (w + len) / 4096 - w
      / 4096 := by
    rw [UInt32.toNat_sub_of_le _ _ (by rw [UInt32.le_iff_toNat_le, hend, hbegin]; omega), hend,
      hbegin]
  have hzero : UInt32.ofNat w = 0 ↔ w = 0 := by
    rw [← UInt32.toNat_inj, toNat_offset (by omega)]
    rfl
  unfold FileSys.growIndices
  dsimp only
  rw [offset_add, hneed, hbegin, blocksFor]
  by_cases hw : w = 0
  · rw [if_pos (hzero.mpr hw), if_pos hw, if_pos hw, hw]
    simp
  · rw [if_neg (mt hzero.mp hw), if_neg hw, if_neg hw]

theorem spanOf_ofNat {x y : Nat} (hxy : x ≤ y) (hy : y < 0xffffffff) :
    FileSys.spanOf (UInt32.ofNat x) (UInt32.ofNat y) = y - x + 1 := by
  have hy' := toNat_ofNat_of_lt (n := y) (by omega)
  rw [Volume.spanOf_of_lt (by omega), hy', toNat_ofNat_of_lt (by omega)]
  omega

namespace Volume
variable {v : Volume}

structure Consecutive (v : Volume) (first last : Nat) (content : List UInt8) : Prop where
  ge : 267 ≤ first
  bits : ∀ k, v.blockBit k = decide (k < first + last + 1)
  pointer : ∀ j : Fin 12, j.val ≤ last → (v.inode 1).iDirectTable j = UInt32.ofNat (first + j.val)
  newest : (v.inode 1).iIndirectBlock1Ptr = UInt32.ofNat (first + last)
  bytes : ∀ p < content.length, (v.block (first + p / 4096)).get (p % 4096) = content.getD p 0

structure Opened (v : Volume) (free r : Nat) (content : List UInt8) : Prop where
  bits : ∀ k, v.blockBit k = decide (k < free)
  ge : 267 ≤ free
  le : free ≤ 262144
  taken : v.inodeBit 1 = true
  iNum : (v.inode 1).iNum = 1
  descriptor : ∃ mode, v.fileDescriptorTable 0 = ⟨1, mode, UInt32.ofNat r, UInt32.ofNat
    content.length⟩
  short : content.length < 49152
  read : r ≤ content.length
  blocks : content = [] ∧ (v.inode 1).iDirectTable 0 = 0 ∨
    ∃ first, first + content.length / 4096 + 1 = free ∧ v.Consecutive first (content.length / 4096)
      content

theorem blockIndex_of_lt {i : Inode} {k : Nat} (hk : k < 12) :
    blockIndex i k = .ok (i.iDirectTable ⟨k, hk⟩) :=
  dif_pos hk

def putRun (v : Volume) (first lo hi : Nat) (b : Buffer 20480) : Volume :=
  { v with block := fun k =>
      if first + lo ≤ k ∧ k ≤ first + hi then b.slice (4096 * (k - (first + lo))) 4096 else
        v.block k }

section Span
variable {first lo hi : Nat} (hroom : first + hi < 262144) (hlo : lo ≤ hi)
include hroom hlo

theorem spanOf_run : FileSys.spanOf (UInt32.ofNat (first + lo)) (UInt32.ofNat (first + hi)) =
    hi - lo + 1 := by
  rw [spanOf_ofNat (by omega) (by omega)]
  omega

theorem readSpan_run (hge : 266 ≤ first) (v : Volume) (hfive : hi - lo < 5) :
    ∃ buffer, v.readSpan (UInt32.ofNat (first + lo)) (UInt32.ofNat (first + hi)) = .ok buffer ∧
      ∀ p, lo ≤ p / 4096 → p / 4096 ≤ hi → buffer.get (p - 4096 * lo) = (v.block
      (first + p / 4096)).get (p % 4096) := by
  have hnat := toNat_ofNat_of_lt (n := first + lo) (by omega)
  obtain ⟨buffer, hbuffer, hget⟩ := readSpan_eq (spanOf_run hroom hlo) (by omega) (by omega) v
    (by omega)
  refine ⟨buffer, hbuffer, fun p hp hp' => ?_⟩
  rw [hget _ (by omega), hnat, show first + lo + (p - 4096 * lo) / 4096 = first + p / 4096 by omega,
    show (p - 4096 * lo) % 4096 = p % 4096 by omega]

theorem readSpan_run_error (v : Volume) (hfive : 5 ≤ hi - lo) :
    v.readSpan (UInt32.ofNat (first + lo)) (UInt32.ofNat (first + hi)) = .error (some .buffer) := by
  rw [Volume.readSpan, spanOf_run hroom hlo, if_neg (by omega)]

theorem writeSpan_run (hge : 266 ≤ first) (v : Volume) (b : Buffer 20480) :
    v.writeSpan (UInt32.ofNat (first + lo)) (UInt32.ofNat (first + hi)) b = .ok (v.putRun first lo
    hi b) := by
  have hnat := toNat_ofNat_of_lt (n := first + lo) (by omega)
  rw [writeSpan_eq (spanOf_run hroom hlo) (by omega) (by omega) v b, hnat]
  refine congrArg (fun f => Except.ok { v with block := f }) (funext fun k => ?_)
  exact if_congr (by omega) rfl rfl

end Span

theorem Consecutive.blockIndex {first last : Nat} {content : List UInt8}
    (h : v.Consecutive first last content) {k : Nat}
    (hk : k ≤ last) (hlast : last < 12) :
    Volume.blockIndex (v.inode 1) k = .ok (UInt32.ofNat (first + k)) := by
  rw [blockIndex_of_lt (by omega), h.pointer _ hk]

theorem Consecutive.putRun {u : Volume} {first last : Nat} {content c : List UInt8}
    {buffer : Buffer 20480}
    (h : v.Consecutive first last content) (hinode : u.inode = v.inode)
    (hbit : u.blockBit = v.blockBit)
    (hblock : u.block = v.block) (hlast : (content.length + c.length) / 4096 ≤ last)
    (hfits : content.length % 4096 + c.length < 20480)
    (hget : ∀ p, content.length / 4096 ≤ p / 4096 → p / 4096 ≤ last →
      buffer.get (p - 4096 * (content.length / 4096)) = (v.block (first + p / 4096)).get
      (p % 4096)) :
    (u.putRun first (content.length / 4096) last (buffer.putBytes (content.length % 4096)
    c)).Consecutive first last
      (content ++ c) := by
  refine ⟨h.ge, hbit ▸ h.bits, fun j hj => ?_, ?_, fun p hp => ?_⟩
  · rw [← h.pointer j hj, ← hinode]
    rfl
  · rw [← h.newest, ← hinode]
    rfl
  rw [List.length_append] at hp
  simp only [Volume.putRun]
  by_cases hold : p < content.length
  · rw [List.getD_append _ _ _ _ hold, ← h.bytes p hold]
    by_cases hblk : content.length / 4096 ≤ p / 4096
    · rw [if_pos (by omega), Buffer.get_slice _ _ (by omega), Buffer.get_putBytes _ _ _ (by omega),
        if_neg (by omega),
        ← hget p hblk (by omega)]
      congr 1
      omega
    · rw [if_neg (by omega), hblock]
  · rw [List.getD_append_right _ _ _ _ (by omega), if_pos (by omega), Buffer.get_slice _ _
      (by omega),
      Buffer.get_putBytes _ _ _ (by omega), if_pos (by omega)]
    congr 1
    omega

namespace Opened
variable {free r : Nat} {content : List UInt8} (h : v.Opened free r content)
include h

theorem number : (v.inode 1).iNum.toNat = 1 := by
  rw [h.iNum]
  rfl

theorem low (k : Nat) (hk : k < 266) : v.blockBit k = true := by
  have hge := h.ge
  rw [h.bits]
  exact decide_eq_true (by omega)

theorem length_clears : (clears v.blockBit 262144).length = 262144 - free := by
  rw [clears_of_lt h.bits h.le, List.length_range']

theorem grow {len : Nat} (hshort : content.length + len < 49152)
    (hroom : free + blocksFor content.length len ≤ 262144) :
    ∃ u first, (FileSys.growIndices (UInt32.ofNat content.length) (UInt32.ofNat len)).foldlM
    growFile (v.inode 1, v) =
        .ok (u.inode 1, u) ∧ u.inodeBit 1 = true ∧ (u.inode 1).iNum = 1 ∧
      first + (content.length + len) / 4096 + 1 = free + blocksFor content.length len ∧
      u.Consecutive first ((content.length + len) / 4096) content := by
  have hge := h.ge
  have hnum := h.number
  obtain ⟨⟨i, u⟩, hr, htook⟩ := grow_took (i := v.inode 1) h.low (by omega) (by rw [hnum])
    (blocksFor_le hshort)
    (by rw [h.length_clears]; omega)
  rw [take_clears h.bits hroom] at htook
  obtain rfl : u.inode 1 = i := by simpa [hnum] using congrFun htook.record 1
  rw [growIndices_eq hshort]
  by_cases hzero : content.length = 0
  · have hblocks : blocksFor content.length len = (content.length + len) / 4096 + 1 := by
      rw [blocksFor, if_pos hzero, hzero, Nat.zero_add]
    refine ⟨u, free, hr, by rw [htook.inodeBit]; exact h.taken, htook.iNum.trans h.iNum, by omega,
      hge, fun k => ?_, fun j hj => ?_, ?_, ?_⟩
    · rw [htook.bit_fresh h.bits, hblocks]
      rfl
    · rw [htook.direct_fresh, if_pos hzero, if_pos (by omega), Nat.sub_zero]
    · rw [htook.indirect_fresh, hblocks, if_neg (by omega)]
      rfl
    · intro p hp
      omega
  · obtain ⟨first, hfirst, hfile⟩ := h.blocks.resolve_left fun hempty =>
      hzero (by rw [hempty.1]; rfl)
    have hblocks : blocksFor content.length len = (content.length + len) / 4096 - content.length /
      4096 := if_neg hzero
    refine ⟨u, first, hr, by rw [htook.inodeBit]; exact h.taken, htook.iNum.trans
      h.iNum, by omega, hfile.ge, fun k => ?_, fun j hj => ?_, ?_, ?_⟩
    · rw [htook.bit_fresh h.bits]
      exact decide_eq_decide.mpr (by omega)
    · rw [htook.direct_fresh, if_neg hzero]
      by_cases hnew : content.length / 4096 + 1 ≤ j.val
      · rw [if_pos (by omega), show free + (j.val - (content.length / 4096 + 1)) =
          first + j.val by omega]
      · rw [if_neg (by omega)]
        exact hfile.pointer j (by omega)
    · rw [htook.indirect_fresh]
      by_cases hnone : blocksFor content.length len = 0
      · rw [if_pos hnone, hfile.newest, show content.length / 4096 = (content.length + len) /
          4096 by omega]
      · rw [if_neg hnone, show free + blocksFor content.length len - 1 = first +
          (content.length + len) / 4096 by omega]
    · intro p hp
      rw [htook.block _ (by rw [List.mem_range'_1]; omega)]
      exact hfile.bytes p hp

theorem grow_error {len : Nat} (hshort : content.length + len < 49152)
    (hroom : 262144 < free + blocksFor content.length len) :
    (FileSys.growIndices (UInt32.ofNat content.length) (UInt32.ofNat len)).foldlM growFile
    (v.inode 1, v) =
      .error (some .bitmap) := by
  have hle := h.le
  have hnum := h.number
  rw [growIndices_eq hshort]
  exact grow_exhausts h.low (by omega) (by rw [hnum]) (blocksFor_le hshort)
    (by rw [h.length_clears]; omega)

section Write
variable {c : List UInt8} (hshort : content.length + c.length < 49152)
include hshort

omit h in
theorem fwrite_of_grow {mode : UInt32}
    (hd : v.fileDescriptorTable 0 = ⟨1, mode, UInt32.ofNat r, UInt32.ofNat content.length⟩)
    {u : Volume} {first : Nat}
    (hgrow : (FileSys.growIndices (UInt32.ofNat content.length) (UInt32.ofNat c.length)).foldlM
    growFile (v.inode 1, v) =
      .ok (u.inode 1, u)) (hfile :
    u.Consecutive first ((content.length + c.length) / 4096) content) :
    v.fwrite 0 c = u.readSpan (UInt32.ofNat (first + content.length / 4096))
        (UInt32.ofNat (first + (content.length + c.length) / 4096)) >>= fun buffer =>
      exactly (FileSys.inBuffer (UInt32.ofNat content.length) c.length) >>= fun _ =>
      (u.setDescriptor 0 ⟨1, mode, UInt32.ofNat r, UInt32.ofNat
      (content.length + c.length)⟩).writeSpan
        (UInt32.ofNat (first + content.length / 4096))
        (UInt32.ofNat (first + (content.length + c.length) / 4096))
        (buffer.putBytes (content.length % 4096) c) >>= fun v' => .ok (UInt32.ofNat c.length, v') :=
        by
  have hlo : content.length / 4096 ≤ (content.length + c.length) / 4096 := by omega
  rw [fwrite, show FileSys.descriptor 0 = .ok 0 from rfl, exactly_ok, ok_bind]
  dsimp only
  rw [hd]
  dsimp only
  rw [load_of_lt (by decide), ok_bind, show UInt32.toNat 1 = 1 from rfl, hgrow, ok_bind]
  dsimp only
  rw [offset_add, toNat_offset_div (by omega), toNat_offset_div hshort, hfile.blockIndex hlo
    (by omega), ok_bind,
    hfile.blockIndex le_rfl (by omega), ok_bind, toNat_offset_mod (by omega)]
  rfl

theorem fwrite_eq (hroom : free + blocksFor content.length c.length ≤ 262144)
    (hfits : FitsBuffer content.length c.length) :
    ∃ v', v.fwrite 0 c = .ok (UInt32.ofNat c.length, v') ∧
      v'.Opened (free + blocksFor content.length c.length) r (content ++ c) := by
  obtain ⟨mode, hd⟩ := h.descriptor
  obtain ⟨u, first, hgrow, htaken, hiNum, hfree, hfile⟩ := h.grow hshort hroom
  have hge := hfile.ge
  have hread := h.read
  have hlo : content.length / 4096 ≤ (content.length + c.length) / 4096 := by omega
  have hbytes : content.length % 4096 + c.length < 20480 := by
    unfold FitsBuffer at hfits
    omega
  obtain ⟨buffer, hbuffer, hget⟩ := readSpan_run (show first + (content.length + c.length) / 4096 <
    262144 by omega) hlo (by omega) u (by omega)
  have hin : FileSys.inBuffer (UInt32.ofNat content.length) c.length = .ok () := by
    rw [FileSys.inBuffer, toNat_offset_mod (by omega), if_pos hbytes.le]
  have hrun := fwrite_of_grow hshort hd hgrow hfile
  rw [hbuffer, ok_bind, hin, exactly_ok, ok_bind, writeSpan_run (by omega) hlo (by omega),
    ok_bind] at hrun
  refine ⟨_, hrun, ?_, by omega, hroom, htaken, hiNum,
    ⟨mode, ?_⟩, by simpa using hshort, by simp; omega, .inr ⟨first, ?_, ?_⟩⟩
  · rw [← hfree]
    exact hfile.bits
  · rw [List.length_append]
    rfl
  · rw [List.length_append]
    exact hfree
  · rw [List.length_append]
    exact hfile.putRun rfl rfl rfl le_rfl hbytes hget

theorem fwrite_error (hbad : ¬ (free + blocksFor content.length c.length ≤ 262144 ∧
    FitsBuffer content.length c.length)) :
    ∃ f, v.fwrite 0 c = .error (some f) := by
  obtain ⟨mode, hd⟩ := h.descriptor
  by_cases hroom : free + blocksFor content.length c.length ≤ 262144
  · obtain ⟨u, first, hgrow, -, -, hfree, hfile⟩ := h.grow hshort hroom
    have hfits : ¬ FitsBuffer content.length c.length := fun hfits => hbad ⟨hroom, hfits⟩
    unfold FitsBuffer at hfits
    refine ⟨.buffer, ?_⟩
    rw [fwrite_of_grow hshort hd hgrow hfile, readSpan_run_error (by omega) (by omega) u (by omega)]
    rfl
  · refine ⟨.bitmap, ?_⟩
    rw [fwrite, show FileSys.descriptor 0 = .ok 0 from rfl, exactly_ok, ok_bind]
    dsimp only
    rw [hd]
    dsimp only
    rw [load_of_lt (by decide), ok_bind, show UInt32.toNat 1 = 1 from rfl, h.grow_error hshort
      (by omega)]
    rfl

end Write

section Read
variable {n : Nat} (hn : r + n ≤ content.length)
include hn

theorem fread_of_blocks {mode : UInt32}
    (hd : v.fileDescriptorTable 0 = ⟨1, mode, UInt32.ofNat r, UInt32.ofNat content.length⟩)
    {first : Nat}
    (hfile : v.Consecutive first (content.length / 4096) content) :
    v.fread 0 (UInt32.ofNat n) = v.readSpan (UInt32.ofNat (first + r / 4096))
    (UInt32.ofNat (first + (r + n) / 4096)) >>=
      fun buffer => exactly (FileSys.inBuffer (UInt32.ofNat r) n) >>= fun _ =>
        .ok ((List.range n).map fun j => buffer.get (r % 4096 + j),
          v.setDescriptor 0 ⟨1, mode, UInt32.ofNat (r + n), UInt32.ofNat content.length⟩) := by
  have hshort := h.short
  rw [fread, show FileSys.descriptor 0 = .ok 0 from rfl, exactly_ok, ok_bind]
  dsimp only
  rw [hd]
  dsimp only
  rw [load_of_lt (by decide), ok_bind, show UInt32.toNat 1 = 1 from rfl, offset_add,
    toNat_offset_div (by omega),
    toNat_offset_div (by omega), hfile.blockIndex (by omega) (by omega), ok_bind,
    hfile.blockIndex (by omega) (by omega), ok_bind, toNat_offset_mod (by omega),
    toNat_offset (w := n) (by omega)]
  rfl

theorem fread_eq {first : Nat} (hfile : v.Consecutive first (content.length / 4096) content)
    (hfree : first + content.length / 4096 + 1 = free) (hfits : FitsBuffer r n) :
    ∃ v', v.fread 0 (UInt32.ofNat n) = .ok ((content.drop r).take n, v') ∧
    v'.Opened free (r + n) content := by
  obtain ⟨mode, hd⟩ := h.descriptor
  have hge := hfile.ge
  have hle := h.le
  have hbytes : r % 4096 + n < 20480 := by
    unfold FitsBuffer at hfits
    omega
  obtain ⟨buffer, hbuffer, hget⟩ := readSpan_run (show first + (r + n) / 4096 < 262144 by omega)
    (show r / 4096 ≤ (r + n) / 4096 by omega) (by omega) v (by omega)
  have hin : FileSys.inBuffer (UInt32.ofNat r) n = .ok () := by
    rw [FileSys.inBuffer, toNat_offset_mod (by have := h.short; omega), if_pos hbytes.le]
  have hdata : ((List.range n).map fun j => buffer.get (r % 4096 + j)) = (content.drop r).take
      n := by
    refine List.ext_getElem (by simp; omega) fun j hj hj' => ?_
    have hjn : j < n := by simpa using hj
    have hbyte := hget (r + j) (by omega) (by omega)
    rw [show r + j - 4096 * (r / 4096) = r % 4096 + j by omega, hfile.bytes (r + j) (by omega),
      List.getD_eq_getElem _ _ (by omega)] at hbyte
    simpa using hbyte
  have hrun := h.fread_of_blocks hn hd hfile
  rw [hbuffer, ok_bind, hin, exactly_ok, ok_bind, hdata] at hrun
  exact ⟨_, hrun, h.bits, h.ge, hle, h.taken, h.iNum, ⟨mode, rfl⟩, h.short, hn,
    .inr ⟨first, hfree, hfile.ge, hfile.bits, hfile.pointer, hfile.newest, hfile.bytes⟩⟩

theorem fread_error {first : Nat} (hfile : v.Consecutive first (content.length / 4096) content)
    (hfree : first + content.length / 4096 + 1 = free) (hfits : ¬ FitsBuffer r n) :
    ∃ f, v.fread 0 (UInt32.ofNat n) = .error (some f) := by
  obtain ⟨mode, hd⟩ := h.descriptor
  have hle := h.le
  unfold FitsBuffer at hfits
  refine ⟨.buffer, ?_⟩
  rw [h.fread_of_blocks hn hd hfile, readSpan_run_error (by omega) (by omega) v (by omega)]
  rfl

end Read

end Opened

end Volume

theorem opened_mkfs {name : Text} (hname : name.IsFileName) (e e' : Env) (s : FileSys)
    (mode : UInt16) (access : UInt32) :
    ((Parent.touched e' mode (Volume.mkfs e s) 0 1 name).setDescriptor 0 ⟨UInt32.ofNat 1, access, 0,
    0⟩).Opened 267 0 [] := by
  have hparent := parent_mkfs hname e s
  have hchild : ((Parent.touched e' mode (Volume.mkfs e s) 0 1 name).setDescriptor 0
    ⟨UInt32.ofNat 1, access, 0, 0⟩).inode 1 =
      newInode e' (sIfreg ||| mode) 0 0 (UInt32.ofNat 1) := hparent.touched_child e' mode
  refine ⟨fun k => ?_, le_rfl, by omega, rfl, by rw [hchild]; rfl, ⟨access, rfl⟩, by simp, le_rfl,
    .inl ⟨rfl, ?_⟩⟩
  · exact decide_eq_decide.mpr (by omega)
  · rw [hchild]
    simp [newInode]

theorem FileSys.doFread_nothing {s : FileSys} (h : (s.fileDescriptorTable 0).fdROffset = 0)
    (hfirst : (s.syncFromDiskInode (s.fileDescriptorTable 0).fdInum).iDirectTable 0 = 0) :
    s.doFread 0 0 = .ok ([], s) := by
  have hsame : s.setDescriptor 0 { s.fileDescriptorTable 0 with fdROffset := 0 + 0 } = s := by
    rw [show (0 + 0 : UInt32) = (s.fileDescriptorTable 0).fdROffset from h.symm]
    simp only [FileSys.setDescriptor, FileSys.inSession, Function.update_eq_self]
  have hindex : ∀ i, s.getBlockIndexInInode i 0 = .ok (i.iDirectTable 0) := fun i =>
    (s.getBlockIndex_refines i 0).exists_ok (Volume.blockIndex_of_lt (by omega)) |>.elim fun _ hx =>
      hx.2 ▸ hx.1
  rw [FileSys.doFread, show FileSys.descriptor 0 = .ok 0 from rfl, ok_bind]
  dsimp only
  rw [h, show ((0 : UInt32) / 4096).toNat = 0 from rfl, show ((0 + 0 : UInt32) / 4096).toNat = 0
    from rfl, hindex, ok_bind,
    ok_bind, hfirst, FileSys.readSpan, show FileSys.spanOf 0 0 = 1 from rfl, if_pos (by omega),
    ok_bind, show FileSys.inBuffer 0
      (UInt32.toNat 0) = .ok () from rfl,
    ok_bind, hsame]
  rfl

def FileSys.Opened (s : FileSys) (free r : Nat) (content : List UInt8) : Prop :=
  ∃ v, Shows s v ∧ v.Opened free r content

theorem exists_opened {name : Text} (hname : name.IsFileName) (e e' : Env) (mode : UInt16)
    (access : UInt32) (s : FileSys) :
    ∃ s₀ s₁ s₂, s.doMkfs e = .ok s₀ ∧ s₀.doTouch e' name mode = .ok (0, s₁) ∧
    s₁.doFopen name access = .ok (0, s₂) ∧
      s₂.Opened 267 0 [] := by
  have hparent := parent_mkfs hname e s
  obtain ⟨s₀, hs₀, hshows₀⟩ := doMkfs_shows e s
  obtain ⟨⟨x, s₁⟩, hs₁, rfl, hshows₁⟩ := (hshows₀.doTouch e' name mode).exists_ok
    (hparent.touch_eq e' mode)
  obtain ⟨⟨x, s₂⟩, hs₂, rfl, hshows₂⟩ := (hshows₁.doFopen name access).exists_ok
    (hparent.fopen_eq e' mode hname.notDot (by omega) (fun _ => rfl) access)
  exact ⟨s₀, s₁, s₂, hs₀, hs₁, hs₂, _, hshows₂, opened_mkfs hname e e' s mode access⟩

namespace FileSys.Opened
variable {s : FileSys} {free r : Nat} {content : List UInt8} (h : s.Opened free r content)
include h

theorem doFwrite {c : List UInt8} (hshort : content.length + c.length < 49152) :
    (free + blocksFor content.length c.length ≤ 262144 ∧ FitsBuffer content.length c.length ∧
      ∃ t, s.doFwrite 0 c = .ok (UInt32.ofNat c.length, t) ∧
        t.Opened (free + blocksFor content.length c.length) r (content ++ c)) ∨
    ¬ (free + blocksFor content.length c.length ≤ 262144 ∧ FitsBuffer content.length c.length) ∧
      ∃ f, s.doFwrite 0 c = .error f := by
  obtain ⟨v, hshows, hv⟩ := h
  by_cases hgood : free + blocksFor content.length c.length ≤ 262144 ∧ FitsBuffer content.length
    c.length
  · obtain ⟨v', hv', hopened⟩ := hv.fwrite_eq hshort hgood.1 hgood.2
    obtain ⟨⟨x, t⟩, ht, rfl, hshows'⟩ := (hshows.doFwrite 0 c).exists_ok hv'
    exact .inl ⟨hgood.1, hgood.2, t, ht, v', hshows', hopened⟩
  · obtain ⟨f, hf⟩ := hv.fwrite_error hshort hgood
    exact .inr ⟨hgood, f, (hshows.doFwrite 0 c).eq_error hf⟩

theorem doFread {n : UInt32} (hn : r + n.toNat ≤ content.length) :
    (FitsBuffer r n.toNat ∧ ∃ t, s.doFread 0 n = .ok ((content.drop r).take n.toNat, t) ∧
      t.Opened free (r + n.toNat) content) ∨
    ¬ FitsBuffer r n.toNat ∧ ∃ f, s.doFread 0 n = .error f := by
  obtain ⟨v, hshows, hv⟩ := h
  obtain ⟨hempty, hpointer⟩ | ⟨first, hfree, hfile⟩ := hv.blocks
  · -- nothing to read, in a file without blocks: the range is that of the superblock, and it
    -- stays in the buffer
    subst hempty
    obtain ⟨mode, hd⟩ := hv.descriptor
    obtain ⟨rfl, hzero⟩ : r = 0 ∧ n.toNat = 0 := by simpa using hn
    obtain rfl : n = 0 := UInt32.toNat_inj.mp hzero
    have hd' : s.fileDescriptorTable 0 = ⟨1, mode, UInt32.ofNat 0, UInt32.ofNat 0⟩ := by
      rw [hshows.descriptor_eq, hd]
      rfl
    have hfirst : (s.syncFromDiskInode 1).iDirectTable 0 = 0 := hshows.inode 1 (by omega) ▸ hpointer
    exact .inl ⟨by simp [FitsBuffer], s, FileSys.doFread_nothing (by rw [hd']; rfl)
      (by rw [hd']; exact hfirst), v, hshows, hv⟩
  · by_cases hfits : FitsBuffer r n.toNat
    · obtain ⟨v', hv', hopened⟩ := hv.fread_eq hn hfile hfree hfits
      rw [UInt32.ofNat_toNat] at hv'
      obtain ⟨⟨x, t⟩, ht, rfl, hshows'⟩ := (hshows.doFread 0 n).exists_ok hv'
      exact .inl ⟨hfits, t, ht, v', hshows', hopened⟩
    · obtain ⟨f, hf⟩ := hv.fread_error hn hfile hfree hfits
      rw [UInt32.ofNat_toNat] at hf
      exact .inr ⟨hfits, f, (hshows.doFread 0 n).eq_error hf⟩

end FileSys.Opened

end Ucas.Fs

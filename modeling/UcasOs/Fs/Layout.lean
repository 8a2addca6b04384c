import UcasOs.Lib.Buffer
import UcasOs.Lib.Bitmap

/-! The records of the file system as they lie on the card: inodes, directory entries and the
superblock, the C strings that name files, and the ways in which the code can leave its arrays. -/

namespace Ucas.Fs
open Ucas.Lib

-- Sizes stand as numbers where types depend on them: a block has 4096 bytes and holds 32 inodes or
-- 32
-- directory entries of 128 bytes each, or 1024 pointers; an inode has 12 direct pointers; names
-- have
-- 64 bytes, paths 512; the buffers of `do_fread` and `do_fwrite` hold 5 blocks.
abbrev blockNum : Nat := 262144
abbrev inodeNum : Nat := 8192
abbrev dataBlockIndex : Nat := 266
def maxBlockIndex : Nat := 1074791436

def fsMagicNumber : UInt32 := 0x2e575159
def fsSize : UInt32 := 0x40000000
def fsStartSdOffset : UInt32 := 0x20000000

def sIfmt : UInt16 := 0o170000
def sIflnk : UInt16 := 0o120000
def sIfreg : UInt16 := 0o100000
def sIfdir : UInt16 := 0o040000

def notFound : UInt32 := 0xffffffff
def errorDupDirName : UInt32 := 0xffffffff
def errorNoFreeInode : UInt32 := 0xfffffffe
def errorNoFreeBlock : UInt32 := 0xfffffffd

inductive Fault
  | bitmap
  | text
  | buffer
  | descriptor
  | noReturn
  deriving DecidableEq, Repr

abbrev Block := Buffer 4096

instance (priority := 2000) directNeZero : NeZero 12 := ⟨by decide⟩
instance (priority := 2000) levelNeZero : NeZero 3 := ⟨by decide⟩

structure Inode where
  iFmode : UInt16
  iLinksCnt : UInt16
  iFsize : UInt32
  iFnum : UInt32
  iAtime : UInt32
  iCtime : UInt32
  iMtime : UInt32
  iDirectTable : Fin 12 → UInt32
  iIndirectBlock1Ptr : UInt32
  iIndirectBlock2Ptr : UInt32
  iIndirectBlock3Ptr : UInt32
  iNum : UInt32
  padding : Fin 10 → UInt32

namespace Inode

def word (i : Inode) (k : Nat) : UInt32 :=
  if k = 0 then UInt32.ofNat (i.iFmode.toNat + 65536 * i.iLinksCnt.toNat)
  else if k < 6 then [i.iFsize, i.iFnum, i.iAtime, i.iCtime, i.iMtime].getD (k - 1) 0
  else if h : 6 ≤ k ∧ k < 18 then i.iDirectTable ⟨k - 6, by omega⟩
  else if k < 22 then
    [i.iIndirectBlock1Ptr, i.iIndirectBlock2Ptr, i.iIndirectBlock3Ptr, i.iNum].getD (k - 18) 0
  else if h : 22 ≤ k ∧ k < 32 then i.padding ⟨k - 22, by omega⟩
  else 0

def ofWords (w : Nat → UInt32) : Inode where
  iFmode := UInt16.ofNat (w 0).toNat
  iLinksCnt := UInt16.ofNat ((w 0).toNat / 65536)
  iFsize := w 1
  iFnum := w 2
  iAtime := w 3
  iCtime := w 4
  iMtime := w 5
  iDirectTable k := w (6 + k)
  iIndirectBlock1Ptr := w 18
  iIndirectBlock2Ptr := w 19
  iIndirectBlock3Ptr := w 20
  iNum := w 21
  padding k := w (22 + k)

theorem ofWords_congr {w w' : Nat → UInt32} (h : ∀ k, k < 32 → w k = w' k) :
    ofWords w = ofWords w' := by
  simp (disch := omega) only [ofWords, h]

theorem word_direct (i : Inode) (k : Fin 12) : i.word (6 + k) = i.iDirectTable k := by
  have hk := k.isLt
  rw [word, if_neg (by omega), if_neg (by omega), dif_pos (by omega)]
  congr
  simp

theorem word_padding (i : Inode) (k : Fin 10) : i.word (22 + k) = i.padding k := by
  have hk := k.isLt
  rw [word, if_neg (by omega), if_neg (by omega), dif_neg (by omega), if_neg (by omega),
    dif_pos (by omega)]
  congr
  simp

theorem ofWords_word (i : Inode) : ofWords i.word = i := by
  have hm := i.iFmode.toNat_lt
  have hl := i.iLinksCnt.toNat_lt
  have hword : (i.word 0).toNat = i.iFmode.toNat + 65536 * i.iLinksCnt.toNat := by
    simp only [word, UInt32.toNat_ofNat', if_true]
    omega
  have hfmode : UInt16.ofNat (i.word 0).toNat = i.iFmode := by
    apply UInt16.toNat_inj.mp
    rw [hword, UInt16.toNat_ofNat']
    omega
  have hlinks : UInt16.ofNat ((i.word 0).toNat / 65536) = i.iLinksCnt := by
    apply UInt16.toNat_inj.mp
    rw [hword, UInt16.toNat_ofNat']
    omega
  simp only [ofWords, hfmode, hlinks, word_direct, word_padding]
  rfl

theorem eq_of_words {i j : Inode} (h : ∀ k < 32, i.word k = j.word k) : i = j := by
  rw [← i.ofWords_word, ← j.ofWords_word]
  exact ofWords_congr h

theorem word_ofWords (w : Nat → UInt32) {k : Nat} (hk : k < 32) : (ofWords w).word k = w k := by
  obtain rfl | hpos := Nat.eq_zero_or_pos k
  · have hlt := (w 0).toNat_lt
    apply UInt32.toNat_inj.mp
    simp only [word, ofWords, if_true, UInt32.toNat_ofNat', UInt16.toNat_ofNat']
    omega
  · by_cases h6 : k < 6
    · obtain rfl | rfl | rfl | rfl | rfl : k = 1 ∨ k = 2 ∨ k = 3 ∨ k = 4 ∨ k = 5 := by omega
      all_goals rfl
    by_cases h18 : k < 18
    · rw [word, if_neg (by omega), if_neg h6, dif_pos ⟨by omega, h18⟩]
      exact congrArg w (by simp; omega)
    by_cases h22 : k < 22
    · obtain rfl | rfl | rfl | rfl : k = 18 ∨ k = 19 ∨ k = 20 ∨ k = 21 := by omega
      all_goals rfl
    · rw [word, if_neg (by omega), if_neg h6, dif_neg (by omega), if_neg h22, dif_pos ⟨by omega,
        hk⟩]
      exact congrArg w (by simp; omega)

def toBuffer (i : Inode) : Buffer 128 := .ofWords i.word

def ofBuffer (b : Buffer 128) : Inode := ofWords fun k => b.word (4 * k)

@[simp] theorem ofBuffer_toBuffer (i : Inode) : ofBuffer i.toBuffer = i := by
  have h : ofBuffer i.toBuffer = ofWords i.word :=
    ofWords_congr fun k hk => Buffer.word_ofWords i.word (by omega)
  rw [h, ofWords_word]

theorem toBuffer_ofBuffer (b : Buffer 128) : (ofBuffer b).toBuffer = b :=
  Buffer.ext_words (m := 32) fun k hk => by
    rw [toBuffer, Buffer.word_ofWords _ (by omega), ofBuffer, word_ofWords _ hk]

def point (i : Inode) (k : Fin 12) (b : UInt32) : Inode :=
  { i with iDirectTable := Function.update i.iDirectTable k b }

def addSize (i : Inode) : Inode := { i with iFsize := i.iFsize + 4096 }

def addEntry (i : Inode) : Inode := { i with iFnum := i.iFnum + 1 }

def dropEntry (i : Inode) : Inode := { i with iFnum := i.iFnum - 1 }

def addLink (i : Inode) : Inode := { i with iLinksCnt := i.iLinksCnt + 1 }

def pointIndirect (i : Inode) (b : UInt32) : Inode := { i with iIndirectBlock1Ptr := b }

section Fields
variable (i : Inode) (k : Fin 12) (b : UInt32)

@[simp] theorem point_iNum : (i.point k b).iNum = i.iNum := by simp only [point]
@[simp] theorem addSize_iNum : i.addSize.iNum = i.iNum := by simp only [addSize]
@[simp] theorem addEntry_iNum : i.addEntry.iNum = i.iNum := by simp only [addEntry]
@[simp] theorem dropEntry_iNum : i.dropEntry.iNum = i.iNum := by simp only [dropEntry]
@[simp] theorem addLink_iNum : i.addLink.iNum = i.iNum := by simp only [addLink]
@[simp] theorem pointIndirect_iNum : (i.pointIndirect b).iNum = i.iNum := by
  simp only [pointIndirect]
@[simp] theorem point_iDirectTable :
    (i.point k b).iDirectTable = Function.update i.iDirectTable k b := by
  simp only [point]
@[simp] theorem addSize_iDirectTable : i.addSize.iDirectTable = i.iDirectTable := by
  simp only [addSize]
@[simp] theorem addEntry_iDirectTable : i.addEntry.iDirectTable = i.iDirectTable := by
  simp only [addEntry]
@[simp] theorem dropEntry_iDirectTable : i.dropEntry.iDirectTable = i.iDirectTable := by
  simp only [dropEntry]
@[simp] theorem addLink_iDirectTable : i.addLink.iDirectTable = i.iDirectTable := by
  simp only [addLink]
@[simp] theorem pointIndirect_iDirectTable : (i.pointIndirect b).iDirectTable = i.iDirectTable := by
  simp only [pointIndirect]
@[simp] theorem point_iIndirectBlock1Ptr :
    (i.point k b).iIndirectBlock1Ptr = i.iIndirectBlock1Ptr := by
  simp only [point]
@[simp] theorem addSize_iIndirectBlock1Ptr :
    i.addSize.iIndirectBlock1Ptr = i.iIndirectBlock1Ptr := by
  simp only [addSize]
@[simp] theorem addEntry_iIndirectBlock1Ptr :
    i.addEntry.iIndirectBlock1Ptr = i.iIndirectBlock1Ptr := by
  simp only [addEntry]
@[simp] theorem point_iFmode : (i.point k b).iFmode = i.iFmode := by simp only [point]
@[simp] theorem addSize_iFmode : i.addSize.iFmode = i.iFmode := by simp only [addSize]
@[simp] theorem addEntry_iFmode : i.addEntry.iFmode = i.iFmode := by simp only [addEntry]
@[simp] theorem dropEntry_iFmode : i.dropEntry.iFmode = i.iFmode := by simp only [dropEntry]
@[simp] theorem addLink_iFmode : i.addLink.iFmode = i.iFmode := by simp only [addLink]
@[simp] theorem point_iLinksCnt : (i.point k b).iLinksCnt = i.iLinksCnt := by simp only [point]
@[simp] theorem addSize_iLinksCnt : i.addSize.iLinksCnt = i.iLinksCnt := by simp only [addSize]
@[simp] theorem addEntry_iLinksCnt : i.addEntry.iLinksCnt = i.iLinksCnt := by simp only [addEntry]
@[simp] theorem dropEntry_iLinksCnt : i.dropEntry.iLinksCnt = i.iLinksCnt := by
  simp only [dropEntry]

end Fields

def indirectPtr (i : Inode) : Fin 3 → UInt32
  | 0 => i.iIndirectBlock1Ptr
  | 1 => i.iIndirectBlock2Ptr
  | 2 => i.iIndirectBlock3Ptr

/-- `inode.i_direct_table[k] = v`. An index from 12 on goes to the fields behind the table, as long
as it stays in the record. -/
def setDirect (i : Inode) (k : Nat) (v : UInt32) : Except Fault Inode :=
  if 6 + k < 32 then .ok (ofWords (Function.update i.word (6 + k) v)) else .error .buffer

theorem setDirect_of_lt (i : Inode) {k : Nat} (hk : k < 12) (v : UInt32) :
    i.setDirect k v = .ok (i.point ⟨k, hk⟩ v) := by
  rw [setDirect, if_pos (by omega), ← ofWords_word (i.point _ _)]
  congr 1
  apply ofWords_congr
  intro m hm
  by_cases hdirect : 6 ≤ m ∧ m < 18
  · obtain ⟨j, rfl⟩ : ∃ j : Fin 12, m = 6 + j := ⟨⟨m - 6, by omega⟩, by simp; omega⟩
    rw [word_direct, point_iDirectTable]
    by_cases h : j = ⟨k, hk⟩
    · rw [h, Function.update_self, Function.update_self]
    · rw [Function.update_of_ne h, Function.update_of_ne (by simpa [Fin.ext_iff] using h),
        word_direct]
  · rw [Function.update_of_ne (by omega)]
    simp only [word, point, dif_neg hdirect]

end Inode

def zeroInode : Inode := .ofBuffer .zero

theorem zeroInode_eq : zeroInode = .ofWords fun _ => 0 :=
  Inode.ofWords_congr fun _ _ => Buffer.word_zero _

@[simp] theorem zeroInode_iNum : zeroInode.iNum = 0 := by rw [zeroInode_eq]; rfl
@[simp] theorem zeroInode_iFmode : zeroInode.iFmode = 0 := by rw [zeroInode_eq]; rfl
@[simp] theorem zeroInode_iFnum : zeroInode.iFnum = 0 := by rw [zeroInode_eq]; rfl
@[simp] theorem zeroInode_iDirectTable (k : Fin 12) : zeroInode.iDirectTable k = 0 := by
  rw [zeroInode_eq]; rfl
@[simp] theorem zeroInode_iIndirectBlock1Ptr : zeroInode.iIndirectBlock1Ptr = 0 := by
  rw [zeroInode_eq]; rfl

def sIsdir (m : UInt16) : Bool := m &&& sIfmt == sIfdir
def sIslnk (m : UInt16) : Bool := m &&& sIfmt == sIflnk

structure Text where
  bytes : List UInt8
  zero_notMem : 0 ∉ bytes

namespace Text

theorem ext_bytes {a b : Text} (h : a.bytes = b.bytes) : a = b := by
  cases a
  cases b
  simpa using h

def length (t : Text) : Nat := t.bytes.length

def take (t : Text) (k : Nat) : Text :=
  ⟨t.bytes.take k, fun h => t.zero_notMem (List.mem_of_mem_take h)⟩

def drop (t : Text) (k : Nat) : Text :=
  ⟨t.bytes.drop k, fun h => t.zero_notMem (List.mem_of_mem_drop h)⟩

def append (a b : Text) : Text :=
  ⟨a.bytes ++ b.bytes, fun h => (List.mem_append.mp h).elim a.zero_notMem b.zero_notMem⟩

def slash : UInt8 := 47
def dot : Text := ⟨[46], by decide⟩
def dotdot : Text := ⟨[46, 46], by decide⟩
def dotSlash : Text := ⟨[46, 47], by decide⟩

def cut : List UInt8 → List (List UInt8)
  | [] => [[]]
  | c :: cs =>
    if c = slash then [] :: cut cs
    else match cut cs with
      | [] => [[c]]
      | w :: ws => (c :: w) :: ws

theorem mem_of_mem_cut {l w : List UInt8} {x : UInt8} (hw : w ∈ cut l) (hx : x ∈ w) : x ∈ l := by
  induction l generalizing w with
  | nil => simp_all [cut]
  | cons c cs ih =>
    rw [cut] at hw
    split_ifs at hw with hc
    · obtain rfl | hw := List.mem_cons.mp hw
      · cases hx
      · exact List.mem_cons_of_mem _ (ih hw hx)
    · split at hw <;> rename_i hcut
      · simp_all
      · obtain rfl | hw := List.mem_cons.mp hw
        · obtain rfl | hx := List.mem_cons.mp hx
          · exact List.mem_cons_self
          · exact List.mem_cons_of_mem _ (ih (hcut ▸ List.mem_cons_self) hx)
        · exact List.mem_cons_of_mem _ (ih (hcut ▸ List.mem_cons_of_mem _ hw) hx)

def components (t : Text) : List Text :=
  (cut t.bytes).attach.map fun ⟨w, hw⟩ => ⟨w, fun h => t.zero_notMem (mem_of_mem_cut hw h)⟩

def strrchr (c : UInt8) : List UInt8 → Nat → Nat → Nat
  | [], _, p => p
  | x :: xs, pos, p => strrchr c xs (pos + 1) (if x = c then pos else p)

def lastSlash (t : Text) : Nat := strrchr slash t.bytes 0 0

def countSlash (t : Text) : Nat := t.bytes.count slash

end Text

def fits (size : Nat) (t : Text) : Except Fault Unit :=
  if t.length < size then .ok () else .error .text

/-- `separate_path(path, parent, name)` with arrays of 512 and `size` bytes: the parent and the
name. Without a slash the first byte is taken for the parent. -/
def separatePath (path : Text) (size : Nat) : Except Fault (Text × Text) := do
  fits 512 path
  let loc := path.lastSlash
  let name := path.drop (loc + 1)
  fits size name
  return (path.take (if loc = 0 then 1 else loc), name)

/-- A directory entry: `d_inum`, then `d_name[64]`, then padding. -/
abbrev Dentry := Buffer 128

namespace Dentry

def dInum (d : Dentry) : UInt32 := d.word 0

def isEmpty (d : Dentry) : Bool := d.dInum == 0 && d.get 4 == 0

/-- `d.d_inum = inum; strcpy(d.d_name, name)` on the bytes `d` already has. -/
def fill (d : Dentry) (inum : UInt32) (name : Text) : Dentry :=
  ((d.setWord 0 inum).putBytes 4 name.bytes).set (4 + name.length) 0

end Dentry

def dentryAt (b : Block) (j : Nat) : Dentry := b.slice (128 * j) 128

def putDentry (b : Block) (j : Nat) (d : Dentry) : Block := b.blit (128 * j) d

structure FileDescriptor where
  fdInum : UInt32
  fdMode : UInt32
  fdROffset : UInt32
  fdWOffset : UInt32
  deriving DecidableEq, Repr

def FileDescriptor.zero : FileDescriptor := ⟨0, 0, 0, 0⟩

def FileDescriptor.isEmpty (d : FileDescriptor) : Bool := d == .zero

end Ucas.Fs

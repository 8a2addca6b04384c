import UcasOs.Fs.Layout
import UcasOs.Lib.Device

/-! The file system's memory and the card, and the functions below the operations: blocks, bitmaps,
inodes, block pointers, directory entries and lookups. Buffers that every use clears or fills before
it reads them (`find_file_buffer`, `dentry_block_buffer`, `buffer1` and so on) are local values. -/

namespace Ucas.Fs
open Ucas.Lib

structure Session where
  rootInode : Inode
  currentDir : Inode
  currentDirLink : Inode
  fileDescriptorTable : Fin 32 → FileDescriptor
  lsBuffer : List Dentry
  catBuffer : Buffer 20480

structure FileSys extends Session where
  sd : Device
  superblock : Block
  blockbmp : Buffer 32768
  inodebmp : Block

namespace FileSys

def sdOffset (blockIndex : UInt32) : UInt32 := blockIndex * 4096 + fsStartSdOffset

def readBlock (s : FileSys) (blockIndex : UInt32) : Block := s.sd.read (sdOffset blockIndex) 4096

def writeBlock (s : FileSys) (blockIndex : UInt32) (b : Block) : FileSys :=
  { s with sd := s.sd.write (sdOffset blockIndex) b }

def syncToDiskInodeBmp (s : FileSys) : FileSys := s.writeBlock 9 s.inodebmp

def syncToDiskBlockBmp (s : FileSys) : FileSys :=
  (List.range 8).foldl (fun t i => t.writeBlock (UInt32.ofNat (1 + i)) (s.blockbmp.slice (4096 * i)
    4096)) s

def syncToDiskSuperblock (s : FileSys) : FileSys := s.writeBlock 0 s.superblock

def syncFromDiskInodeBmp (s : FileSys) : FileSys := { s with inodebmp := s.readBlock 9 }

def syncFromDiskBlockBmp (s : FileSys) : FileSys :=
  { s with blockbmp := (List.range 8).foldl (fun b i =>
      b.blit (4096 * i) (s.readBlock (UInt32.ofNat (1 + i)))) s.blockbmp }

def syncFromDiskSuperblock (s : FileSys) : FileSys := { s with superblock := s.readBlock 0 }

def setBlockBmp (s : FileSys) (blockIndex : UInt32) : Except Fault FileSys :=
  if blockIndex.toNat < 8 * 32768 then .ok { s with blockbmp := s.blockbmp.setBit blockIndex.toNat }
  else .error .bitmap

def unsetBlockBmp (s : FileSys) (blockIndex : UInt32) : Except Fault FileSys :=
  if blockIndex.toNat < 8 * 32768 then
    .ok { s with blockbmp := s.blockbmp.clearBit blockIndex.toNat }
  else .error .bitmap

def setInodeBmp (s : FileSys) (inum : UInt32) : Except Fault FileSys :=
  if inum.toNat < 8 * 4096 then .ok { s with inodebmp := s.inodebmp.setBit inum.toNat }
  else .error .bitmap

def unsetInodeBmp (s : FileSys) (inum : UInt32) : Except Fault FileSys :=
  if inum.toNat < 8 * 4096 then .ok { s with inodebmp := s.inodebmp.clearBit inum.toNat }
  else .error .bitmap

def sMagic (s : FileSys) : UInt32 := s.superblock.word 8
def sFreeInodeCnt (s : FileSys) : UInt32 := s.superblock.word 20
def sFreeBlocksCnt (s : FileSys) : UInt32 := s.superblock.word 24

/-- `while(check_bitmap(j) == 1) j++`. -/
def skipSet {n : Nat} (bmp : Buffer n) : Nat → Nat → Nat
  | 0, j => j
  | fuel + 1, j => if bmp.bit j then skipSet bmp fuel (j + 1) else j

def findFree {n : Nat} (bmp : Buffer n) (error : UInt32) : Nat → Nat → Nat → UInt32
  | 0, _, _ => error
  | k + 1, i, j =>
    if bmp.get i ≠ 0xff then UInt32.ofNat (skipSet bmp (8 * n) j) else findFree bmp error k (i + 1)
    (j + 8)

def findFreeInode (s : FileSys) : UInt32 := findFree s.inodebmp errorNoFreeInode 1024 0 0

def findFreeBlock (s : FileSys) : UInt32 := findFree s.blockbmp errorNoFreeBlock 32768 0 0

def freeInodeCount (s : FileSys) : Nat := clearCount s.inodebmp.bit 8192

def freeBlockCount (s : FileSys) : Nat := clearCount s.blockbmp.bit 262144

/-- `superblock_ptr->s_free_inode_cnt--; sync_to_disk_superblock()`. -/
def countInode (s : FileSys) : FileSys :=
  { s with superblock := s.superblock.setWord 20 (s.sFreeInodeCnt - 1) }.syncToDiskSuperblock

def countBlock (s : FileSys) : FileSys :=
  { s with superblock := s.superblock.setWord 24 (s.sFreeBlocksCnt - 1) }.syncToDiskSuperblock

def takeFreeInode (s : FileSys) : Except Fault (UInt32 × FileSys) := do
  let inum := s.findFreeInode
  let s ← s.setInodeBmp inum
  return (inum, s.syncToDiskInodeBmp.countInode)

def takeFreeBlock (s : FileSys) : Except Fault (UInt32 × FileSys) := do
  let blockIndex := s.findFreeBlock
  let s ← s.setBlockBmp blockIndex
  return (blockIndex, s.syncToDiskBlockBmp.countBlock)

def clearBlockIndex (s : FileSys) (blockIndex : UInt32) : FileSys := s.writeBlock blockIndex .zero

/-- The block of the inode table that holds inode `inum`, as the `uint32_t` sum of the source. -/
def inodeBlock (inum : UInt32) : UInt32 := 10 + inum / 32

def syncFromDiskInode (s : FileSys) (inum : UInt32) : Inode :=
  .ofBuffer ((s.readBlock (inodeBlock inum)).slice (128 * (inum % 32).toNat) 128)

def syncToDiskInode (s : FileSys) (i : Inode) : FileSys :=
  s.writeBlock (inodeBlock i.iNum) ((s.readBlock (inodeBlock i.iNum)).blit
    (128 * (i.iNum % 32).toNat) i.toBuffer)

def pointer (b : Block) (k : Nat) : UInt32 := b.word (4 * k)

def getBlockIndexInInode (s : FileSys) (i : Inode) (idx : Nat) : Except Fault UInt32 :=
  if h : idx < 12 then .ok (i.iDirectTable ⟨idx, h⟩)
  else if idx < 1036 then
    if i.iIndirectBlock1Ptr = 0 then .ok notFound
    else .ok (pointer (s.readBlock i.iIndirectBlock1Ptr) (idx - 12))
  else if idx < 1049612 then
    if i.iIndirectBlock1Ptr = 0 then .ok notFound
    else
      let p := pointer (s.readBlock i.iIndirectBlock1Ptr) ((idx - 1036) / 1024)
      if p = 0 then .ok notFound else .ok (pointer (s.readBlock p) ((idx - 1036) % 1024))
  else if idx < maxBlockIndex then
    if i.iIndirectBlock1Ptr = 0 then .ok notFound
    else
      let p := pointer (s.readBlock i.iIndirectBlock1Ptr) ((idx - 1049612) / (1024 * 1024))
      if p = 0 then .ok notFound
      else
        let q := pointer (s.readBlock p) ((idx - 1049612) % (1024 * 1024) / 1024)
        if q = 0 then .ok notFound else .ok (pointer (s.readBlock q) ((idx - 1049612) % 1024))
  else .error .noReturn

/-- A block of pointers taken for `i`: cleared, counted in `i_fsize`, entered by `enter`, and the
inode written back. -/
def takePointerBlock (s : FileSys) (i : Inode) (enter : UInt32 → Inode → Inode) :
    Except Fault (UInt32 × Inode × FileSys) := do
  let (b, s) ← s.takeFreeBlock
  let s := s.clearBlockIndex b
  let i := enter b i.addSize
  return (b, i, s.syncToDiskInode i)

def setPointer (b : Block) (k : Nat) (v : UInt32) : Block := b.setWord (4 * k) v

/-- `if(i->i_indirect_block_1_ptr == 0) …`, and the same for the other two. -/
def needIndirect (s : FileSys) (i : Inode) (p : UInt32) (enter : UInt32 → Inode → Inode) :
    Except Fault (UInt32 × Inode × FileSys) :=
  if p = 0 then s.takePointerBlock i enter else .ok (p, i, s)

/-- `if(buffer[k] == 0)` take a block and enter it in slot `k`; the buffer goes back to block
`home`. -/
def needPointer (s : FileSys) (i : Inode) (buffer : Block) (k : Nat) (home : UInt32) :
    Except Fault (UInt32 × Inode × FileSys) :=
  if pointer buffer k = 0 then do
    let (b, i, s) ← s.takePointerBlock i fun _ i => i
    return (b, i, s.writeBlock home (setPointer buffer k b))
  else .ok (pointer buffer k, i, s)

def writeSecondLevel (s : FileSys) (i : Inode) (idx : Nat) (blockIndex : UInt32) :
    Except Fault (Inode × FileSys) :=
  do
  let (p, i, s) ← s.needIndirect i i.iIndirectBlock2Ptr fun b i =>
    { i with iIndirectBlock2Ptr := b }
  let (q, i, s) ← s.needPointer i (s.readBlock p) ((idx - 1036) / 1024) p
  return (i, s.writeBlock q (setPointer (s.readBlock q) ((idx - 1036) % 1024) blockIndex))

/-- The pointers of the third level: the first of its blocks goes back to the address in
`i_indirect_block_2_ptr`. For indices of the second level the source's subtractions wrap around, and
with them its indices leave `buffer1`. -/
def writeThirdLevel (s : FileSys) (i : Inode) (idx : Nat) (blockIndex : UInt32) :
    Except Fault (Inode × FileSys) :=
  do
  let (p, i, s) ← s.needIndirect i i.iIndirectBlock3Ptr fun b i =>
    { i with iIndirectBlock3Ptr := b }
  if idx < 1049612 then throw .buffer
  let (q, i, s) ← s.needPointer i (s.readBlock p) ((idx - 1049612) / (1024 * 1024))
    i.iIndirectBlock2Ptr
  let (r, i, s) ← s.needPointer i (s.readBlock q) ((idx - 1049612) % (1024 * 1024) / 1024) q
  return (i, s.writeBlock r (setPointer (s.readBlock r) ((idx - 1049612) % 1024) blockIndex))

def writeBlockIndexInInode (s : FileSys) (i : Inode) (idx : Nat) (blockIndex : UInt32) :
    Except Fault (Inode × FileSys) :=
  if h : idx < 12 then
    .ok (i.point ⟨idx, h⟩ blockIndex, s.syncToDiskInode (i.point ⟨idx, h⟩ blockIndex))
  else if idx < 1036 then do
    let (p, i, s) ← s.needIndirect i i.iIndirectBlock1Ptr fun b i => i.pointIndirect b
    return (i, s.writeBlock p (setPointer (s.readBlock p) (idx - 12) blockIndex))
  else if idx < 1049612 then do
    let (i, s) ← s.writeSecondLevel i idx blockIndex
    s.writeThirdLevel i idx blockIndex
  else if idx < maxBlockIndex then s.writeThirdLevel i idx blockIndex
  else .ok (i, s)

/-- The branch of `write_dentry` for a slot whose block is still missing: the inode with the new
block entered, and the block as it will be filled. -/
def growDirectory (s : FileSys) (i : Inode) (major : Nat) :
    Except Fault (Inode × FileSys × Block) :=
  do
  let (b, s) ← s.takeFreeBlock
  let (i, s) ← s.writeBlockIndexInInode i major b
  return (i.addSize.addEntry, s.syncToDiskInode i.addSize.addEntry, .zero)

def openDirectory (s : FileSys) (i : Inode) (major : Nat) :
    Except Fault (Inode × FileSys × Block) :=
  do
  let s := s.syncToDiskInode i.addEntry
  let b ← s.getBlockIndexInInode i.addEntry major
  return (i.addEntry, s, s.readBlock b)

def writeDentry (s : FileSys) (i : Inode) (dnum : UInt32) (d : Dentry) :
    Except Fault (Inode × FileSys) :=
  if dnum < 2 then .ok (i, s)
  else if i.iFnum + 2 < dnum then .ok (i, s)
  else do
    let major := (dnum / 32).toNat
    let first ← s.getBlockIndexInInode i major
    let (i, s, block) ← if first = 0 then s.growDirectory i major else s.openDirectory i major
    let b ← s.getBlockIndexInInode i major
    return (i, s.writeBlock b (putDentry block (dnum % 32).toNat d))

def removeDentry (s : FileSys) (i : Inode) (dnum : UInt32) : Except Fault (Inode × FileSys) := do
  let (i, s) ← s.writeDentry i dnum .zero
  return (i.dropEntry, s.syncToDiskInode i.dropEntry)

def readDentry (s : FileSys) (i : Inode) (dnum : UInt32) : Except Fault Dentry := do
  let b ← s.getBlockIndexInInode i (dnum / 32).toNat
  return dentryAt (s.readBlock b) (dnum % 32).toNat

/-- `strcmp(name, d_name) == 0` for the `d_name` at offset `o` of a block. -/
def sameName (b : Block) : List UInt8 → Nat → Except Fault Bool
  | [], o => if o < 4096 then .ok (b.get o == 0) else .error .text
  | c :: cs, o =>
    if o < 4096 then if b.get o = c then sameName b cs (o + 1) else .ok false else .error .text

/-- `for(; j < DENTRY_NUM_PER_BLOCK; j++)` with `n` rounds to go: the first entry with the name. -/
def scan (b : Block) (name : Text) : Nat → Nat → Except Fault (Option Nat)
  | 0, _ => .ok none
  | n + 1, j => do
    if ← sameName b name.bytes (128 * j + 4) then return some j else scan b name n (j + 1)

/-- The loop that `find_file`, `_find_file` and `find_dentry` share: the block number, slot and
block of the first entry with the name. `j` is not set back between blocks. -/
def lookup (s : FileSys) (i : Inode) (name : Text) :
    Nat → Nat → Nat → Except Fault (Option (Nat × Nat × Block))
  | 0, _, _ => .ok none
  | n + 1, k, j => do
    let b := s.readBlock (← s.getBlockIndexInInode i k)
    match ← scan b name (32 - j) j with
    | some slot => return some (k, slot, b)
    | none => s.lookup i name n (k + 1) 32

def lookupInum (s : FileSys) (bound : Nat) (i : Inode) (name : Text) : Except Fault UInt32 := do
  match ← s.lookup i name bound 0 0 with
  | some (_, slot, b) => return (dentryAt b slot).dInum
  | none => return notFound

def findFile (s : FileSys) (i : Inode) (name : Text) : Except Fault UInt32 :=
  s.lookupInum maxBlockIndex i name

def findFile2 (s : FileSys) (i : Inode) (name : Text) : Except Fault UInt32 := s.lookupInum 2 i name

def findDentry (s : FileSys) (i : Inode) (name : Text) : Except Fault UInt32 := do
  match ← s.lookup i name 12 0 0 with
  | some (k, slot, _) => return UInt32.ofNat (32 * k + slot)
  | none => return notFound

/-- One component of a path: the inode number it names in `i`, with the inode of that number. -/
def walk (s : FileSys) (here : UInt32 × Inode) (name : Text) : Except Fault (UInt32 × Inode) := do
  let inum ← s.findFile here.2 name
  return (inum, s.syncFromDiskInode inum)

/-- A component that is missing does not stop the walk: it goes on from the inode of number `-1`. -/
def parsePath (s : FileSys) (path : Text) (i : Inode) : Except Fault UInt32 := do
  fits 511 path
  let (inum, _) ← path.components.foldlM s.walk (0, i)
  return inum

/-- The pointers `cs` released one after the other by `release`, up to the first that is zero. -/
def releaseEach (release : UInt32 → FileSys → Except Fault (Bool × FileSys)) :
    List UInt32 → FileSys → Except Fault (Bool × FileSys)
  | [], s => .ok (false, s)
  | c :: cs, s =>
    if c = 0 then .ok (true, s)
    else do
      let (stop, s) ← release c s
      if stop then return (true, s) else releaseEach release cs s

/-- The nested loops of `release_inode_block` over a tree of pointer blocks of the given height. The
flag says that a zero pointer was met, on which the source returns at once. -/
def releaseTree : Nat → UInt32 → FileSys → Except Fault (Bool × FileSys)
  | 0, p, s => do return (false, ← s.unsetBlockBmp p)
  | height + 1, p, s => do
    let buffer := s.readBlock p
    let (stop, s) ← releaseEach (releaseTree height) ((List.range 1024).map (pointer buffer)) s
    return (stop, ← s.unsetBlockBmp p)

def releaseIndirect : List (Nat × UInt32) → FileSys → Except Fault FileSys
  | [], s => .ok s
  | (height, p) :: rest, s =>
    if p = 0 then .ok s
    else do
      let (stop, s) ← releaseTree height p s
      if stop then return s else releaseIndirect rest s

def releaseInodeBlock (s : FileSys) (i : Inode) : Except Fault FileSys := do
  let (stop, s) ← releaseEach (releaseTree 0) ((List.finRange 12).map i.iDirectTable) s
  if stop then return s
  else releaseIndirect [(1, i.iIndirectBlock1Ptr), (2, i.iIndirectBlock2Ptr),
    (3, i.iIndirectBlock3Ptr)] s

end FileSys

end Ucas.Fs

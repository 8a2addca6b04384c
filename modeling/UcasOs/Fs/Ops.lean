import UcasOs.Fs.Disk

/-! The operations of the file system, and sequences of them. -/

namespace Ucas.Fs
open Ucas.Lib

/-- What a call meets besides the file system's own state: the clock, the bytes an uninitialised
`dentry_t` has on the stack, and whether the memory behind `find_file_buffer` reads as empty
entries. -/
structure Env where
  ticks : UInt32
  stack : Dentry
  behind : Nat → Bool

def newInode (e : Env) (fmode : UInt16) (fsize first inum : UInt32) : Inode where
  iFmode := fmode
  iLinksCnt := 1
  iFsize := fsize
  iFnum := 0
  iAtime := e.ticks
  iCtime := e.ticks
  iMtime := e.ticks
  iDirectTable := Function.update (fun _ => 0) 0 first
  iIndirectBlock1Ptr := 0
  iIndirectBlock2Ptr := 0
  iIndirectBlock3Ptr := 0
  iNum := inum
  padding := fun _ => 0

def directoryBlock (inum parent : UInt32) : Block :=
  putDentry (putDentry .zero 0 (Dentry.fill .zero inum .dot)) 1 (Dentry.fill .zero parent .dotdot)

def mkfsSuperblock : Block :=
  (((((((((((((Buffer.zero.setWord 8 fsMagicNumber).setWord 0 fsSize).setWord 4 4096).setWord 16
    262144).setWord
    12 8192).setWord 28 1).setWord 32 9).setWord 36 10).setWord 40 266).setWord 24
      (262144 - 266)).setWord
    20 8192).setWord 48 128).setWord 52 128)

/-- The first descriptor that fits; the loop of `do_fopen` for an empty one does not stop at the end
of the table. -/
def Session.firstDescriptor (s : Session) (p : FileDescriptor → Bool) : Option (Fin 32) :=
  (List.finRange 32).find? fun k => p (s.fileDescriptorTable k)

namespace FileSys

def inSession (s : FileSys) (f : Session → Session) : FileSys :=
  { s with toSession := f s.toSession }

def clearTables (s : FileSys) : FileSys :=
  let s := { s with superblock := .zero, blockbmp := .zero, inodebmp := .zero }
  let s := s.syncToDiskBlockBmp.syncToDiskInodeBmp
  { s with superblock := mkfsSuperblock }.syncToDiskSuperblock

def reserveTables (s : FileSys) : Except Fault FileSys := do
  let s ← (List.range 266).foldlM (fun s i => s.setBlockBmp (UInt32.ofNat i)) s
  let s := s.syncToDiskBlockBmp
  let s ← s.setInodeBmp 0
  let s := s.syncToDiskInodeBmp.countInode
  let s ← s.setBlockBmp 266
  return s.syncToDiskBlockBmp.countBlock

def doMkfs (e : Env) (s : FileSys) : Except Fault FileSys := do
  let s := (s.inSession fun x => { x with fileDescriptorTable := fun _ => .zero }).clearTables
  let s ← s.reserveTables
  let root := newInode e (sIfdir ||| 0o755) 4096 266 0
  let s := (s.inSession fun x => { x with rootInode := root }).syncToDiskInode root
  let s := s.writeBlock 266 (directoryBlock 0 0)
  return s.inSession fun x => { x with currentDir := root }

def initFs (e : Env) (s : FileSys) : Except Fault FileSys :=
  let s := s.syncFromDiskSuperblock
  if s.sMagic = fsMagicNumber then
    let s := s.syncFromDiskBlockBmp.syncFromDiskInodeBmp
    let root := s.syncFromDiskInode 0
    .ok (s.inSession fun x => { x with rootInode := root, currentDir := root })
  else s.doMkfs e

def doStatfs (s : FileSys) : FileSys := s.syncFromDiskSuperblock

def appendDentry (s : FileSys) (e : Env) (parent : Inode) (inum : UInt32) (name : Text) :
    Except Fault FileSys :=
  do
  let (_, s) ← s.writeDentry parent (parent.iFnum + 2) (e.stack.fill inum name)
  return s

def doMkdir (e : Env) (path : Text) (mode : UInt16) (s : FileSys) :
    Except Fault (UInt32 × FileSys) :=
  do
  let (parent, name) ← separatePath path 64
  let parentInum ← s.findFile s.currentDir parent
  let s := s.syncFromDiskBlockBmp.syncFromDiskInodeBmp
  let parentInode := s.syncFromDiskInode parentInum
  let dnum ← s.findDentry parentInode name
  if dnum ≠ notFound then return (errorDupDirName, s)
  else
    let (freeInum, s) ← s.takeFreeInode
    let (freeBlockIndex, s) ← s.takeFreeBlock
    let s := s.syncToDiskInode (newInode e (sIfdir ||| mode) 4096 freeBlockIndex freeInum)
    let s := s.writeBlock freeBlockIndex (directoryBlock freeInum parentInum)
    let s ← s.appendDentry e parentInode freeInum name
    return (0, s)

def doRmdir (path : Text) (s : FileSys) : Except Fault FileSys := do
  let s := s.syncFromDiskBlockBmp.syncFromDiskInodeBmp
  let (parent, name) ← separatePath path 64
  let parentInum ← s.findFile s.currentDir parent
  let parentInode := s.syncFromDiskInode parentInum
  let childInum ← s.findFile parentInode name
  let childInode := s.syncFromDiskInode childInum
  let s ← s.unsetInodeBmp childInum
  let s := s.syncToDiskInodeBmp
  let s ← s.releaseInodeBlock childInode
  let s := s.syncToDiskBlockBmp
  let dnum ← s.findDentry parentInode name
  let (parentInode, s) ← s.removeDentry parentInode dnum
  return s.syncToDiskInode parentInode

/-- The loop of `do_ls` over the entries of one block; the flag says that it returned. Entries 32
and 33 lie behind the buffer. -/
def lsBlock (e : Env) (b : Block) : Nat → Nat → List Dentry → Bool × List Dentry
  | 0, _, acc => (false, acc)
  | n + 1, j, acc =>
    let empty := fun j => if j < 32 then (dentryAt b j).isEmpty else e.behind (j - 32)
    if !empty j then lsBlock e b n (j + 1) (acc ++ [dentryAt b j])
    else if empty (j + 1) && empty (j + 2) then (true, acc)
    else lsBlock e b n (j + 1) acc

def lsLoop (e : Env) (s : FileSys) (i : Inode) :
    Nat → Nat → List Dentry → Except Fault (List Dentry)
  | 0, _, acc => .ok acc
  | n + 1, k, acc => do
    let b ← s.getBlockIndexInInode i k
    match lsBlock e (s.readBlock b) 32 0 acc with
    | (true, acc) => return acc
    | (false, acc) => s.lsLoop e i n (k + 1) acc

def textAt (b : Block) : Nat → Nat → Except Fault Text
  | 0, _ => .error .text
  | n + 1, o =>
    if h : b.get o = 0 then .ok ⟨[], by simp⟩
    else do
      let t ← textAt b n (o + 1)
      return ⟨b.get o :: t.bytes, by simp [Ne.symm h, t.zero_notMem]⟩

/-- `ls_buffer` has room for ten entries; the others land behind it, in memory that no function of
the file system reads. -/
def doLs (e : Env) (s : FileSys) : Except Fault FileSys :=
  if sIslnk s.currentDir.iFmode then do
    let target ← textAt (s.readBlock (s.currentDir.iDirectTable 0)) (4096 - 256) 256
    fits 511 target
    let inum ← s.parsePath (Text.dot.append target) s.rootInode
    let link := s.syncFromDiskInode inum
    let entries ← s.lsLoop e link maxBlockIndex 0 []
    return s.inSession fun x => { x with currentDirLink := link, lsBuffer := entries }
  else do
    let entries ← s.lsLoop e s.currentDir maxBlockIndex 0 []
    return s.inSession fun x => { x with lsBuffer := entries }

/-- The names `do_cd` and `do_find` look up one after the other: at most three, and none for a path
with more than two slashes. `single` stands for a path without a slash. -/
def pathSteps (path single : Text) : Except Fault (Option (List Text)) := do
  fits 512 path
  if path.countSlash = 0 then return some [single]
  else if path.countSlash = 1 then
    let (parent, name) ← separatePath path 64
    return some [parent, name]
  else if path.countSlash = 2 then
    let (parent, name) ← separatePath path 64
    let (first, second) ← separatePath parent 512
    return some [first, second, name]
  else return none

def descend (s : FileSys) (find : Inode → Text → Except Fault UInt32) :
    List Text → Inode → Except Fault (Bool × Inode)
  | [], dir => .ok (true, dir)
  | name :: rest, dir => do
    let inum ← find dir name
    if inum = notFound then return (false, dir) else s.descend find rest (s.syncFromDiskInode inum)

def doCd (name : Text) (s : FileSys) : Except Fault FileSys := do
  match ← pathSteps name name with
  | none => return s
  | some names =>
    let (_, dir) ← s.descend s.findFile names s.currentDir
    return s.inSession fun x => { x with currentDir := dir }

def doFind (path name : Text) (s : FileSys) : Except Fault (Option UInt32) := do
  match ← pathSteps path name with
  | none => return none
  | some names =>
    let (found, _) ← s.descend s.findFile2 names s.currentDir
    return some (if found then 1 else 0)

def descriptor (fd : UInt32) : Except Fault (Fin 32) :=
  if h : fd.toNat < 32 then .ok ⟨fd.toNat, h⟩ else .error .descriptor

def setDescriptor (s : FileSys) (fd : Fin 32) (d : FileDescriptor) : FileSys :=
  s.inSession fun x => { x with fileDescriptorTable := Function.update x.fileDescriptorTable fd d }

def openDescriptor (s : FileSys) (inum mode : UInt32) : Except Fault (UInt32 × FileSys) :=
  match s.firstDescriptor fun d => d.fdInum == inum with
  | some k => .ok (UInt32.ofNat k, s)
  | none =>
    match s.firstDescriptor FileDescriptor.isEmpty with
    | some k => .ok (UInt32.ofNat k, s.setDescriptor k ⟨inum, mode, 0, 0⟩)
    | none => .error .descriptor

def doFopen (name : Text) (mode : UInt32) (s : FileSys) : Except Fault (UInt32 × FileSys) := do
  let (parent, name) ← separatePath (Text.dotSlash.append name) 64
  let parentInum ← s.findFile s.currentDir parent
  let childInum ← s.findFile (s.syncFromDiskInode parentInum) name
  s.openDescriptor childInum mode

/-- One round of the allocating loops of `do_fwrite`: a new block for index `k` of the direct table.
It is entered in `i_indirect_block_1_ptr` as well. -/
def growFile (here : Inode × FileSys) (k : Nat) : Except Fault (Inode × FileSys) := do
  let (i, s) := here
  let (freeIndex, s) ← s.takeFreeBlock
  let s := s.clearBlockIndex freeIndex
  let i ← (i.pointIndirect freeIndex).addSize.setDirect k freeIndex
  return (i, s.syncToDiskInode i)

/-- The indices `do_fwrite` allocates: from the block of the offset on for a first write, from the
next one on otherwise. -/
def growIndices (wOffset length : UInt32) : List Nat :=
  let beginBlock := wOffset / 4096
  let need := ((wOffset + length) / 4096 - beginBlock).toNat
  if wOffset = 0 then List.range' beginBlock.toNat (need + 1)
  else List.range' (beginBlock.toNat + 1) need

/-- How many blocks `for(i = first; i <= last; i++)` runs over. No `uint32_t` is above 0xffffffff:
up to there the loop does not end, and leaves every buffer. -/
def spanOf (first last : UInt32) : Nat :=
  if last = 0xffffffff then 4294967296
  else if first ≤ last then last.toNat - first.toNat + 1 else 0

/-- The blocks from `first` to `last`, read one behind the other into a buffer of five blocks. -/
def readSpan (s : FileSys) (first last : UInt32) : Except Fault (Buffer 20480) :=
  if spanOf first last ≤ 5 then
    .ok ((List.range (spanOf first last)).foldl (fun b k =>
      b.blit (4096 * k) (s.readBlock (first + UInt32.ofNat k))) .zero)
  else .error .buffer

def writeSpan (s : FileSys) (first last : UInt32) (b : Buffer 20480) : FileSys :=
  (List.range (spanOf first last)).foldl (fun s k =>
    s.writeBlock (first + UInt32.ofNat k) (b.slice (4096 * k) 4096)) s

def inBuffer (o : UInt32) (length : Nat) : Except Fault Unit :=
  if (o % 4096).toNat + length ≤ 20480 then .ok () else .error .buffer

def doFwrite (fd : UInt32) (data : List UInt8) (s : FileSys) : Except Fault (UInt32 × FileSys) := do
  let k ← descriptor fd
  let d := s.fileDescriptorTable k
  let length := UInt32.ofNat data.length
  let (inode, s) ← (growIndices d.fdWOffset length).foldlM growFile (s.syncFromDiskInode d.fdInum,
    s)
  let first ← s.getBlockIndexInInode inode (d.fdWOffset / 4096).toNat
  let last ← s.getBlockIndexInInode inode ((d.fdWOffset + length) / 4096).toNat
  let buffer ← s.readSpan first last
  inBuffer d.fdWOffset data.length
  let buffer := buffer.putBytes (d.fdWOffset % 4096).toNat data
  let s := s.setDescriptor k { d with fdWOffset := d.fdWOffset + length }
  return (length, s.writeSpan first last buffer)

def doFread (fd : UInt32) (length : UInt32) (s : FileSys) : Except Fault (List UInt8 × FileSys) :=
  do
  let k ← descriptor fd
  let d := s.fileDescriptorTable k
  let inode := s.syncFromDiskInode d.fdInum
  let first ← s.getBlockIndexInInode inode (d.fdROffset / 4096).toNat
  let last ← s.getBlockIndexInInode inode ((d.fdROffset + length) / 4096).toNat
  let buffer ← s.readSpan first last
  inBuffer d.fdROffset length.toNat
  let data := (List.range length.toNat).map fun j => buffer.get ((d.fdROffset % 4096).toNat + j)
  return (data, s.setDescriptor k { d with fdROffset := d.fdROffset + length })

def doFclose (fd : UInt32) (s : FileSys) : Except Fault FileSys := do
  let k ← descriptor fd
  return s.setDescriptor k .zero

def doTouch (e : Env) (name : Text) (mode : UInt16) (s : FileSys) :
    Except Fault (UInt32 × FileSys) :=
  do
  let (parent, name) ← separatePath (Text.dotSlash.append name) 64
  let parentInum ← s.findFile s.currentDir parent
  let s := s.syncFromDiskBlockBmp.syncFromDiskInodeBmp
  let parentInode := s.syncFromDiskInode parentInum
  let dnum ← s.findDentry parentInode name
  if dnum ≠ notFound then return (errorDupDirName, s)
  else
    let (freeInum, s) ← s.takeFreeInode
    let s := s.syncToDiskInode (newInode e (sIfreg ||| mode) 0 0 freeInum)
    let s ← s.appendDentry e parentInode freeInum name
    return (0, s)

def doCat (name : Text) (s : FileSys) : Except Fault FileSys := do
  let (fd, s) ← s.doFopen name 2
  let k ← descriptor fd
  let s := s.setDescriptor k { s.fileDescriptorTable k with fdROffset := 0 }
  let (data, s) ← s.doFread fd 200
  return s.inSession fun x => { x with catBuffer := (Buffer.zero.putBytes 0 data).set 200 0 }

/-- The entry is looked up under the whole of `old_name`, its inode under the last component. -/
def doRename (oldName newName : Text) (s : FileSys) : Except Fault FileSys := do
  let (parent, name) ← separatePath (Text.dotSlash.append oldName) 64
  let parentInum ← s.findFile s.currentDir parent
  let parentInode := s.syncFromDiskInode parentInum
  let childInum ← s.findFile parentInode name
  let dnum ← s.findDentry parentInode oldName
  fits 125 newName
  let d : Dentry := (Buffer.zero.setWord 0 childInum).putBytes 4 newName.bytes
  let (_, s) ← s.writeDentry parentInode dnum d
  return s

def doLink (e : Env) (srcPath newPath : Text) (s : FileSys) : Except Fault FileSys := do
  let srcInum ← s.parsePath srcPath s.currentDir
  let srcInode := s.syncFromDiskInode srcInum
  if sIsdir srcInode.iFmode then return s
  else
    let (parent, name) ← separatePath newPath 64
    let parentInum ← s.parsePath parent s.currentDir
    let parentInode := s.syncFromDiskInode parentInum
    let s := s.syncToDiskInode srcInode.addLink
    s.appendDentry e parentInode srcInum name

def symlinkBlock (b : Block) (srcPath : Text) : Block :=
  (b.putBytes 256 srcPath.bytes).set (256 + srcPath.length) 0

def doSymlink (e : Env) (srcPath newPath : Text) (s : FileSys) : Except Fault FileSys := do
  let (_, name) ← separatePath (Text.dot.append srcPath) 64
  let parentInum ← s.parsePath newPath s.currentDir
  let s := s.syncFromDiskBlockBmp.syncFromDiskInodeBmp
  let parentInode := s.syncFromDiskInode parentInum
  let (freeInum, s) ← s.takeFreeInode
  let (freeBlockIndex, s) ← s.takeFreeBlock
  let s := s.syncToDiskInode (newInode e sIflnk 4096 freeBlockIndex freeInum)
  let s := s.writeBlock freeBlockIndex (directoryBlock freeInum parentInum)
  let s := s.writeBlock freeBlockIndex (symlinkBlock (s.readBlock freeBlockIndex) srcPath)
  s.appendDentry e parentInode freeInum name

end FileSys

inductive Op
  | mkdir (path : Text) (mode : UInt16)
  | rmdir (path : Text)
  | touch (name : Text) (mode : UInt16)
  | rename (oldName newName : Text)
  | link (srcPath newPath : Text)
  | symlink (srcPath newPath : Text)
  | fopen (name : Text) (mode : UInt32)
  | fwrite (fd : UInt32) (data : List UInt8)
  | fread (fd length : UInt32)
  | fclose (fd : UInt32)
  | cd (name : Text)
  | ls
  | cat (name : Text)
  | find (path name : Text)
  | statfs

def exec (e : Env) (op : Op) (s : FileSys) : Except Fault FileSys :=
  match op with
  | .mkdir path mode => (·.2) <$> s.doMkdir e path mode
  | .rmdir path => s.doRmdir path
  | .touch name mode => (·.2) <$> s.doTouch e name mode
  | .rename oldName newName => s.doRename oldName newName
  | .link srcPath newPath => s.doLink e srcPath newPath
  | .symlink srcPath newPath => s.doSymlink e srcPath newPath
  | .fopen name mode => (·.2) <$> s.doFopen name mode
  | .fwrite fd data => (·.2) <$> s.doFwrite fd data
  | .fread fd length => (·.2) <$> s.doFread fd length
  | .fclose fd => s.doFclose fd
  | .cd name => s.doCd name
  | .ls => s.doLs e
  | .cat name => s.doCat name
  | .find path name => (fun _ => s) <$> s.doFind path name
  | .statfs => .ok s.doStatfs

def FileSys.blank : FileSys where
  rootInode := zeroInode
  currentDir := zeroInode
  currentDirLink := zeroInode
  fileDescriptorTable := fun _ => .zero
  lsBuffer := []
  catBuffer := .zero
  sd := fun _ => 0
  superblock := .zero
  blockbmp := .zero
  inodebmp := .zero

def Env.blank : Env := ⟨0, .zero, fun _ => true⟩

def run : List (Env × Op) → FileSys → Except Fault FileSys
  | [], s => .ok s
  | (e, op) :: ops, s => do run ops (← exec e op s)

end Ucas.Fs

import UcasOs.Fs.Ops
import UcasOs.Lib.Refinement

/-! The file system as what it stands for: inodes by number, blocks by number, two sets of taken
numbers and two counters. There are no buffers to keep in step with the card and no bytes of inodes.
The volume describes the operations as long as they use direct pointers to data blocks and inodes of
the table; where the code would go elsewhere (a pointer into the tables, a block of pointers) a
volume operation stops with `none`. -/

namespace Ucas.Fs
open Ucas.Lib

abbrev Result (α : Type) := Except (Option Fault) α

structure Volume extends Session where
  inode : Nat → Inode
  block : Nat → Block
  blockBit : Nat → Bool
  inodeBit : Nat → Bool
  freeBlocks : UInt32
  freeInodes : UInt32

def superblockOf (freeBlocks freeInodes : UInt32) : Block :=
  (mkfsSuperblock.setWord 20 freeInodes).setWord 24 freeBlocks

def blockKey (p : UInt32) : Nat := p.toNat % 1048576

def inodeKey (inum : UInt32) : Nat := inum.toNat % 33554432

namespace Volume

def inSession (v : Volume) (f : Session → Session) : Volume := { v with toSession := f v.toSession }

def read (v : Volume) (p : UInt32) : Result Block :=
  if 266 ≤ blockKey p then .ok (v.block (blockKey p))
  else if blockKey p = 0 then .ok (superblockOf v.freeBlocks v.freeInodes)
  else .error none

def write (v : Volume) (p : UInt32) (b : Block) : Result Volume :=
  if 266 ≤ blockKey p then .ok { v with block := Function.update v.block (blockKey p) b } else
    .error none

def load (v : Volume) (inum : UInt32) : Result Inode :=
  if inodeKey inum < 8192 then .ok (v.inode (inodeKey inum))
  else if inum = notFound then .ok zeroInode
  else .error none

def store (v : Volume) (i : Inode) : Result Volume :=
  if i.iNum.toNat < 8192 then .ok { v with inode := Function.update v.inode i.iNum.toNat i } else
    .error none

def takeInode (v : Volume) : Result (UInt32 × Volume) :=
  (firstClear v.inodeBit 8192).elim (.error (some .bitmap)) fun q => .ok (UInt32.ofNat q,
    { v with inodeBit := Function.update v.inodeBit q true, freeInodes := v.freeInodes - 1 })

def takeBlock (v : Volume) : Result (UInt32 × Volume) :=
  (firstClear v.blockBit 262144).elim (.error (some .bitmap)) fun b => .ok (UInt32.ofNat b,
    { v with blockBit := Function.update v.blockBit b true, freeBlocks := v.freeBlocks - 1 })

def freeInode (v : Volume) (inum : UInt32) : Result Volume :=
  if inum.toNat < 8192 then .ok { v with inodeBit := Function.update v.inodeBit inum.toNat false }
  else .error none

def leading (i : Inode) : List UInt32 := ((List.finRange 12).map i.iDirectTable).takeWhile (· ≠ 0)

instance (priority := 2000) decidablePointers (ps : List UInt32) (P : UInt32 → Prop)
    [DecidablePred P] :
    Decidable (∀ p ∈ ps, P p) :=
  List.decidableBAll P ps

def release (v : Volume) (i : Inode) : Result Volume :=
  if (∀ p ∈ leading i, p.toNat < 262144) ∧ ((leading i).length < 12 ∨ i.iIndirectBlock1Ptr = 0) then
    .ok { v with blockBit := fun k => v.blockBit k && decide (∀ p ∈ leading i, p.toNat ≠ k) }
  else .error none

def blockIndex (i : Inode) (idx : Nat) : Result UInt32 :=
  if h : idx < 12 then .ok (i.iDirectTable ⟨idx, h⟩)
  else if i.iIndirectBlock1Ptr = 0 ∧ idx < maxBlockIndex then .ok notFound
  else .error none

def lookup (v : Volume) (i : Inode) (name : Text) : Result (Option (Nat × Block)) := do
  let b ← v.read (i.iDirectTable 0)
  let slot ← exactly (FileSys.scan b name 32 0)
  return slot.map fun j => (j, b)

def findFile (v : Volume) (i : Inode) (name : Text) : Result UInt32 := do
  let r ← v.lookup i name
  return r.elim notFound fun (j, b) => (dentryAt b j).dInum

def findDentry (v : Volume) (i : Inode) (name : Text) : Result UInt32 := do
  let r ← v.lookup i name
  return r.elim notFound fun (j, _) => UInt32.ofNat j

def walk (v : Volume) (here : UInt32 × Inode) (name : Text) : Result (UInt32 × Inode) := do
  let inum ← v.findFile here.2 name
  let i ← v.load inum
  return (inum, i)

def parsePath (v : Volume) (path : Text) (i : Inode) : Result UInt32 := do
  exactly (fits 511 path)
  let (inum, _) ← path.components.foldlM v.walk (0, i)
  return inum

def growDirectory (v : Volume) (i : Inode) (dnum : UInt32) (d : Dentry)
    (h : (dnum / 32).toNat < 12) :
    Result (Inode × Volume) := do
  let (b, v) ← v.takeBlock
  let i := (i.point ⟨_, h⟩ b).addSize.addEntry
  let v ← v.store i
  let v ← v.write b (putDentry .zero (dnum % 32).toNat d)
  return (i, v)

def fillSlot (v : Volume) (i : Inode) (p : UInt32) (dnum : UInt32) (d : Dentry) :
    Result (Inode × Volume) :=
  do
  let v ← v.store i.addEntry
  let b ← v.read p
  let v ← v.write p (putDentry b (dnum % 32).toNat d)
  return (i.addEntry, v)

def writeDentry (v : Volume) (i : Inode) (dnum : UInt32) (d : Dentry) : Result (Inode × Volume) :=
  if dnum < 2 ∨ i.iFnum + 2 < dnum then .ok (i, v)
  else do
    let p ← blockIndex i (dnum / 32).toNat
    if h : p = 0 ∧ (dnum / 32).toNat < 12 then v.growDirectory i dnum d h.2
    else v.fillSlot i p dnum d

def removeDentry (v : Volume) (i : Inode) (dnum : UInt32) : Result (Inode × Volume) := do
  let (i, v) ← v.writeDentry i dnum .zero
  let v ← v.store i.dropEntry
  return (i.dropEntry, v)

def appendDentry (v : Volume) (e : Env) (parent : Inode) (inum : UInt32) (name : Text) :
    Result Volume :=
  do
  let (_, v) ← v.writeDentry parent (parent.iFnum + 2) (e.stack.fill inum name)
  return v

def makeWithBlock (v : Volume) (e : Env) (fmode : UInt16) (content : UInt32 → Block) :
    Result (UInt32 × Volume) := do
  let (inum, v) ← v.takeInode
  let (b, v) ← v.takeBlock
  let v ← v.store (newInode e fmode 4096 b inum)
  let v ← v.write b (content inum)
  return (inum, v)

def makeEmpty (v : Volume) (e : Env) (fmode : UInt16) : Result (UInt32 × Volume) := do
  let (inum, v) ← v.takeInode
  let v ← v.store (newInode e fmode 0 0 inum)
  return (inum, v)

def mkdir (e : Env) (path : Text) (mode : UInt16) (v : Volume) : Result (UInt32 × Volume) := do
  let (parent, name) ← exactly (separatePath path 64)
  let parentInum ← v.findFile v.currentDir parent
  let parentInode ← v.load parentInum
  let dnum ← v.findDentry parentInode name
  if dnum ≠ notFound then return (errorDupDirName, v)
  else
    let (inum, v) ← v.makeWithBlock e (sIfdir ||| mode) fun inum => directoryBlock inum parentInum
    let v ← v.appendDentry e parentInode inum name
    return (0, v)

def touch (e : Env) (name : Text) (mode : UInt16) (v : Volume) : Result (UInt32 × Volume) := do
  let (parent, name) ← exactly (separatePath (Text.dotSlash.append name) 64)
  let parentInum ← v.findFile v.currentDir parent
  let parentInode ← v.load parentInum
  let dnum ← v.findDentry parentInode name
  if dnum ≠ notFound then return (errorDupDirName, v)
  else
    let (inum, v) ← v.makeEmpty e (sIfreg ||| mode)
    let v ← v.appendDentry e parentInode inum name
    return (0, v)

def rmdir (path : Text) (v : Volume) : Result Volume := do
  let (parent, name) ← exactly (separatePath path 64)
  let parentInum ← v.findFile v.currentDir parent
  let parentInode ← v.load parentInum
  let childInum ← v.findFile parentInode name
  let childInode ← v.load childInum
  let v ← v.freeInode childInum
  let v ← v.release childInode
  let dnum ← v.findDentry parentInode name
  let (_, v) ← v.removeDentry parentInode dnum
  return v

def rename (oldName newName : Text) (v : Volume) : Result Volume := do
  let (parent, name) ← exactly (separatePath (Text.dotSlash.append oldName) 64)
  let parentInum ← v.findFile v.currentDir parent
  let parentInode ← v.load parentInum
  let childInum ← v.findFile parentInode name
  let dnum ← v.findDentry parentInode oldName
  exactly (fits 125 newName)
  let (_, v) ← v.writeDentry parentInode dnum ((Buffer.zero.setWord 0 childInum).putBytes 4
    newName.bytes)
  return v

def link (e : Env) (srcPath newPath : Text) (v : Volume) : Result Volume := do
  let srcInum ← v.parsePath srcPath v.currentDir
  let srcInode ← v.load srcInum
  if sIsdir srcInode.iFmode then return v
  else
    let (parent, name) ← exactly (separatePath newPath 64)
    let parentInum ← v.parsePath parent v.currentDir
    let parentInode ← v.load parentInum
    let v ← v.store srcInode.addLink
    v.appendDentry e parentInode srcInum name

def symlink (e : Env) (srcPath newPath : Text) (v : Volume) : Result Volume := do
  let (_, name) ← exactly (separatePath (Text.dot.append srcPath) 64)
  let parentInum ← v.parsePath newPath v.currentDir
  let parentInode ← v.load parentInum
  let (inum, v) ← v.makeWithBlock e sIflnk fun inum =>
    FileSys.symlinkBlock (directoryBlock inum parentInum) srcPath
  v.appendDentry e parentInode inum name

def lsLoop (e : Env) (v : Volume) (i : Inode) : Nat → Nat → List Dentry → Result (List Dentry)
  | 0, _, acc => .ok acc
  | n + 1, k, acc => do
    let p ← blockIndex i k
    let b ← v.read p
    match FileSys.lsBlock e b 32 0 acc with
    | (true, acc) => return acc
    | (false, acc) => v.lsLoop e i n (k + 1) acc

def ls (e : Env) (v : Volume) : Result Volume :=
  if sIslnk v.currentDir.iFmode then do
    let b ← v.read (v.currentDir.iDirectTable 0)
    let target ← exactly (FileSys.textAt b (4096 - 256) 256)
    exactly (fits 511 target)
    let inum ← v.parsePath (Text.dot.append target) v.rootInode
    let i ← v.load inum
    let entries ← v.lsLoop e i maxBlockIndex 0 []
    return v.inSession fun x => { x with currentDirLink := i, lsBuffer := entries }
  else do
    let entries ← v.lsLoop e v.currentDir maxBlockIndex 0 []
    return v.inSession fun x => { x with lsBuffer := entries }

def descend (v : Volume) : List Text → Inode → Result (Bool × Inode)
  | [], dir => .ok (true, dir)
  | name :: rest, dir => do
    let inum ← v.findFile dir name
    if inum = notFound then return (false, dir)
    else
      let i ← v.load inum
      v.descend rest i

def cd (name : Text) (v : Volume) : Result Volume := do
  match ← exactly (FileSys.pathSteps name name) with
  | none => return v
  | some names =>
    let (_, dir) ← v.descend names v.currentDir
    return v.inSession fun x => { x with currentDir := dir }

def find (path name : Text) (v : Volume) : Result (Option UInt32) := do
  match ← exactly (FileSys.pathSteps path name) with
  | none => return none
  | some names =>
    let (found, _) ← v.descend names v.currentDir
    return some (if found then 1 else 0)

def setDescriptor (v : Volume) (fd : Fin 32) (d : FileDescriptor) : Volume :=
  v.inSession fun x => { x with fileDescriptorTable := Function.update x.fileDescriptorTable fd d }

def openDescriptor (v : Volume) (inum mode : UInt32) : Result (UInt32 × Volume) :=
  match v.firstDescriptor fun d => d.fdInum == inum with
  | some k => .ok (UInt32.ofNat k, v)
  | none =>
    match v.firstDescriptor FileDescriptor.isEmpty with
    | some k => .ok (UInt32.ofNat k, v.setDescriptor k ⟨inum, mode, 0, 0⟩)
    | none => .error (some .descriptor)

def fopen (name : Text) (mode : UInt32) (v : Volume) : Result (UInt32 × Volume) := do
  let (parent, name) ← exactly (separatePath (Text.dotSlash.append name) 64)
  let parentInum ← v.findFile v.currentDir parent
  let parentInode ← v.load parentInum
  let childInum ← v.findFile parentInode name
  v.openDescriptor childInum mode

def growFile (here : Inode × Volume) (k : Nat) : Result (Inode × Volume) :=
  if h : k < 12 then do
    let (b, v) ← here.2.takeBlock
    let v ← v.write b .zero
    let i := (here.1.pointIndirect b).addSize.point ⟨k, h⟩ b
    let v ← v.store i
    return (i, v)
  else .error none

def readSpan (v : Volume) (first last : UInt32) : Result (Buffer 20480) :=
  if FileSys.spanOf first last ≤ 5 then
    (List.range (FileSys.spanOf first last)).foldlM (fun b k => do
      let c ← v.read (first + UInt32.ofNat k)
      return b.blit (4096 * k) c) Buffer.zero
  else .error (some .buffer)

def writeSpan (v : Volume) (first last : UInt32) (b : Buffer 20480) : Result Volume :=
  (List.range (FileSys.spanOf first last)).foldlM (fun v k =>
    v.write (first + UInt32.ofNat k) (b.slice (4096 * k) 4096)) v

def fwrite (fd : UInt32) (data : List UInt8) (v : Volume) : Result (UInt32 × Volume) := do
  let k ← exactly (FileSys.descriptor fd)
  let d := v.fileDescriptorTable k
  let length := UInt32.ofNat data.length
  let i ← v.load d.fdInum
  let (i, v) ← (FileSys.growIndices d.fdWOffset length).foldlM growFile (i, v)
  let first ← blockIndex i (d.fdWOffset / 4096).toNat
  let last ← blockIndex i ((d.fdWOffset + length) / 4096).toNat
  let buffer ← v.readSpan first last
  exactly (FileSys.inBuffer d.fdWOffset data.length)
  let v := v.setDescriptor k { d with fdWOffset := d.fdWOffset + length }
  let v ← v.writeSpan first last (buffer.putBytes (d.fdWOffset % 4096).toNat data)
  return (length, v)

def fread (fd : UInt32) (length : UInt32) (v : Volume) : Result (List UInt8 × Volume) := do
  let k ← exactly (FileSys.descriptor fd)
  let d := v.fileDescriptorTable k
  let i ← v.load d.fdInum
  let first ← blockIndex i (d.fdROffset / 4096).toNat
  let last ← blockIndex i ((d.fdROffset + length) / 4096).toNat
  let buffer ← v.readSpan first last
  exactly (FileSys.inBuffer d.fdROffset length.toNat)
  let data := (List.range length.toNat).map fun j => buffer.get ((d.fdROffset % 4096).toNat + j)
  return (data, v.setDescriptor k { d with fdROffset := d.fdROffset + length })

def fclose (fd : UInt32) (v : Volume) : Result Volume := do
  let k ← exactly (FileSys.descriptor fd)
  return v.setDescriptor k .zero

def cat (name : Text) (v : Volume) : Result Volume := do
  let (fd, v) ← v.fopen name 2
  let k ← exactly (FileSys.descriptor fd)
  let v := v.setDescriptor k { v.fileDescriptorTable k with fdROffset := 0 }
  let (data, v) ← v.fread fd 200
  return v.inSession fun x => { x with catBuffer := (Buffer.zero.putBytes 0 data).set 200 0 }

def exec (e : Env) (op : Op) (v : Volume) : Result Volume :=
  match op with
  | .mkdir path mode => (·.2) <$> v.mkdir e path mode
  | .rmdir path => v.rmdir path
  | .touch name mode => (·.2) <$> v.touch e name mode
  | .rename oldName newName => v.rename oldName newName
  | .link srcPath newPath => v.link e srcPath newPath
  | .symlink srcPath newPath => v.symlink e srcPath newPath
  | .fopen name mode => (·.2) <$> v.fopen name mode
  | .fwrite fd data => (·.2) <$> v.fwrite fd data
  | .fread fd length => (·.2) <$> v.fread fd length
  | .fclose fd => v.fclose fd
  | .cd name => v.cd name
  | .ls => v.ls e
  | .cat name => v.cat name
  | .find path name => (fun _ => v) <$> v.find path name
  | .statfs => .ok v

end Volume

end Ucas.Fs

import Mathlib.Logic.Function.Basic
import UcasOs.Lib.Word

/-! The page frames of `memory.c`: `page_map`, the page table that lies in the first frames, and
`page_alloc`, which takes the next free frame or turns the clock hand to a victim. -/

namespace Ucas.Mm

abbrev Word := BitVec 32

def pageSize : Nat := 0x1000
def pageTablePages : Nat := 512
def framePages : Nat := 2048
def sdSwapUnitNum : Nat := 1
def pageablePages : Nat := framePages + sdSwapUnitNum
def vmPages : Nat := 0x80000
def pageFrameStart : Word := 0xa1000000#32

def pteG : Word := 0x40#32 >>> 6
def pteV : Word := 0x80#32 >>> 6
def pteD : Word := 0x100#32 >>> 6
def pteC : Word := 0x400#32 >>> 6

inductive Fault
  | hang
  | outOfRange
  deriving Repr, DecidableEq

structure PageMapEntry where
  paddr : Word
  vaddr : Word
  vpn : Word
  pfn : Word
  pid : Word
  index : Int
  avail : Bool
  dirty : Bool
  pinned : Bool
  swaped : Bool
  swapIndex : Int
  r : Bool
  deriving Repr, DecidableEq

/-- What the code reads from its surroundings: the running process, the global `PID`, and the values
found in the return register after `get_swap_in_index`, `page_alloc` and `get_tlb_invalid_index` on
the paths that end without a `return`. -/
structure Env where
  pid : Word
  lastPid : Word
  swapInRet : Word
  allocRet : Word
  searchRet : Word

structure Frames where
  pageMap : Nat → PageMapEntry
  ram : Nat → Word
  pageTableBasePtr : Word
  freePageFrameNum : Nat
  pageAllocPtr : Nat
  clockPtr : Nat
  swapPageAllocPtr : Nat

def va2pa (va : Word) : Word := va - 0xa0000000#32
def pa2va (pa : Word) : Word := pa + 0xa0000000#32

def pageFrameVaddr (index : Word) : Word := pageFrameStart + index * 0x1000#32
def pageFramePaddr (index : Word) : Word := va2pa (pageFrameVaddr index)

def vpnOf (addr : Word) : Word := (addr &&& 0xfffff000#32) >>> 12

def pteWord (pfn : Word) : Word := (pfn <<< 12) ||| pteC ||| pteD ||| pteV

namespace Frames

def pageTable (m : Frames) (n : Nat) : Word := m.ram (m.pageTableBasePtr.toNat / 4 + n)

def setPageTable (n : Nat) (v : Word) (m : Frames) : Frames :=
  { m with ram := Function.update m.ram (m.pageTableBasePtr.toNat / 4 + n) v }

def setEntry (i : Nat) (f : PageMapEntry → PageMapEntry) (m : Frames) : Frames :=
  { m with pageMap := Function.update m.pageMap i (f (m.pageMap i)) }

def bzero (va : Word) (size : Nat) (m : Frames) : Frames :=
  { m with
    ram := fun k => if va.toNat / 4 ≤ k ∧ k < va.toNat / 4 + size / 4 then 0#32 else m.ram k }

def swapSearch (m : Frames) : Nat → Nat → Except Fault Nat
  | 0, _ => .error .hang
  | fuel + 1, i =>
    if i < sdSwapUnitNum ∧ (m.pageMap (i + framePages)).avail = false then
      m.swapSearch fuel ((i + 1) % sdSwapUnitNum)
    else .ok i

def getSwapFreeIndex (m : Frames) : Except Fault (Nat × Frames) := do
  let i ← m.swapSearch (sdSwapUnitNum + 1) m.swapPageAllocPtr
  return (i, { m with swapPageAllocPtr := i })

def getSwapInIndex (e : Env) (swapinValid : Bool) (m : Frames) : Except Fault (Nat × Frames) :=
  if swapinValid then .ok (e.swapInRet.toNat, m) else m.getSwapFreeIndex

def clock : Nat → Frames → Except Fault Frames
  | 0, _ => .error .hang
  | fuel + 1, m =>
    if (m.pageMap m.clockPtr).pinned ∨ (m.pageMap m.clockPtr).r then
      clock fuel { m.setEntry m.clockPtr ({ · with r := false }) with
        clockPtr := (m.clockPtr + 1) % framePages }
    else .ok m

/-- The bookkeeping of a page that is brought into the frame of the victim. The two branches for
`tlb_invalid` have the same text. -/
def swapPages (e : Env) (badvaddr : Word) (pinned : Bool) (swapOut swapIn : Nat) (m : Frames) :
    Frames :=
  let paddr := pageFramePaddr (BitVec.ofNat 32 m.clockPtr)
  (m.setEntry swapOut ({ · with swaped := true, swapIndex := swapIn })).setEntry swapIn
    ({ · with
      pinned := pinned, vaddr := badvaddr, vpn := vpnOf badvaddr, index := m.clockPtr, paddr :=
        paddr
      pfn := vpnOf paddr, pid := e.pid, avail := false, r := true, swaped := false })

def evict (e : Env) (badvaddr : Word) (pinned swapinValid : Bool) (m : Frames) :
    Except Fault (Word × Frames) := do
  let m ← m.clock (2 * framePages + 1)
  let swapOut := m.clockPtr
  let (unit, m) ← m.getSwapInIndex e swapinValid
  let swapIn := unit + framePages
  if pageablePages ≤ swapIn then throw .outOfRange
  let m := if swapinValid then m else m.swapPages e badvaddr pinned swapOut swapIn
  return (e.allocRet,
    (m.setEntry swapOut ({ · with swaped := true })).setEntry swapIn ({ · with swaped := false }))

/-- `page_alloc` when the scan has found frame `i`. Before the page table is set up the frame is
charged to `PID`, later to the running process. -/
def claim (e : Env) (badvaddr : Word) (pinned : Bool) (i : Nat) (m : Frames) : Frames :=
  let m := { m with pageAllocPtr := (m.pageAllocPtr + 1) % framePages }
  let m := m.bzero (pa2va (m.pageMap i).paddr) pageSize
  let m := m.setEntry i fun p =>
    if m.pageTableBasePtr = 0#32 then
      { p with avail := false, pinned := pinned, r := true, pid := e.lastPid }
    else
      { p with
        vaddr := badvaddr, vpn := vpnOf badvaddr, pid := e.pid, avail := false, pinned :=
          pinned, r := true }
  { m with freePageFrameNum := m.freePageFrameNum - 1 }

def freeFrame (m : Frames) : Option Nat :=
  (List.range' m.pageAllocPtr (framePages - m.pageAllocPtr)).find? fun i => (m.pageMap i).avail

def pageAlloc (e : Env) (badvaddr : Word) (pinned swapinValid : Bool) (m : Frames) :
    Except Fault (Word × Frames) :=
  match m.freeFrame with
  | some i => .ok (BitVec.ofNat 32 i, m.claim e badvaddr pinned i)
  | none => m.evict e badvaddr pinned swapinValid

/-- `page_map[index].paddr`. -/
def paddrAt (m : Frames) (index : Word) : Except Fault Word :=
  if index.toNat < pageablePages then .ok (m.pageMap index.toNat).paddr else .error .outOfRange

def newPage (e : Env) (badvaddr : Word) (m : Frames) : Except Fault (Word × Frames) := do
  let (index, m) ← m.pageAlloc e badvaddr false false
  let pfn := vpnOf (← m.paddrAt index)
  return (pfn, m.setPageTable (vpnOf badvaddr).toNat (pteWord pfn))

def setUpPageTable (e : Env) (badvaddr : Word) (m : Frames) : Except Fault Frames :=
  (List.range pageTablePages).foldlM (fun m _ => do
    let (_, m) ← m.pageAlloc e badvaddr true false
    return m) m

def initEntry (i : Nat) : PageMapEntry where
  paddr := if i < framePages then pageFramePaddr (BitVec.ofNat 32 i) else 0#32
  vaddr := 0#32
  vpn := 0#32
  pfn := if i < framePages then vpnOf (pageFramePaddr (BitVec.ofNat 32 i)) else 0#32
  pid := 0#32
  index := i
  avail := true
  dirty := true
  pinned := false
  swaped := ¬ i < framePages
  swapIndex := if i < framePages then -1 else i - framePages
  r := false

def initPageMap (m : Frames) : Frames :=
  { m with pageMap := fun i => if i < pageablePages then initEntry i else m.pageMap i }

def initMemory (e : Env) (badvaddr : Word) (m : Frames) : Except Fault Frames := do
  let m ← m.initPageMap.setUpPageTable e badvaddr
  return { m with pageTableBasePtr := pageFrameStart }

end Frames

end Ucas.Mm

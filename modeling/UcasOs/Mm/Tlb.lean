import UcasOs.Mm.Frames

/-! The translation buffer: the coprocessor registers, the 32 hardware entries behind `tlbp` and
`tlbwi`, the copy the kernel keeps in `tlb_table`, and the handler of a TLB exception. An entry
covers a pair of pages, and `false` stands for the even and `true` for the odd page of the pair. -/

namespace Ucas.Mm

def tlbEntriesNum : Nat := 32

structure TlbTableEntry where
  index : Word
  empty : Bool
  vpn2 : Word
  pfn : Bool → Word
  pid : Word

/-- `PageMask` is left out: the kernel never writes another value than 0, so that all pages have 4
KB. -/
structure Cp0 where
  entryHi : Word
  entryLo : Bool → Word
  index : Word
  badVAddr : Word

structure HwEntry where
  vpn2 : Word
  asid : Word
  lo : Bool → Word

structure Tlb where
  tlbTable : Nat → TlbTableEntry
  tlbEntryIndexPtr : Nat
  entries : Nat → HwEntry
  cp0 : Cp0

def vpn2Of (addr : Word) : Word := (addr &&& 0xffffe000#32) >>> 13
def asidOf (entryHi : Word) : Word := entryHi &&& 0xff#32
def isOdd (addr : Word) : Bool := (addr &&& 0x1000#32) >>> 12 = 1#32

def loWord (pfn : Word) : Word := (pfn <<< 6) ||| pteC ||| pteD ||| pteV
def pfnOfLo (lo : Word) : Word := (lo &&& 0xffffffc0#32) >>> 6

def HwEntry.Covers (t : HwEntry) (vpn2 asid : Word) : Prop :=
  t.vpn2 = vpn2 ∧ (t.lo false &&& t.lo true &&& pteG = pteG ∨ t.asid = asid)

instance (t : HwEntry) (vpn2 asid : Word) : Decidable (t.Covers vpn2 asid) :=
  inferInstanceAs (Decidable (_ ∧ _))

def Valid (word : Word) : Prop := word &&& pteV = pteV

instance (word : Word) : Decidable (Valid word) := inferInstanceAs (Decidable (_ = _))

namespace Tlb

def setEntryHi (v : Word) (t : Tlb) : Tlb := { t with cp0.entryHi := v &&& 0xffffe0ff#32 }

def setEntryLo (odd : Bool) (v : Word) (t : Tlb) : Tlb :=
  { t with cp0.entryLo := Function.update t.cp0.entryLo odd v }

def setIndex (v : Word) (t : Tlb) : Tlb := { t with cp0.index := v }

def tlbwi (t : Tlb) : Tlb :=
  let entry := ⟨vpn2Of t.cp0.entryHi, asidOf t.cp0.entryHi, t.cp0.entryLo⟩
  { t with entries := Function.update t.entries t.cp0.index.toNat entry }

def tlbp (t : Tlb) : Tlb :=
  match (List.range tlbEntriesNum).find? fun i =>
    (t.entries i).Covers (vpn2Of t.cp0.entryHi) (asidOf t.cp0.entryHi) with
  | some i => t.setIndex (BitVec.ofNat 32 i)
  | none => t.setIndex 0x80000000#32

def tlbFlushNoCheck (t : Tlb) : Tlb :=
  (((t.setEntryHi 0#32).setEntryLo false 0#32).setEntryLo true 0#32).tlbwi

def raise (va : Word) (t : Tlb) : Tlb :=
  { t with cp0.entryHi := (va &&& 0xffffe000#32) ||| asidOf t.cp0.entryHi, cp0.badVAddr := va }

def setTable (slot : Nat) (f : TlbTableEntry → TlbTableEntry) (t : Tlb) : Tlb :=
  { t with tlbTable := Function.update t.tlbTable slot (f (t.tlbTable slot)) }

def fillEntry (i : Nat) (t : Tlb) : Tlb :=
  let t := t.setTable i fun _ => ⟨BitVec.ofNat 32 i, true, 0xffff7#32, fun _ => 0#32, 0#32⟩
  let t := ((t.setEntryHi (0xffff7#32 <<< 13)).setEntryLo false 0#32).setEntryLo true 0#32
  (t.setIndex (BitVec.ofNat 32 i)).tlbwi

def fillTlb (t : Tlb) : Tlb := (List.range tlbEntriesNum).foldl (fun t i => t.fillEntry i) t

def checkTlbWrongAccess (pid : Word) (t : Tlb) : Option Word :=
  ((List.range tlbEntriesNum).find? fun i =>
    (t.tlbTable i).vpn2 = vpn2Of t.cp0.entryHi ∧ (t.tlbTable i).pid ≠ pid).map fun i =>
      (t.tlbTable i).pid

def getTlbInvalidIndex (e : Env) (t : Tlb) : Word :=
  match (List.range tlbEntriesNum).find? fun i =>
    (t.tlbTable i).vpn2 = vpn2Of t.cp0.entryHi ∧ (t.tlbTable i).pid = e.pid with
  | some i => BitVec.ofNat 32 i
  | none => e.searchRet

/-- The update of `tlb_table` after an entry was written: of the two frames only the faulting one is
taken over. -/
def record (pid : Word) (odd : Bool) (slot : Nat) (t : Tlb) : Tlb :=
  t.setTable slot fun p =>
    { p with
      pid := pid, empty := false, index := BitVec.ofNat 32 slot
      pfn := Function.update p.pfn odd (pfnOfLo (t.cp0.entryLo odd)), vpn2 := vpn2Of t.cp0.entryHi }

def refill (pid entryHi : Word) (odd : Bool) (pfn : Word) (t : Tlb) : Tlb :=
  let ptr := (t.tlbEntryIndexPtr + 1) % tlbEntriesNum
  let t := { t with tlbEntryIndexPtr := ptr }.setIndex (BitVec.ofNat 32 ptr)
  let t := t.tlbFlushNoCheck.setEntryLo odd (loWord pfn)
  let t := (t.setEntryHi ((entryHi &&& 0xffffe000#32) ||| pid)).tlbwi
  t.record pid odd ptr

def complete (pid entryHi : Word) (odd : Bool) (pfn : Word) (slot : Nat) (t : Tlb) : Tlb :=
  let other := loWord ((t.tlbTable slot).pfn !odd)
  let t := ((t.setIndex (BitVec.ofNat 32 slot)).setEntryLo odd (loWord pfn)).setEntryLo (!odd) other
  let t := (t.setEntryHi ((entryHi &&& 0xffffe000#32) ||| pid)).tlbwi
  t.record pid odd slot

end Tlb

structure Machine where
  frames : Frames
  tlb : Tlb
  wrongPid : Word
  tlbRefillCount : Nat
  tlbInvalidCount : Nat
  console : List String

def wrongAccessText (pid wrongPid : Int) : String :=
  s!"ERROR! Current running pid is {pid}, but virtual address is in pid {wrongPid} address space"

namespace Machine

def handleRefill (e : Env) (s : Machine) : Except Fault Machine :=
  let entryHi := s.tlb.cp0.entryHi
  let odd := isOdd s.tlb.cp0.badVAddr
  match s.tlb.checkTlbWrongAccess e.pid with
  | some wrongPid =>
    .ok { s with wrongPid, console := s.console ++ [wrongAccessText e.pid.toInt wrongPid.toInt] }
  | none =>
    let pte := s.frames.pageTable (vpnOf s.tlb.cp0.badVAddr).toNat
    if pte ≠ 0#32 ∧ Valid pte then .ok { s with tlb := s.tlb.refill e.pid entryHi odd (vpnOf pte) }
    else if pte = 0#32 ∧ s.frames.freePageFrameNum ≠ 0 then do
      let (pfn, frames) ← s.frames.newPage e s.tlb.cp0.badVAddr
      return { s with frames, tlb := s.tlb.refill e.pid entryHi odd pfn }
    -- a page that was swapped out, or no frame left: nothing is done
    else .ok s

def handleInvalid (e : Env) (s : Machine) : Except Fault Machine :=
  let entryHi := s.tlb.cp0.entryHi
  let odd := isOdd s.tlb.cp0.badVAddr
  if s.frames.pageTable (vpnOf s.tlb.cp0.badVAddr).toNat = 0#32 then do
    let (pfn, frames) ← s.frames.newPage e s.tlb.cp0.badVAddr
    let slot := (s.tlb.getTlbInvalidIndex e).toNat
    if tlbEntriesNum ≤ slot then throw .outOfRange
    return { s with frames, tlb := s.tlb.complete e.pid entryHi odd pfn slot }
  else .ok s

def handleTlbExceptionHelper (e : Env) (s : Machine) : Except Fault Machine :=
  let s := { s with tlb := s.tlb.tlbp }
  let index := s.tlb.cp0.index
  if (index &&& 0x80000000#32) >>> 31 = 1#32 then
    { s with tlbRefillCount := s.tlbRefillCount + 1 }.handleRefill e
  else
    { s with tlbInvalidCount := s.tlbInvalidCount + 1 }.handleInvalid e

def initMemory (e : Env) (s : Machine) : Except Fault Machine := do
  let frames ← s.frames.initMemory e s.tlb.cp0.badVAddr
  return { s with frames := frames, tlb := s.tlb.fillTlb }

end Machine

end Ucas.Mm

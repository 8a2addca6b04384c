import UcasOs.Mm.Tlb
import UcasOs.Lib.Simulation

/-! What `page_map`, the page table and the allocation pointers say about each other as long as no
frame was taken from a page: the frames are handed out in order, and a frame in the page table
records the page it is for. -/

namespace Ucas.Mm
open Ucas.Lib

theorem toNat_vpnOf (a : Word) : (vpnOf a).toNat = a.toNat / 4096 := by
  rw [vpnOf, Word.and_shiftRight (by decide), Word.toNat_shiftRight]
  rfl

theorem pteWord_eq (pfn : Word) : pteWord pfn = (pfn <<< 12) ||| 0x16#32 := by
  rw [pteWord, BitVec.or_assoc, BitVec.or_assoc]
  rfl

theorem valid_pteWord (pfn : Word) : Valid (pteWord pfn) := by
  rw [Valid, pteWord_eq]
  exact Word.or_and_of_and_eq (by decide)

theorem Valid.ne_zero {word : Word} (h : Valid word) : word ≠ 0#32 :=
  Word.ne_zero_of_and_eq h (by decide)

theorem vpnOf_pteWord {pfn : Word} (h : pfn.toNat < 2 ^ 20) : vpnOf (pteWord pfn) = pfn := by
  rw [vpnOf, Word.and_shiftRight (by decide), pteWord_eq]
  exact Word.shiftLeft_or_shiftRight (by decide) h (by decide)

def framePfn (i : Nat) : Word := vpnOf (pageFramePaddr (BitVec.ofNat 32 i))

theorem toNat_pageFrameVaddr {i : Nat} (hi : i < framePages) :
    (pageFrameVaddr (BitVec.ofNat 32 i)).toNat = 0xa1000000 + i * 4096 := by
  unfold framePages at hi
  simp only [pageFrameVaddr, pageFrameStart, BitVec.toNat_add, BitVec.toNat_mul, BitVec.toNat_ofNat]
  omega

theorem pa2va_pageFramePaddr (i : Word) : pa2va (pageFramePaddr i) = pageFrameVaddr i :=
  BitVec.sub_add_cancel _ _

theorem toNat_framePfn {i : Nat} (hi : i < framePages) : (framePfn i).toNat = 0x1000 + i := by
  have hv := toNat_pageFrameVaddr hi
  unfold framePages at hi
  rw [framePfn, toNat_vpnOf, pageFramePaddr, va2pa, BitVec.toNat_sub, hv, BitVec.toNat_ofNat]
  omega

theorem framePfn_inj {i j : Nat} (hi : i < framePages) (hj : j < framePages)
    (h : framePfn i = framePfn j) :
    i = j := by
  have := congrArg BitVec.toNat h
  rw [toNat_framePfn hi, toNat_framePfn hj] at this
  omega

theorem vpnOf_pteWord_framePfn {i : Nat} (hi : i < framePages) :
    vpnOf (pteWord (framePfn i)) = framePfn i := by
  apply vpnOf_pteWord
  rw [toNat_framePfn hi]
  unfold framePages at hi
  omega

namespace Frames
variable {m : Frames} {e : Env} {va : Word}

def used (m : Frames) : Nat := framePages - m.freePageFrameNum

structure Counted (m : Frames) : Prop where
  free_le : m.freePageFrameNum ≤ framePages
  cursor : m.pageAllocPtr = m.used % framePages
  paddr : ∀ i < framePages, (m.pageMap i).paddr = pageFramePaddr (BitVec.ofNat 32 i)
  pfn : ∀ i < framePages, (m.pageMap i).pfn = framePfn i
  swaped : ∀ i < framePages, (m.pageMap i).swaped = false
  avail : ∀ i < framePages, (m.pageMap i).avail = decide (m.used ≤ i)
  unit : (m.pageMap framePages).avail = true

theorem Counted.used_lt (hfree : m.freePageFrameNum ≠ 0) : m.used < framePages := by
  unfold used framePages
  omega

theorem free_ne_zero (hlt : m.used < framePages) : m.freePageFrameNum ≠ 0 := by
  intro h0
  rw [used, h0] at hlt
  omega

theorem Counted.freeFrame (h : m.Counted) (hfree : m.freePageFrameNum ≠ 0) :
    m.freeFrame = some m.used := by
  have hlt := used_lt hfree
  have hcursor : m.pageAllocPtr = m.used := h.cursor.trans (Nat.mod_eq_of_lt hlt)
  have hlen : framePages - m.used = (framePages - m.used - 1) + 1 := by omega
  rw [Frames.freeFrame, hcursor, hlen, List.range'_succ, List.find?_cons_of_pos]
  rw [h.avail _ hlt]
  simp

theorem Counted.freeFrame_none (h : m.Counted) (hfree : m.freePageFrameNum = 0) :
    m.freeFrame = none := by
  rw [Frames.freeFrame, List.find?_eq_none]
  intro i hi
  have hlt : i < framePages := by
    rw [List.mem_range'_1] at hi
    omega
  rw [h.avail i hlt, used, hfree]
  simp [hlt]

theorem Counted.pageAlloc (h : m.Counted) (hfree : m.freePageFrameNum ≠ 0)
    (pinned swapinValid : Bool) :
    m.pageAlloc e va pinned swapinValid = .ok (BitVec.ofNat 32 m.used, m.claim e va pinned
    m.used) := by
  rw [Frames.pageAlloc, h.freeFrame hfree]

theorem ram_claim {i : Nat} (hi : i < framePages)
    (hp : (m.pageMap i).paddr = pageFramePaddr (BitVec.ofNat 32 i)) (pinned : Bool) (n : Nat) :
    (m.claim e va pinned i).ram (pageFrameStart.toNat / 4 + n) =
      if n / 1024 = i then 0#32 else m.ram (pageFrameStart.toNat / 4 + n) := by
  have hv := toNat_pageFrameVaddr hi
  have hstart : pageFrameStart.toNat = 0xa1000000 := rfl
  simp only [claim, setEntry, bzero, hp, pa2va_pageFramePaddr, hv, hstart, pageSize]
  by_cases hn : n / 1024 = i
  · rw [if_pos (by omega), if_pos hn]
  · rw [if_neg (by omega), if_neg hn]

theorem pageMap_claim_of_ne {i j : Nat} (h : j ≠ i) (pinned : Bool) :
    (m.claim e va pinned i).pageMap j = m.pageMap j := by
  simp only [claim, setEntry, bzero, Function.update_of_ne h]

@[simp] theorem freePageFrameNum_claim (pinned : Bool) (i : Nat) :
    (m.claim e va pinned i).freePageFrameNum = m.freePageFrameNum - 1 := by
  simp only [claim, setEntry, bzero]

@[simp] theorem pageAllocPtr_claim (pinned : Bool) (i : Nat) :
    (m.claim e va pinned i).pageAllocPtr = (m.pageAllocPtr + 1) % framePages := by
  simp only [claim, setEntry, bzero]

theorem used_claim (e : Env) (va : Word) (hle : m.freePageFrameNum ≤ framePages)
    (hfree : m.freePageFrameNum ≠ 0) (pinned : Bool)
    (i : Nat) : (m.claim e va pinned i).used = m.used + 1 := by
  rw [used, used, freePageFrameNum_claim]
  omega

theorem Counted.claim (h : m.Counted) (e : Env) (va : Word) (hfree : m.freePageFrameNum ≠ 0)
    (pinned : Bool) :
    (m.claim e va pinned m.used).Counted := by
  have hlt := used_lt hfree
  have hle := h.free_le
  have hused := used_claim e va h.free_le hfree pinned m.used
  -- every field of `page_map[used]` the invariant speaks of is kept, but for `avail`
  have hself : ∀ i < framePages, ((m.claim e va pinned m.used).pageMap i).paddr =
    (m.pageMap i).paddr ∧
      ((m.claim e va pinned m.used).pageMap i).pfn = (m.pageMap i).pfn ∧
      ((m.claim e va pinned m.used).pageMap i).swaped = (m.pageMap i).swaped := by
    intro i _
    by_cases hi : i = m.used
    · subst hi
      simp only [Frames.claim, setEntry, bzero, Function.update_self]
      split <;> exact ⟨rfl, rfl, rfl⟩
    · rw [pageMap_claim_of_ne hi]
      exact ⟨rfl, rfl, rfl⟩
  refine ⟨?_, ?_, fun i hi => ?_, fun i hi => ?_, fun i hi => ?_, fun i hi => ?_, ?_⟩
  · rw [freePageFrameNum_claim]
    omega
  · rw [hused, pageAllocPtr_claim, h.cursor, Nat.mod_add_mod]
  · rw [(hself i hi).1, h.paddr i hi]
  · rw [(hself i hi).2.1, h.pfn i hi]
  · rw [(hself i hi).2.2, h.swaped i hi]
  · rw [hused]
    by_cases hne : i = m.used
    · subst hne
      simp only [Frames.claim, setEntry, bzero, Function.update_self]
      split <;> simp
    · rw [pageMap_claim_of_ne hne, h.avail i hi, decide_eq_decide]
      omega
  · rw [pageMap_claim_of_ne (by omega), h.unit]

@[simp] theorem pageTableBasePtr_claim (pinned : Bool) (i : Nat) :
    (m.claim e va pinned i).pageTableBasePtr = m.pageTableBasePtr := by
  simp only [claim, setEntry, bzero]

@[simp] theorem clockPtr_claim (pinned : Bool) (i : Nat) :
    (m.claim e va pinned i).clockPtr = m.clockPtr := by
  simp only [claim, setEntry, bzero]

@[simp] theorem swapPageAllocPtr_claim (pinned : Bool) (i : Nat) :
    (m.claim e va pinned i).swapPageAllocPtr = m.swapPageAllocPtr := by
  simp only [claim, setEntry, bzero]

theorem pinned_claim (pinned : Bool) (i : Nat) :
    ((m.claim e va pinned i).pageMap i).pinned = pinned := by
  simp only [claim, setEntry, bzero, Function.update_self]
  split <;> rfl

structure Ledger (m : Frames) : Prop extends m.Counted where
  base : m.pageTableBasePtr = pageFrameStart
  kept : pageTablePages ≤ m.used
  pinned : ∀ i < framePages, (m.pageMap i).pinned = decide (i < pageTablePages)
  pages : ∀ n < vmPages, m.pageTable n ≠ 0#32 → ∃ i, pageTablePages ≤ i ∧ i < m.used ∧
    m.pageTable n = pteWord (framePfn i) ∧ (m.pageMap i).vpn.toNat = n

def mapPage (e : Env) (va : Word) (m : Frames) : Frames :=
  (m.claim e va false m.used).setPageTable (vpnOf va).toNat (pteWord (framePfn m.used))

theorem used_le (m : Frames) : m.used ≤ framePages := by
  unfold used
  omega

@[simp] theorem used_setPageTable (n : Nat) (v : Word) : (m.setPageTable n v).used = m.used := by
  simp only [used, setPageTable]

theorem Counted.setPageTable (h : m.Counted) (n : Nat) (v : Word) :
    (m.setPageTable n v).Counted := by
  refine ⟨h.free_le, ?_, h.paddr, h.pfn, h.swaped, ?_, h.unit⟩
  · rw [used_setPageTable]
    exact h.cursor
  · rw [used_setPageTable]
    exact h.avail

theorem pageMap_mapPage_of_ne {j : Nat} (hj : j ≠ m.used) :
    (m.mapPage e va).pageMap j = m.pageMap j := by
  simp only [mapPage, setPageTable, pageMap_claim_of_ne hj]

@[simp] theorem clockPtr_mapPage : (m.mapPage e va).clockPtr = m.clockPtr := by
  simp only [mapPage, setPageTable, clockPtr_claim]

@[simp] theorem swapPageAllocPtr_mapPage :
    (m.mapPage e va).swapPageAllocPtr = m.swapPageAllocPtr := by
  simp only [mapPage, setPageTable, swapPageAllocPtr_claim]

section mapPage
variable (h : m.Ledger)
include h

theorem Ledger.used_mapPage (hfree : m.freePageFrameNum ≠ 0) :
    (m.mapPage e va).used = m.used + 1 := by
  rw [mapPage, used_setPageTable, used_claim _ _ h.free_le hfree]

theorem Ledger.pageTable_mapPage (hfree : m.freePageFrameNum ≠ 0) {n : Nat} (hn : n < vmPages) :
    (m.mapPage e va).pageTable n =
      if n = (vpnOf va).toNat then pteWord (framePfn m.used) else m.pageTable n := by
  have hkept := h.kept
  have hlt := Counted.used_lt hfree
  unfold vmPages at hn
  unfold pageTablePages at hkept
  simp only [mapPage, setPageTable, pageTable, pageTableBasePtr_claim]
  by_cases hv : n = (vpnOf va).toNat
  · rw [if_pos hv, hv, Function.update_self]
  · rw [if_neg hv, Function.update_of_ne (by omega), h.base, ram_claim hlt (h.paddr _ hlt), if_neg
      (by omega)]

theorem Ledger.pageMap_mapPage :
    ((m.mapPage e va).pageMap m.used).pid = e.pid ∧ ((m.mapPage e va).pageMap m.used).vpn = vpnOf
    va := by
  have hbase : m.pageTableBasePtr ≠ 0#32 := by
    rw [h.base]
    decide
  simp only [mapPage, setPageTable, claim, setEntry, bzero, Function.update_self, if_neg hbase,
    and_self]

theorem Ledger.mapPage (hfree : m.freePageFrameNum ≠ 0) : (m.mapPage e va).Ledger := by
  have hlt := Counted.used_lt hfree
  have hkept := h.kept
  refine ⟨(h.toCounted.claim e va hfree false).setPageTable _ _, ?_, ?_, fun i hi => ?_,
    fun n hn hne => ?_⟩
  · simp only [Frames.mapPage, Frames.setPageTable, pageTableBasePtr_claim, h.base]
  · rw [h.used_mapPage hfree]
    omega
  · by_cases hne : i = m.used
    · subst hne
      simp only [Frames.mapPage, Frames.setPageTable, pinned_claim]
      rw [eq_comm, decide_eq_false_iff_not]
      omega
    · rw [pageMap_mapPage_of_ne hne, h.pinned i hi]
  · rw [h.used_mapPage hfree]
    rw [h.pageTable_mapPage hfree hn] at hne ⊢
    by_cases hv : n = (vpnOf va).toNat
    · refine ⟨m.used, hkept, by omega, by rw [if_pos hv], ?_⟩
      rw [h.pageMap_mapPage.2, hv]
    · rw [if_neg hv] at hne ⊢
      obtain ⟨i, hlow, hi, hpte, hvpn⟩ := h.pages n hn hne
      refine ⟨i, hlow, by omega, hpte, ?_⟩
      rw [pageMap_mapPage_of_ne (by omega), hvpn]

end mapPage

theorem Ledger.newPage (h : m.Ledger) (hfree : m.freePageFrameNum ≠ 0) :
    m.newPage e va = .ok (framePfn m.used, m.mapPage e va) := by
  have hlt := Counted.used_lt hfree
  have hclaim := h.toCounted.claim e va hfree false
  have hindex : (BitVec.ofNat 32 m.used).toNat = m.used := by
    rw [BitVec.toNat_ofNat, Nat.mod_eq_of_lt]
    unfold framePages at hlt
    omega
  have hrange : m.used < pageablePages := Nat.lt_add_right _ hlt
  have hpaddr : (m.claim e va false m.used).paddrAt (BitVec.ofNat 32 m.used) =
      .ok (pageFramePaddr (BitVec.ofNat 32 m.used)) := by
    rw [paddrAt, hindex, if_pos hrange, hclaim.paddr _ hlt]
  rw [Frames.newPage, h.toCounted.pageAlloc hfree]
  simp only [bind, Except.bind, hpaddr, pure, Except.pure, Frames.mapPage, framePfn]

structure Setup (k : Nat) (m : Frames) : Prop extends m.Counted where
  base : m.pageTableBasePtr = 0#32
  used_eq : m.used = k
  pinned : ∀ i < framePages, (m.pageMap i).pinned = decide (i < k)
  zero : ∀ n, n / 1024 < k → m.ram (pageFrameStart.toNat / 4 + n) = 0#32
  clock : m.clockPtr = 0
  swap : m.swapPageAllocPtr = 0

theorem Setup.round {k : Nat} (h : m.Setup k) (e : Env) (va : Word) (hk : k < framePages) :
    ∃ m', m.pageAlloc e va true false = .ok (BitVec.ofNat 32 k, m') ∧ m'.Setup (k + 1) := by
  have hused := h.used_eq
  have hfree : m.freePageFrameNum ≠ 0 := by
    intro hzero
    rw [used, hzero] at hused
    omega
  refine ⟨_, by rw [h.toCounted.pageAlloc hfree, hused], ?_⟩
  have hcounted := h.toCounted.claim e va hfree true
  rw [hused] at hcounted
  refine ⟨hcounted, ?_, ?_, fun i hi => ?_, fun n hn => ?_, ?_, ?_⟩
  · rw [pageTableBasePtr_claim, h.base]
  · rw [used_claim _ _ h.free_le hfree, hused]
  · by_cases hne : i = k
    · subst hne
      rw [pinned_claim, eq_comm, decide_eq_true_iff]
      omega
    · rw [pageMap_claim_of_ne hne, h.pinned i hi, decide_eq_decide]
      omega
  · rw [ram_claim hk (h.paddr k hk)]
    by_cases hne : n / 1024 = k
    · rw [if_pos hne]
    · rw [if_neg hne, h.zero n (by omega)]
  · rw [clockPtr_claim, h.clock]
  · rw [swapPageAllocPtr_claim, h.swap]

theorem Setup.rounds {β : Type} {k : Nat} (h : m.Setup k) (e : Env) (va : Word) (l : List β)
    (hk : k + l.length ≤ framePages) :
    ∃ m', l.foldlM (fun (m : Frames) _ => do
      let (_, m) ← m.pageAlloc e va true false
      return m) m = .ok m' ∧ m'.Setup (k + l.length) := by
  induction l generalizing m k with
  | nil => exact ⟨m, rfl, h⟩
  | cons x l ih =>
    rw [List.length_cons] at hk
    obtain ⟨m₁, hrun, h₁⟩ := h.round e va (by omega)
    obtain ⟨m', hrest, h'⟩ := ih h₁ (by omega)
    refine ⟨m', ?_, ?_⟩
    · rw [List.foldlM_cons, hrun]
      exact hrest
    · rw [List.length_cons, show k + (l.length + 1) = k + 1 + l.length by omega]
      exact h'

structure Blank (m : Frames) : Prop where
  base : m.pageTableBasePtr = 0#32
  free : m.freePageFrameNum = framePages
  cursor : m.pageAllocPtr = 0
  clock : m.clockPtr = 0
  swap : m.swapPageAllocPtr = 0

theorem pageMap_initPageMap {i : Nat} (hi : i < pageablePages) :
    m.initPageMap.pageMap i = initEntry i := by
  simp only [initPageMap, if_pos hi]

theorem Blank.setup (h : m.Blank) : m.initPageMap.Setup 0 := by
  have hused : m.initPageMap.used = 0 := by simp only [used, initPageMap, h.free, Nat.sub_self]
  have hentry : ∀ i < framePages, m.initPageMap.pageMap i = initEntry i :=
    fun i hi => pageMap_initPageMap (Nat.lt_add_right _ hi)
  refine ⟨⟨h.free.le, ?_, fun i hi => ?_, fun i hi => ?_, fun i hi => ?_, fun i hi => ?_, ?_⟩,
    h.base, hused,
    fun i hi => ?_, fun n hn => absurd hn (Nat.not_lt_zero _), h.clock, h.swap⟩
  · rw [hused, Nat.zero_mod]
    exact h.cursor
  · simp [hentry i hi, initEntry, hi]
  · simp [hentry i hi, initEntry, hi, framePfn]
  · simp [hentry i hi, initEntry, hi]
  · simp [hentry i hi, hused, initEntry]
  · rw [pageMap_initPageMap (by decide), initEntry]
  · simp [hentry i hi, initEntry]

theorem initMemory_ledger (h : m.Blank) (e : Env) (va : Word) :
    ∃ m', m.initMemory e va = .ok m' ∧ m'.Ledger ∧
    m'.used = pageTablePages ∧ (∀ n < vmPages, m'.pageTable n = 0#32) ∧ m'.clockPtr = 0 ∧
    m'.swapPageAllocPtr = 0 := by
  obtain ⟨m', hrun, hm'⟩ := h.setup.rounds e va (List.range pageTablePages)
    (by rw [List.length_range]; decide)
  rw [List.length_range, Nat.zero_add] at hm'
  have hused : { m' with pageTableBasePtr := pageFrameStart }.used = pageTablePages := by
    simp only [used, ← hm'.used_eq]
  have hzero : ∀ n < vmPages, { m' with pageTableBasePtr := pageFrameStart }.pageTable n = 0#32 :=
      by
    intro n hn
    refine hm'.zero n ?_
    unfold vmPages at hn
    unfold pageTablePages
    omega
  refine ⟨{ m' with pageTableBasePtr := pageFrameStart }, ?_, ?_, hused, hzero, hm'.clock, hm'.swap⟩
  · rw [initMemory, setUpPageTable, hrun]
    rfl
  · have hcounted := hm'.toCounted
    refine ⟨⟨hcounted.free_le, ?_, hcounted.paddr, hcounted.pfn, hcounted.swaped, ?_,
      hcounted.unit⟩, rfl,
      hused.ge, hm'.pinned, fun n hn hne => absurd (hzero n hn) hne⟩
    · rw [hused, ← hm'.used_eq]
      exact hcounted.cursor
    · rw [hused, ← hm'.used_eq]
      exact hcounted.avail

end Frames

end Ucas.Mm

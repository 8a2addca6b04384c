import UcasOs.Mm.Fill
import Mathlib.Data.Nat.Find

/-! The search for a victim when no frame is free. The clock hand always finds one, and `page_alloc`
then enters the new page in `page_map` without taking the frame away from the page that has it. -/

namespace Ucas.Mm
open Ucas.Lib

namespace Frames
variable {m m' : Frames} {e : Env} {va : Word}

/-- What the clock hand leaves alone: everything but its position and the reference bits. -/
structure Turned (m m' : Frames) : Prop where
  pageMap : ∀ i, m'.pageMap i = { m.pageMap i with r := (m'.pageMap i).r }
  ram : m'.ram = m.ram
  base : m'.pageTableBasePtr = m.pageTableBasePtr
  free : m'.freePageFrameNum = m.freePageFrameNum
  swap : m'.swapPageAllocPtr = m.swapPageAllocPtr

theorem Turned.refl (m : Frames) : Turned m m := ⟨fun _ => rfl, rfl, rfl, rfl, rfl⟩

theorem Turned.trans {m₁ m₂ m₃ : Frames} (h : Turned m₁ m₂) (h' : Turned m₂ m₃) : Turned m₁ m₃ where
  pageMap i := by
    rw [h'.pageMap i, h.pageMap i]
  ram := h'.ram.trans h.ram
  base := h'.base.trans h.base
  free := h'.free.trans h.free
  swap := h'.swap.trans h.swap

def turn (m : Frames) : Frames :=
  { m.setEntry m.clockPtr ({ · with r := false }) with clockPtr := (m.clockPtr + 1) % framePages }

theorem turn_turned (m : Frames) : Turned m m.turn := by
  refine ⟨fun i => ?_, ?_, ?_, ?_, ?_⟩
  · simp only [turn, setEntry]
    by_cases hi : i = m.clockPtr
    · rw [hi, Function.update_self]
    · rw [Function.update_of_ne hi]
  · simp only [turn, setEntry]
  · simp only [turn, setEntry]
  · simp only [turn, setEntry]
  · simp only [turn, setEntry]

theorem clock_succ (n : Nat) (m : Frames) : clock (n + 1) m =
    if (m.pageMap m.clockPtr).pinned ∨ (m.pageMap m.clockPtr).r then clock n m.turn else .ok m :=
  rfl

theorem clock_turned {n : Nat} (h : clock n m = .ok m') :
    Turned m m' ∧ (m'.pageMap m'.clockPtr).pinned = false := by
  induction n generalizing m with
  | zero => cases h
  | succ n ih =>
    rw [clock_succ] at h
    split at h
    · obtain ⟨hturned, hpinned⟩ := ih h
      exact ⟨m.turn_turned.trans hturned, hpinned⟩
    · next hstop =>
      obtain rfl := Except.ok.inj h
      exact ⟨.refl m, by simpa using fun hp => hstop (.inl hp)⟩

theorem add_distance_mod {c j n : Nat} (hc : c < n) (hj : j < n) :
    (c + (j + n - c) % n) % n = j := by
  rw [Nat.add_mod_mod, show c + (j + n - c) = j + n by omega, Nat.add_mod_right, Nat.mod_eq_of_lt
    hj]

def ahead (m : Frames) (d : Nat) : PageMapEntry := m.pageMap ((m.clockPtr + d) % framePages)

def Passed (m : Frames) (k i : Nat) : Prop := ∃ c < k, i = (m.clockPtr + c) % framePages

theorem passed_ahead (m : Frames) (k : Nat) :
    m.Passed k ((m.clockPtr + k) % framePages) ↔ framePages ≤ k := by
  simp only [Passed, framePages]
  constructor
  · rintro ⟨c, hc, heq⟩
    omega
  · intro hle
    exact ⟨k - 2048, by omega, by omega⟩

theorem clockPtr_turns (hlt : m.clockPtr < framePages) (k : Nat) :
    (turn^[k] m).clockPtr = (m.clockPtr + k) % framePages := by
  induction k with
  | zero => exact (Nat.mod_eq_of_lt hlt).symm
  | succ k ih =>
    rw [Function.iterate_succ_apply', ← Nat.add_assoc, ← Nat.mod_add_mod, ← ih]
    rfl

theorem turned_turns (m : Frames) (k : Nat) : Turned m (turn^[k] m) := by
  induction k with
  | zero => exact .refl m
  | succ k ih =>
    rw [Function.iterate_succ_apply']
    exact ih.trans (turn_turned _)

theorem r_turns (hlt : m.clockPtr < framePages) (k i : Nat) :
    ((turn^[k] m).pageMap i).r = true ↔ (m.pageMap i).r = true ∧ ¬ m.Passed k i := by
  induction k with
  | zero => simp [Passed]
  | succ k ih =>
    have hpassed : m.Passed (k + 1) i ↔ m.Passed k i ∨ i = (m.clockPtr + k) % framePages :=
      Nat.exists_lt_succ_right
    rw [Function.iterate_succ_apply', hpassed, ← clockPtr_turns hlt]
    by_cases hi : i = (turn^[k] m).clockPtr
    · simp [turn, setEntry, hi]
    · simp only [turn, setEntry, Function.update_of_ne hi, ih, hi, or_false]

theorem stops_iff (hlt : m.clockPtr < framePages) (k : Nat) :
    ¬ (((turn^[k] m).pageMap (turn^[k] m).clockPtr).pinned ∨
    ((turn^[k] m).pageMap (turn^[k] m).clockPtr).r) ↔
      (m.ahead k).pinned = false ∧ ((m.ahead k).r = false ∨ framePages ≤ k) := by
  rw [not_or, r_turns hlt, (turned_turns m k).pageMap, clockPtr_turns hlt, passed_ahead]
  simp only [ahead, Bool.not_eq_true, not_and_or, not_not]

theorem clock_turns {k : Nat} (n : Nat)
    (h : ∀ c < k, ((turn^[c] m).pageMap (turn^[c] m).clockPtr).pinned ∨
    ((turn^[c] m).pageMap (turn^[c] m).clockPtr).r) :
    clock (n + k) m = clock n (turn^[k] m) := by
  induction k generalizing m with
  | zero => rfl
  | succ k ih =>
    have hfirst : (m.pageMap m.clockPtr).pinned ∨ (m.pageMap m.clockPtr).r := h 0 (Nat.succ_pos k)
    rw [← Nat.add_assoc, clock_succ, if_pos hfirst, Function.iterate_succ_apply]
    exact ih fun c hc => h (c + 1) (Nat.succ_lt_succ hc)

/-- The frame that is to go: the first one ahead that is neither pinned nor referenced, or if there
is none the first one that is not pinned, a round later. -/
def Victim (m : Frames) (k : Nat) : Prop :=
  (k < framePages ∧ (m.ahead k).pinned = false ∧ (m.ahead k).r = false ∧
    ∀ c < k, (m.ahead c).pinned = true ∨ (m.ahead c).r = true) ∨
  ((∀ c < framePages, (m.ahead c).pinned = true ∨ (m.ahead c).r = true) ∧
    ∃ d < framePages, k = framePages + d ∧ (m.ahead d).pinned = false ∧
      ∀ c < d, (m.ahead c).pinned = true)

theorem ahead_add (m : Frames) (d : Nat) : m.ahead (framePages + d) = m.ahead d := by
  rw [ahead, ahead, Nat.add_left_comm, Nat.add_mod_left]

theorem clock_eq_turns {j : Nat} (hlt : m.clockPtr < framePages) (hj : j < framePages)
    (hpinned : (m.pageMap j).pinned = false) :
    ∃ k, m.Victim k ∧ m.clock (2 * framePages + 1) = .ok (turn^[k] m) := by
  let Stop (k : Nat) : Prop := (m.ahead k).pinned = false ∧ ((m.ahead k).r = false ∨ framePages ≤ k)
  let d := (j + framePages - m.clockPtr) % framePages
  have hd : d < framePages := Nat.mod_lt _ (by decide)
  have hstop : Stop (framePages + d) := by
    refine ⟨?_, .inr (Nat.le_add_right _ _)⟩
    rw [ahead_add, ahead, add_distance_mod hlt hj, hpinned]
  have hex : ∃ k, Stop k := ⟨_, hstop⟩
  classical
  let k := Nat.find hex
  obtain ⟨hfree, hclear⟩ : Stop k := Nat.find_spec hex
  have hbefore : ∀ c < k, ¬ Stop c := fun c hc => Nat.find_min hex hc
  have hle : k ≤ framePages + d := Nat.find_min' hex hstop
  have hgoes : ∀ c < k, (m.ahead c).pinned = true ∨ (m.ahead c).r = true ∧ c < framePages := by
    intro c hc
    have := hbefore c hc
    simp only [Stop, not_and_or, Bool.not_eq_false, not_or, Nat.not_le] at this
    exact this
  refine ⟨k, ?_, ?_⟩
  · by_cases hround : k < framePages
    · refine .inl ⟨hround, hfree, hclear.resolve_right (Nat.not_le.mpr hround), fun c hc => ?_⟩
      exact (hgoes c hc).imp_right And.left
    · obtain ⟨d', hd'⟩ := Nat.exists_eq_add_of_le (Nat.not_lt.mp hround)
      refine .inr ⟨fun c hc => (hgoes c (by omega)).imp_right And.left, d', by omega, hd', ?_,
        fun c hc => ?_⟩
      · rw [← ahead_add, ← hd']
        exact hfree
      · rw [← ahead_add]
        exact (hgoes (framePages + c) (by omega)).resolve_right fun h => by omega
  · obtain ⟨n, hn⟩ := Nat.exists_eq_add_of_lt (show k < 2 * framePages + 1 by omega)
    rw [hn, show k + n + 1 = n + 1 + k by omega, clock_turns (n + 1) fun c hc => ?_, clock_succ,
      if_neg ((stops_iff hlt k).mpr ⟨hfree, hclear⟩)]
    by_contra hstay
    exact hbefore c hc ((stops_iff hlt c).mp hstay)

theorem clock_stops {j : Nat} (hlt : m.clockPtr < framePages) (hj : j < framePages)
    (hpinned : (m.pageMap j).pinned = false) :
    ∃ m', m.clock (2 * framePages + 1) = .ok m' ∧ m'.clockPtr < framePages := by
  obtain ⟨k, -, hrun⟩ := clock_eq_turns hlt hj hpinned
  refine ⟨_, hrun, ?_⟩
  rw [clockPtr_turns hlt]
  exact Nat.mod_lt _ (by decide)

/-- With no frame free, `page_alloc` moves the clock hand to the victim. The frames that it passes
on the way lose their reference bit, and nothing else changes. -/
theorem page_alloc_victim (hlt : m.clockPtr < framePages)
    (havail : ∀ i < framePages, (m.pageMap i).avail = false)
    (hfree : ∃ j < framePages, (m.pageMap j).pinned = false) (e : Env) (va : Word)
    (pinned swapinValid : Bool) :
    m.pageAlloc e va pinned swapinValid = m.evict e va pinned swapinValid ∧
      ∃ k m', m.Victim k ∧ m.clock (2 * framePages + 1) = .ok m' ∧ m'.clockPtr = (m.clockPtr + k) %
      framePages ∧
        (∀ i, (m'.pageMap i).r = true ↔ (m.pageMap i).r = true ∧ ¬ m.Passed k i) ∧ Turned m m' := by
  obtain ⟨j, hj, hpinned⟩ := hfree
  obtain ⟨k, hvictim, hrun⟩ := clock_eq_turns hlt hj hpinned
  have hnone : m.freeFrame = none := by
    rw [freeFrame, List.find?_eq_none]
    intro i hi
    rw [havail i (by have := List.mem_range'_1.mp hi; omega)]
    exact Bool.false_ne_true
  refine ⟨?_, k, _, hvictim, hrun, clockPtr_turns hlt k, r_turns hlt k, turned_turns m k⟩
  rw [pageAlloc, hnone]

theorem page_alloc_victim_five : ∃ m m' : Frames, m.clockPtr < framePages ∧
    (∀ i < framePages, (m.pageMap i).avail = false) ∧
    (∃ j < framePages, (m.pageMap j).pinned = false) ∧
    m.clock (2 * framePages + 1) = .ok m' ∧ m'.clockPtr = 5 := by
  let m : Frames :=
    { pageMap := fun i => { initEntry i with avail := false, pinned := decide (i ≠ 5), r := true }
      ram := fun _ => 0#32, pageTableBasePtr := 0#32, freePageFrameNum := 0, pageAllocPtr :=
        0, clockPtr := 0
      swapPageAllocPtr := 0 }
  have hlt : m.clockPtr < framePages := by decide
  have havail : ∀ i < framePages, (m.pageMap i).avail = false := fun _ _ => rfl
  have hfree : ∃ j < framePages, (m.pageMap j).pinned = false := ⟨5, by decide, rfl⟩
  obtain ⟨-, k, m', hvictim, hrun, hptr, -⟩ :=
    page_alloc_victim hlt havail hfree ⟨0#32, 0#32, 0#32, 0#32, 0#32⟩ 0#32 false false
  refine ⟨m, m', hlt, havail, hfree, hrun, ?_⟩
  have hat : ∀ d < framePages, (m.ahead d).pinned = false → d = 5 := by
    intro d hd hpinned
    have hd' : ¬ (0 + d) % framePages ≠ 5 := of_decide_eq_false hpinned
    rw [Nat.zero_add, Nat.mod_eq_of_lt hd] at hd'
    omega
  rw [hptr]
  rcases hvictim with ⟨-, -, hclear, -⟩ | ⟨-, d, hd, rfl, hpinned, -⟩
  · cases hclear
  · rw [hat d hd hpinned]
    exact show (0 + (framePages + 5)) % framePages = 5 by decide

theorem getSwapInIndex_free {swapinValid : Bool} {i : Nat} (h : m.getSwapInIndex e swapinValid = .ok
    (i, m')) :
    m'.freePageFrameNum = m.freePageFrameNum := by
  rw [getSwapInIndex] at h
  split at h
  · rw [(Prod.mk.inj (Except.ok.inj h)).2]
  · obtain ⟨j, -, hj⟩ := exists_of_bind_ok h
    rw [← (Prod.mk.inj (Except.ok.inj hj)).2]

theorem evict_free {pinned swapinValid : Bool} {i : Word} (h : m.evict e va pinned swapinValid = .ok
    (i, m')) :
    m'.freePageFrameNum = m.freePageFrameNum := by
  obtain ⟨m₁, hclock, h⟩ := exists_of_bind_ok h
  obtain ⟨⟨unit, m₂⟩, hunit, h⟩ := exists_of_bind_ok h
  have hfree : m₂.freePageFrameNum = m.freePageFrameNum :=
    (getSwapInIndex_free hunit).trans (clock_turned hclock).1.free
  simp only at h
  split at h
  · cases h
  · rw [← (Prod.mk.inj (Except.ok.inj h)).2]
    simp only [setEntry]
    split
    · exact hfree
    · simp only [swapPages, setEntry, hfree]

theorem newPage_free {pfn : Word} (h : m.newPage e va = .ok (pfn, m'))
    (hfree : m.freePageFrameNum = 0) :
    m'.freePageFrameNum = 0 := by
  obtain ⟨⟨index, m₁⟩, halloc, h⟩ := exists_of_bind_ok h
  obtain ⟨paddr, -, h⟩ := exists_of_bind_ok h
  rw [← (Prod.mk.inj (Except.ok.inj h)).2]
  simp only [setPageTable]
  rw [pageAlloc] at halloc
  split at halloc
  · rw [← (Prod.mk.inj (Except.ok.inj halloc)).2, freePageFrameNum_claim, hfree]
  · rw [evict_free halloc, hfree]

theorem Ledger.evict (h : m.Ledger) (e : Env) (va : Word) (hclock : m.clockPtr < framePages)
    (hswap : m.swapPageAllocPtr = 0) :
    ∃ v m', m.evict e va false false = .ok (e.allocRet, m') ∧ pageTablePages ≤ v ∧ v < framePages ∧
      m'.ram = m.ram ∧ m'.pageTableBasePtr = m.pageTableBasePtr ∧
      (m'.pageMap framePages).paddr = pageFramePaddr (BitVec.ofNat 32 v) := by
  have hpinned : (m.pageMap pageTablePages).pinned = false := by
    rw [h.pinned _ (by decide), decide_eq_false_iff_not]
    exact Nat.lt_irrefl _
  obtain ⟨m₁, hrun, hlt⟩ := clock_stops hclock (by decide) hpinned
  obtain ⟨hturned, hstop⟩ := clock_turned hrun
  have hunit : (m₁.pageMap (m₁.swapPageAllocPtr + framePages)).avail = true := by
    rw [hturned.swap, hswap, Nat.zero_add, hturned.pageMap]
    exact h.unit
  have hfree : m₁.getSwapInIndex e false = .ok (0, m₁) := by
    have hsearch : m₁.swapSearch (sdSwapUnitNum + 1) m₁.swapPageAllocPtr = .ok
        m₁.swapPageAllocPtr := by
      rw [sdSwapUnitNum, swapSearch, if_neg (by rw [hunit]; simp)]
    rw [getSwapInIndex, if_neg Bool.false_ne_true, getSwapFreeIndex, hsearch, hturned.swap, hswap]
    simp only [bind, Except.bind, pure, Except.pure, ← hturned.swap.trans hswap]
  have hlow : pageTablePages ≤ m₁.clockPtr := by
    rw [hturned.pageMap, h.pinned _ hlt, decide_eq_false_iff_not] at hstop
    omega
  have hevict : m.evict e va false false = .ok (e.allocRet,
      ((m₁.swapPages e va false m₁.clockPtr framePages).setEntry m₁.clockPtr
        ({ · with swaped := true })).setEntry
        framePages ({ · with swaped := false })) := by
    rw [Frames.evict, hrun]
    simp only [bind, Except.bind, hfree, Nat.zero_add]
    rw [if_neg (by decide), if_neg Bool.false_ne_true]
    rfl
  refine ⟨_, _, hevict, hlow, hlt, hturned.ram, hturned.base, ?_⟩
  simp only [swapPages, setEntry, Function.update_self, Function.update_of_ne
    (show framePages ≠ m₁.clockPtr by omega)]

theorem Ledger.newPage_evict (h : m.Ledger) (va : Word) (hfree : m.freePageFrameNum = 0)
    (hclock : m.clockPtr < framePages)
    (hswap : m.swapPageAllocPtr = 0) (hret : e.allocRet = BitVec.ofNat 32 framePages) :
    ∃ v m', m.newPage e va = .ok (framePfn v, m') ∧ pageTablePages ≤ v ∧ v < framePages ∧ ∀ n,
      m'.pageTable n = if n = (vpnOf va).toNat then pteWord (framePfn v) else m.pageTable n := by
  obtain ⟨v, m₁, hevict, hlow, hlt, hram, hbase, hpaddr⟩ := h.evict e va hclock hswap
  have hindex : (BitVec.ofNat 32 framePages).toNat = framePages := by decide
  refine ⟨v, m₁.setPageTable (vpnOf va).toNat (pteWord (framePfn v)), ?_, hlow, hlt, fun n => ?_⟩
  · rw [Frames.newPage, Frames.pageAlloc, h.toCounted.freeFrame_none hfree]
    simp only [hevict, bind, Except.bind, hret, paddrAt, hindex]
    rw [if_pos (by decide), hpaddr]
    rfl
  · simp only [pageTable, setPageTable, hbase, hram]
    by_cases hn : n = (vpnOf va).toNat
    · rw [if_pos hn, hn, Function.update_self]
    · rw [if_neg hn, Function.update_of_ne (by omega)]

end Frames

end Ucas.Mm

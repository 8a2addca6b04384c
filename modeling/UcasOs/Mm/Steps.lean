import UcasOs.Mm.Ledger

/-! Runs of TLB exceptions. The hardware raises one at a user address that no valid entry
translates, and `handle_tlb_exception_helper` then leaves everything as it is, refills an entry, or
completes one. -/

namespace Ucas.Mm
open Ucas.Lib

theorem toNat_vpn2Of (a : Word) : (vpn2Of a).toNat = a.toNat / 8192 := by
  rw [vpn2Of, Word.and_shiftRight (by decide), Word.toNat_shiftRight]
  rfl

theorem isOdd_iff (a : Word) : isOdd a = true ↔ a.toNat / 4096 % 2 = 1 := by
  have hbit : ((a &&& 0x1000#32) >>> 12).toNat = a.toNat / 4096 % 2 := by
    rw [BitVec.ushiftRight_and_distrib, show 0x1000#32 >>> 12 = 1#32 by decide, BitVec.toNat_and,
      Word.toNat_shiftRight, BitVec.toNat_ofNat]
    exact Nat.and_one_is_mod _
  rw [isOdd, decide_eq_true_iff, ← hbit, ← BitVec.toNat_inj]
  rfl

theorem toNat_vpnOf_eq (a : Word) : (vpnOf a).toNat = 2 * (vpn2Of a).toNat + (isOdd a).toNat := by
  have hodd := isOdd_iff a
  rw [toNat_vpnOf, toNat_vpn2Of]
  cases h : isOdd a with
  | false =>
    rw [h] at hodd
    simp only [Bool.false_eq_true, false_iff] at hodd
    simp only [Bool.toNat_false]
    omega
  | true =>
    rw [h] at hodd
    simp only [true_iff] at hodd
    simp only [Bool.toNat_true]
    omega

theorem asidOf_lt (a : Word) : (asidOf a).toNat < 2 ^ 13 := by
  rw [asidOf, BitVec.toNat_and]
  exact Nat.lt_of_le_of_lt Nat.and_le_right (by decide)

theorem loWord_eq (pfn : Word) : loWord pfn = (pfn <<< 6) ||| 0x16#32 := by
  rw [loWord, BitVec.or_assoc, BitVec.or_assoc]
  rfl

theorem valid_loWord (pfn : Word) : Valid (loWord pfn) := by
  rw [Valid, loWord_eq]
  exact Word.or_and_of_and_eq (by decide)

theorem pfnOfLo_loWord {pfn : Word} (h : pfn.toNat < 2 ^ 26) : pfnOfLo (loWord pfn) = pfn := by
  rw [pfnOfLo, Word.and_shiftRight (by decide), loWord_eq]
  exact Word.shiftLeft_or_shiftRight (by decide) h (by decide)

def tagWord (pid entryHi : Word) : Word := ((entryHi &&& 0xffffe000#32) ||| pid) &&& 0xffffe0ff#32

theorem asidOf_tagWord (pid entryHi : Word) : asidOf (tagWord pid entryHi) = asidOf pid := by
  rw [asidOf, tagWord, Word.and_and_of_and_eq (by decide), Word.and_or_and (by decide), asidOf]

theorem vpn2Of_tagWord {pid : Word} (h : pid.toNat < 2 ^ 13) (entryHi : Word) :
    vpn2Of (tagWord pid entryHi) = vpn2Of entryHi := by
  simp only [vpn2Of, Word.and_shiftRight
    (by decide : 0xffffe000#32 >>> 13 = BitVec.allOnes 32 >>> 13)]
  rw [tagWord, Word.and_shiftRight (by decide), Word.and_or_shiftRight (by decide) h]

namespace Tlb
variable {t t' : Tlb} {va pid : Word}

theorem vpn2Of_raise (t : Tlb) (va : Word) : vpn2Of (t.raise va).cp0.entryHi = vpn2Of va := by
  simp only [raise, vpn2Of, Word.and_shiftRight
    (by decide : 0xffffe000#32 >>> 13 = BitVec.allOnes 32 >>> 13)]
  exact Word.and_or_shiftRight (by decide) (asidOf_lt _)

theorem asidOf_raise (t : Tlb) (va : Word) :
    asidOf (t.raise va).cp0.entryHi = asidOf t.cp0.entryHi := by
  simp only [raise, asidOf]
  rw [Word.and_or_and (by decide), Word.and_and_of_and_eq (by decide)]

def CoveredBy (t : Tlb) (va : Word) (i : Nat) : Prop :=
  i < tlbEntriesNum ∧ (t.entries i).Covers (vpn2Of va) (asidOf t.cp0.entryHi)

def Hits (t : Tlb) (va : Word) : Prop := ∃ i, t.CoveredBy va i

/-- An access to the user address `va` is not translated. With two entries for one page the hardware
may take either of them. -/
def Raises (t : Tlb) (va : Word) : Prop :=
  va.toNat < 0x80000000 ∧ (¬ t.Hits va ∨ ∃ i, t.CoveredBy va i ∧
    ¬ Valid ((t.entries i).lo (isOdd va)))

structure Written (pid entryHi : Word) (odd : Bool) (lo : Bool → Word) (slot : Nat) (t t' : Tlb) :
    Prop where
  entries : t'.entries = Function.update t.entries slot
    ⟨vpn2Of (tagWord pid entryHi), asidOf (tagWord pid entryHi), lo⟩
  table : t'.tlbTable = Function.update t.tlbTable slot
    ⟨BitVec.ofNat 32 slot, false, vpn2Of (tagWord pid entryHi),
      Function.update (t.tlbTable slot).pfn odd (pfnOfLo (lo odd)), pid⟩
  entryHi : t'.cp0.entryHi = tagWord pid entryHi

theorem toNat_ofNat_slot {slot : Nat} (h : slot < tlbEntriesNum) :
    (BitVec.ofNat 32 slot).toNat = slot := by
  unfold tlbEntriesNum at h
  rw [BitVec.toNat_ofNat, Nat.mod_eq_of_lt (by omega)]

def nextSlot (t : Tlb) : Nat := (t.tlbEntryIndexPtr + 1) % tlbEntriesNum

theorem nextSlot_lt (t : Tlb) : t.nextSlot < tlbEntriesNum := Nat.mod_lt _ (by decide)

theorem refill_written (t : Tlb) (pid entryHi : Word) (odd : Bool) (pfn : Word) :
    Written pid entryHi odd (Function.update (fun _ => 0#32) odd (loWord pfn)) t.nextSlot t
      (t.refill pid entryHi odd pfn) ∧ (t.refill pid entryHi odd pfn).tlbEntryIndexPtr =
      t.nextSlot := by
  have hslot := toNat_ofNat_slot t.nextSlot_lt
  have hlo : Function.update (Function.update (Function.update t.cp0.entryLo false 0#32) true 0#32)
    odd (loWord pfn) =
      Function.update (fun _ => 0#32) odd (loWord pfn) := by
    congr 1
    funext b
    cases b <;> simp
  refine ⟨⟨?_, ?_, ?_⟩, ?_⟩
  all_goals simp only [nextSlot] at hslot ⊢
  all_goals simp only [refill, setIndex, tlbFlushNoCheck, setEntryHi, setEntryLo, tlbwi, record,
    setTable, hslot, hlo,
    Function.update_idem, Function.update_self, tagWord]

theorem complete_written (t : Tlb) (pid entryHi : Word) (odd : Bool) (pfn : Word) {slot : Nat}
    (h : slot < tlbEntriesNum) :
    Written pid entryHi odd (Function.update (fun _ => loWord ((t.tlbTable slot).pfn !odd)) odd
    (loWord pfn)) slot t
      (t.complete pid entryHi odd pfn slot) ∧
      (t.complete pid entryHi odd pfn slot).tlbEntryIndexPtr = t.tlbEntryIndexPtr := by
  have hslot := toNat_ofNat_slot h
  have hlo : Function.update (Function.update t.cp0.entryLo odd (loWord pfn)) (!odd)
      (loWord ((t.tlbTable slot).pfn !odd)) =
      Function.update (fun _ => loWord ((t.tlbTable slot).pfn !odd)) odd (loWord pfn) := by
    funext b
    cases b <;> cases odd <;> simp
  refine ⟨⟨?_, ?_, ?_⟩, ?_⟩
  all_goals simp only [complete, setIndex, setEntryHi, setEntryLo, tlbwi, record, setTable, hslot,
    hlo,
    Function.update_self, tagWord]

theorem checkTlbWrongAccess_eq_none : (t.raise va).checkTlbWrongAccess pid = none ↔
    ∀ i < tlbEntriesNum, (t.tlbTable i).vpn2 = vpn2Of va → (t.tlbTable i).pid = pid := by
  rw [checkTlbWrongAccess, Option.map_eq_none_iff, List.find?_eq_none, vpn2Of_raise]
  simp only [List.mem_range, decide_eq_true_eq, not_and, not_not]
  rfl

def invalidSlot (e : Env) (va : Word) (t : Tlb) : Nat := ((t.raise va).getTlbInvalidIndex e).toNat

theorem invalidSlot_spec {e : Env}
    (h : ∃ i < tlbEntriesNum, (t.tlbTable i).vpn2 = vpn2Of va ∧ (t.tlbTable i).pid = e.pid) :
    t.invalidSlot e va < tlbEntriesNum ∧ (t.tlbTable (t.invalidSlot e va)).vpn2 = vpn2Of va ∧
      (t.tlbTable (t.invalidSlot e va)).pid = e.pid := by
  rw [invalidSlot, getTlbInvalidIndex, vpn2Of_raise]
  split
  · next j hj =>
    have hfound := List.find?_some hj
    have hlt := List.mem_range.mp (List.mem_of_find?_eq_some hj)
    rw [toNat_ofNat_slot hlt]
    exact ⟨hlt, of_decide_eq_true hfound⟩
  · next hnone =>
    obtain ⟨i, hi, hmatch⟩ := h
    exact absurd (decide_eq_true hmatch) (List.find?_eq_none.mp hnone i (List.mem_range.mpr hi))

theorem tlbp_raise (t : Tlb) (va : Word) :
    ∃ index : Word, (t.raise va).tlbp = (t.raise va).setIndex index ∧
    ((index &&& 0x80000000#32) >>> 31 = 1#32 ↔ ¬ t.Hits va) := by
  rw [tlbp, vpn2Of_raise, asidOf_raise]
  split
  · next j hj =>
    have hlt := List.mem_range.mp (List.mem_of_find?_eq_some hj)
    have hfound := List.find?_some hj
    have hhit : t.Hits va := ⟨j, hlt, of_decide_eq_true hfound⟩
    have hsign : (BitVec.ofNat 32 j &&& 0x80000000#32) >>> 31 = 0#32 := by
      apply Word.shiftRight_eq_zero
      rw [BitVec.toNat_and, toNat_ofNat_slot hlt]
      exact Nat.lt_of_le_of_lt Nat.and_le_left (Nat.lt_trans hlt (by decide))
    refine ⟨_, rfl, ?_⟩
    rw [hsign]
    exact ⟨fun h => absurd h (by decide), fun h => absurd hhit h⟩
  · next hnone =>
    refine ⟨_, rfl, fun _ => ?_, fun _ => by decide⟩
    rintro ⟨i, hi, hcovers⟩
    exact absurd (decide_eq_true hcovers) (List.find?_eq_none.mp hnone i (List.mem_range.mpr hi))

end Tlb

namespace Machine
variable {s s' : Machine} {e : Env} {va : Word}

def exception (e : Env) (va : Word) (s : Machine) : Except Fault Machine :=
  { s with tlb := s.tlb.raise va }.handleTlbExceptionHelper e

def pte (s : Machine) (va : Word) : Word := s.frames.pageTable (vpnOf va).toNat

structure Quiet (s s' : Machine) : Prop where
  frames : s'.frames = s.frames
  entries : s'.tlb.entries = s.tlb.entries
  table : s'.tlb.tlbTable = s.tlb.tlbTable
  ptr : s'.tlb.tlbEntryIndexPtr = s.tlb.tlbEntryIndexPtr
  asid : asidOf s'.tlb.cp0.entryHi = asidOf s.tlb.cp0.entryHi

structure Refilled (e : Env) (va pfn : Word) (s s' : Machine) : Prop where
  written : Tlb.Written e.pid (s.tlb.raise va).cp0.entryHi (isOdd va)
    (Function.update (fun _ => 0#32) (isOdd va) (loWord pfn)) s.tlb.nextSlot s.tlb s'.tlb
  ptr : s'.tlb.tlbEntryIndexPtr = s.tlb.nextSlot

structure Completed (e : Env) (va pfn : Word) (slot : Nat) (s s' : Machine) : Prop where
  slot_lt : slot < tlbEntriesNum
  written : Tlb.Written e.pid (s.tlb.raise va).cp0.entryHi (isOdd va)
    (Function.update (fun _ => loWord ((s.tlb.tlbTable slot).pfn !isOdd va)) (isOdd va)
      (loWord pfn)) slot
    s.tlb s'.tlb
  ptr : s'.tlb.tlbEntryIndexPtr = s.tlb.tlbEntryIndexPtr

inductive Handled (e : Env) (va : Word) (s s' : Machine) : Prop
  | denied (miss : ¬ s.tlb.Hits va) (wrong : (s.tlb.raise va).checkTlbWrongAccess e.pid ≠ none)
    (quiet : Quiet s s')
  | reused (miss : ¬ s.tlb.Hits va) (right : (s.tlb.raise va).checkTlbWrongAccess e.pid = none)
      (valid : Valid (s.pte va)) (frames : s'.frames = s.frames) (refilled : Refilled e va
      (vpnOf (s.pte va)) s s')
  | fresh (miss : ¬ s.tlb.Hits va) (right : (s.tlb.raise va).checkTlbWrongAccess e.pid = none)
      (empty : s.pte va = 0#32) (free : s.frames.freePageFrameNum ≠ 0) (pfn : Word)
      (new : s.frames.newPage e va = .ok (pfn, s'.frames)) (refilled : Refilled e va pfn s s')
  | stuck (miss : ¬ s.tlb.Hits va) (invalid : ¬ Valid (s.pte va))
      (full : s.pte va = 0#32 → s.frames.freePageFrameNum = 0) (quiet : Quiet s s')
  | paired (hit : s.tlb.Hits va) (empty : s.pte va = 0#32) (pfn : Word)
      (new : s.frames.newPage e va = .ok (pfn, s'.frames))
      (completed : Completed e va pfn (s.tlb.invalidSlot e va) s s')
  | ignored (hit : s.tlb.Hits va) (mapped : s.pte va ≠ 0#32) (quiet : Quiet s s')

structure Probed (va : Word) (s r : Machine) : Prop where
  frames : r.frames = s.frames
  tlb : ∃ index, r.tlb = (s.tlb.raise va).setIndex index

theorem Probed.quiet {r : Machine} (h : Probed va s r) (hframes : s'.frames = s.frames)
    (htlb : s'.tlb = r.tlb) :
    Quiet s s' := by
  obtain ⟨index, hr⟩ := h.tlb
  rw [hr] at htlb
  refine ⟨hframes, ?_, ?_, ?_, ?_⟩
  · simp only [htlb, Tlb.setIndex, Tlb.raise]
  · simp only [htlb, Tlb.setIndex, Tlb.raise]
  · simp only [htlb, Tlb.setIndex, Tlb.raise]
  · rw [← s.tlb.asidOf_raise va, htlb]
    simp only [Tlb.setIndex]

theorem Probed.refilled {r : Machine} (h : Probed va s r) {pfn : Word}
    (htlb : s'.tlb = r.tlb.refill e.pid (s.tlb.raise va).cp0.entryHi (isOdd va) pfn) :
    Refilled e va pfn s s' := by
  obtain ⟨index, hr⟩ := h.tlb
  obtain ⟨hwritten, hptr⟩ := r.tlb.refill_written e.pid (s.tlb.raise va).cp0.entryHi (isOdd va) pfn
  rw [← htlb] at hwritten hptr
  have hnext : r.tlb.nextSlot = s.tlb.nextSlot := by
    simp only [hr, Tlb.nextSlot, Tlb.setIndex, Tlb.raise]
  rw [hnext] at hwritten hptr
  refine ⟨⟨?_, ?_, hwritten.entryHi⟩, hptr⟩
  · simp only [hwritten.entries, hr, Tlb.setIndex, Tlb.raise]
  · simp only [hwritten.table, hr, Tlb.setIndex, Tlb.raise]

theorem Probed.completed {r : Machine} (h : Probed va s r) {pfn : Word} {slot : Nat}
    (hslot : slot < tlbEntriesNum)
    (htlb : s'.tlb = r.tlb.complete e.pid (s.tlb.raise va).cp0.entryHi (isOdd va) pfn slot) :
    Completed e va pfn slot s s' := by
  obtain ⟨index, hr⟩ := h.tlb
  obtain ⟨hwritten, hptr⟩ := r.tlb.complete_written e.pid (s.tlb.raise va).cp0.entryHi (isOdd va)
    pfn hslot
  rw [← htlb] at hwritten hptr
  refine ⟨hslot, ⟨?_, ?_, hwritten.entryHi⟩, ?_⟩
  · simp only [hwritten.entries, hr, Tlb.setIndex, Tlb.raise]
  · simp only [hwritten.table, hr, Tlb.setIndex, Tlb.raise]
  · simp only [hptr, hr, Tlb.setIndex, Tlb.raise]

theorem Probed.handleRefill {r : Machine} (hp : Probed va s r) (miss : ¬ s.tlb.Hits va)
    (h : r.handleRefill e = .ok s') : Handled e va s s' := by
  obtain ⟨index, hr⟩ := hp.tlb
  have hbad : r.tlb.cp0.badVAddr = va := by simp only [hr, Tlb.setIndex, Tlb.raise]
  have hhi : r.tlb.cp0.entryHi = (s.tlb.raise va).cp0.entryHi := by simp only [hr, Tlb.setIndex]
  have hcheck : r.tlb.checkTlbWrongAccess e.pid = (s.tlb.raise va).checkTlbWrongAccess e.pid := by
    simp only [hr, Tlb.checkTlbWrongAccess, Tlb.setIndex]
  simp only [Machine.handleRefill, hbad, hhi, hcheck, hp.frames] at h
  split at h
  · next wrong hwrong =>
    obtain rfl := Except.ok.inj h
    exact .denied miss (by rw [hwrong]; exact Option.some_ne_none _) (hp.quiet rfl rfl)
  · next hright =>
    split at h
    · next hpte =>
      obtain rfl := Except.ok.inj h
      exact .reused miss hright hpte.2 rfl (hp.refilled rfl)
    · next hpte =>
      have hinvalid : ¬ Valid (s.pte va) := fun hv => hpte ⟨hv.ne_zero, hv⟩
      split at h
      · next hempty =>
        obtain ⟨⟨pfn, frames⟩, hnew, hok⟩ := exists_of_bind_ok h
        obtain rfl := Except.ok.inj hok
        exact .fresh miss hright hempty.1 hempty.2 pfn hnew (hp.refilled rfl)
      · next hfull =>
        obtain rfl := Except.ok.inj h
        exact .stuck miss hinvalid (fun h0 => not_not.mp fun hfree => hfull ⟨h0, hfree⟩)
          (hp.quiet hp.frames rfl)

theorem Probed.handleInvalid {r : Machine} (hp : Probed va s r) (hit : s.tlb.Hits va)
    (h : r.handleInvalid e = .ok s') : Handled e va s s' := by
  obtain ⟨index, hr⟩ := hp.tlb
  have hbad : r.tlb.cp0.badVAddr = va := by simp only [hr, Tlb.setIndex, Tlb.raise]
  have hhi : r.tlb.cp0.entryHi = (s.tlb.raise va).cp0.entryHi := by simp only [hr, Tlb.setIndex]
  have hslot : (r.tlb.getTlbInvalidIndex e).toNat = s.tlb.invalidSlot e va := by
    simp only [hr, Tlb.invalidSlot, Tlb.getTlbInvalidIndex, Tlb.setIndex]
  simp only [Machine.handleInvalid, hbad, hhi, hp.frames] at h
  split at h
  · next hempty =>
    obtain ⟨⟨pfn, frames⟩, hnew, hrest⟩ := exists_of_bind_ok h
    simp only [hslot] at hrest
    split at hrest
    · cases hrest
    · next hrange =>
      obtain rfl := Except.ok.inj hrest
      exact .paired hit hempty pfn hnew (hp.completed (Nat.lt_of_not_le hrange) rfl)
  · next hmapped =>
    obtain rfl := Except.ok.inj h
    exact .ignored hit hmapped (hp.quiet hp.frames rfl)

theorem handled_of_exception (h : s.exception e va = .ok s') : Handled e va s s' := by
  obtain ⟨index, htlbp, hmiss⟩ := s.tlb.tlbp_raise va
  simp only [exception, handleTlbExceptionHelper, htlbp] at h
  split at h
  · next hindex =>
    refine Probed.handleRefill ?_ (hmiss.mp hindex) h
    exact ⟨rfl, index, rfl⟩
  · next hindex =>
    refine Probed.handleInvalid ?_ (not_not.mp fun hm => hindex (hmiss.mpr hm)) h
    exact ⟨rfl, index, rfl⟩

theorem exists_exception_eq_ok (s : Machine) (e : Env) (va : Word)
    (hnew : s.pte va = 0#32 → s.tlb.Hits va ∨ s.frames.freePageFrameNum ≠ 0 →
      ∃ r, s.frames.newPage e va = .ok r)
    (hslot : s.tlb.Hits va → s.pte va = 0#32 → s.tlb.invalidSlot e va < tlbEntriesNum) :
    ∃ s', s.exception e va = .ok s' := by
  obtain ⟨index, htlbp, hmiss⟩ := s.tlb.tlbp_raise va
  have hbad : ((s.tlb.raise va).setIndex index).cp0.badVAddr = va := by
    simp only [Tlb.setIndex, Tlb.raise]
  simp only [exception, handleTlbExceptionHelper, htlbp]
  have hindex : ((s.tlb.raise va).setIndex index).cp0.index = index := by simp only [Tlb.setIndex]
  rw [hindex]
  by_cases hhit : s.tlb.Hits va
  · rw [if_neg (fun h => hmiss.mp h hhit)]
    simp only [Machine.handleInvalid, hbad]
    by_cases hempty : s.frames.pageTable (vpnOf va).toNat = 0#32
    · obtain ⟨r, hr⟩ := hnew hempty (.inl hhit)
      have hlt := hslot hhit hempty
      have hinvalid : (((s.tlb.raise va).setIndex index).getTlbInvalidIndex e).toNat =
        s.tlb.invalidSlot e va := rfl
      rw [if_pos hempty, hr]
      simp only [bind, Except.bind, hinvalid, if_neg (Nat.not_le.mpr hlt)]
      exact ⟨_, rfl⟩
    · rw [if_neg hempty]
      exact ⟨_, rfl⟩
  · rw [if_pos (hmiss.mpr hhit)]
    simp only [Machine.handleRefill, hbad]
    split
    · exact ⟨_, rfl⟩
    · split
      · exact ⟨_, rfl⟩
      · split
        · next hempty =>
          obtain ⟨r, hr⟩ := hnew hempty.1 (.inr hempty.2)
          rw [hr]
          exact ⟨_, rfl⟩
        · exact ⟨_, rfl⟩

/-- One exception, by a process and at an address that meet the condition `C`. -/
def Step (C : Env → Word → Machine → Prop) (s s' : Machine) : Prop :=
  ∃ e va, C e va s ∧ s.tlb.Raises va ∧ s.exception e va = .ok s'

theorem run_mono {C D : Env → Word → Machine → Prop} (hCD : ∀ e va s, C e va s → D e va s)
    (h : Relation.ReflTransGen (Step C) s s') : Relation.ReflTransGen (Step D) s s' :=
  Relation.ReflTransGen.mono
    (fun s _ ⟨e, va, hC, hraises, hok⟩ => ⟨e, va, hCD e va s hC, hraises, hok⟩) _ _ h

/-- The machine after `init_memory`, whatever the memory and the registers held before. -/
def Booted (s : Machine) : Prop :=
  ∃ (e : Env) (b : Machine), b.frames.Blank ∧ b.tlb.tlbEntryIndexPtr = 0 ∧ b.initMemory e = .ok s

def Reach (C : Env → Word → Machine → Prop) (s : Machine) : Prop :=
  ∃ s₀, Booted s₀ ∧ Relation.ReflTransGen (Step C) s₀ s

theorem Reach.invariant {C : Env → Word → Machine → Prop} {I : Machine → Prop}
    (hboot : ∀ s, Booted s → I s)
    (hstep : ∀ e va s s', I s → C e va s → s.tlb.Raises va → Handled e va s s' → I s')
    (h : Reach C s) :
    I s := by
  obtain ⟨s₀, hs₀, hrun⟩ := h
  refine invariant_of_path ?_ (hboot s₀ hs₀) hrun
  rintro a a' ha ⟨e, va, hC, hraises, hok⟩
  exact hstep e va a a' ha hC hraises (handled_of_exception hok)

end Machine

namespace Tlb

theorem fillEntry_eq (t : Tlb) {i : Nat} (hi : i < tlbEntriesNum) :
    (t.fillEntry i).entries = Function.update t.entries i ⟨0x7fff7#32, 0#32, fun _ => 0#32⟩ ∧
    (t.fillEntry i).tlbTable = Function.update t.tlbTable i
      ⟨BitVec.ofNat 32 i, true, 0xffff7#32, fun _ => 0#32, 0#32⟩ ∧
    (t.fillEntry i).tlbEntryIndexPtr = t.tlbEntryIndexPtr := by
  have hlo : Function.update (Function.update t.cp0.entryLo false 0#32) true 0#32 = fun _ =>
      0#32 := by
    funext b
    cases b <;> simp
  refine ⟨?_, ?_, ?_⟩
  · simp only [fillEntry, setTable, setEntryHi, setEntryLo, setIndex, tlbwi, toNat_ofNat_slot hi,
      hlo]
    rfl
  · simp only [fillEntry, setTable, setEntryHi, setEntryLo, setIndex, tlbwi]
  · simp only [fillEntry, setTable, setEntryHi, setEntryLo, setIndex, tlbwi]

theorem foldl_fillEntry (t : Tlb) {n : Nat} (hn : n ≤ tlbEntriesNum) :
    (∀ i < n, ((List.range n).foldl (fun t i => t.fillEntry i) t).entries i = ⟨0x7fff7#32, 0#32,
    fun _ => 0#32⟩ ∧
      ((List.range n).foldl (fun t i => t.fillEntry i) t).tlbTable i =
        ⟨BitVec.ofNat 32 i, true, 0xffff7#32, fun _ => 0#32, 0#32⟩) ∧
    ((List.range n).foldl (fun t i => t.fillEntry i) t).tlbEntryIndexPtr = t.tlbEntryIndexPtr := by
  induction n with
  | zero => exact ⟨fun i hi => absurd hi (Nat.not_lt_zero _), rfl⟩
  | succ n ih =>
    obtain ⟨hslots, hptr⟩ := ih (Nat.le_of_succ_le hn)
    rw [List.range_succ, List.foldl_append, List.foldl_cons, List.foldl_nil]
    obtain ⟨hentries, htable, hptr'⟩ :=
      ((List.range n).foldl (fun t i => t.fillEntry i) t).fillEntry_eq hn
    refine ⟨fun i hi => ?_, hptr'.trans hptr⟩
    rw [hentries, htable]
    by_cases hne : i = n
    · subst hne
      simp only [Function.update_self, and_self]
    · rw [Function.update_of_ne hne, Function.update_of_ne hne]
      exact hslots i (by omega)

end Tlb

namespace Machine

structure Fresh (s : Machine) : Prop where
  ledger : s.frames.Ledger
  used : s.frames.used = pageTablePages
  empty : ∀ n < vmPages, s.frames.pageTable n = 0#32
  clock : s.frames.clockPtr = 0
  swap : s.frames.swapPageAllocPtr = 0
  entries : ∀ i < tlbEntriesNum, s.tlb.entries i = ⟨0x7fff7#32, 0#32, fun _ => 0#32⟩
  table : ∀ i < tlbEntriesNum, s.tlb.tlbTable i = ⟨BitVec.ofNat 32 i, true, 0xffff7#32, fun _ =>
    0#32, 0#32⟩
  ptr : s.tlb.tlbEntryIndexPtr = 0

theorem initMemory_fresh {b : Machine} (e : Env) (hb : b.frames.Blank)
    (hptr : b.tlb.tlbEntryIndexPtr = 0) :
    ∃ s, b.initMemory e = .ok s ∧ s.Fresh := by
  obtain ⟨m, hrun, hledger, hused, hempty, hclock, hswap⟩ :=
    Frames.initMemory_ledger hb e b.tlb.cp0.badVAddr
  obtain ⟨hslots, hptr'⟩ := b.tlb.foldl_fillEntry le_rfl
  refine ⟨{ b with frames := m, tlb := b.tlb.fillTlb }, ?_, ?_⟩
  · rw [initMemory, hrun]
    rfl
  · exact ⟨hledger, hused, hempty, hclock, hswap, fun i hi => (hslots i hi).1, fun i hi =>
      (hslots i hi).2,
      hptr'.trans hptr⟩

theorem Booted.fresh {s : Machine} (h : Booted s) : s.Fresh := by
  obtain ⟨e, b, hb, hptr, hok⟩ := h
  obtain ⟨s', hok', hfresh⟩ := initMemory_fresh e hb hptr
  rw [hok] at hok'
  exact Except.ok.inj hok' ▸ hfresh

variable {s s' : Machine} {e : Env} {va : Word}

/-- The exception does not make `page_alloc` look for a victim: it does so for a half of an entry
that is not valid, whose page is not in the page table, when no frame is free. -/
def SparesPages (_ : Env) (va : Word) (s : Machine) : Prop :=
  ¬ (s.tlb.Hits va ∧ s.pte va = 0#32 ∧ s.frames.freePageFrameNum = 0)

theorem Handled.ledger (h : Handled e va s s') (hm : s.frames.Ledger) (hC : SparesPages e va s) :
    s'.frames.Ledger := by
  cases h with
  | denied _ _ quiet => exact quiet.frames ▸ hm
  | reused _ _ _ frames _ => exact frames ▸ hm
  | fresh _ _ _ free pfn new _ =>
    rw [hm.newPage free] at new
    exact (Prod.mk.inj (Except.ok.inj new)).2 ▸ hm.mapPage free
  | stuck _ _ _ quiet => exact quiet.frames ▸ hm
  | paired hit empty pfn new _ =>
    have free : s.frames.freePageFrameNum ≠ 0 := fun h0 => hC ⟨hit, empty, h0⟩
    rw [hm.newPage free] at new
    exact (Prod.mk.inj (Except.ok.inj new)).2 ▸ hm.mapPage free
  | ignored _ _ quiet => exact quiet.frames ▸ hm

theorem Reach.ledger (h : Reach SparesPages s) : s.frames.Ledger :=
  h.invariant (fun _ hboot => hboot.fresh.ledger) fun _ _ _ _ hm hC _ hh => hh.ledger hm hC

end Machine

end Ucas.Mm

import UcasOs.Mm.Steps

/-! The translation buffer under the exceptions of one process: `tlb_table` mirrors the hardware
entries, and each half of an entry is either empty or what the page table says. -/

namespace Ucas.Mm
open Ucas.Lib

theorem toNat_vpn2Of_lt {va : Word} (h : va.toNat < 0x80000000) : (vpn2Of va).toNat < 0x40000 := by
  rw [toNat_vpn2Of]
  omega

theorem toNat_vpnOf_lt {va : Word} (h : va.toNat < 0x80000000) : (vpnOf va).toNat < vmPages := by
  rw [toNat_vpnOf]
  unfold vmPages
  omega

theorem toNat_vpnOf_lt_pow (a : Word) : (vpnOf a).toNat < 2 ^ 20 := by
  have := a.isLt
  rw [toNat_vpnOf]
  omega

theorem pfnOfLo_loWord_vpnOf (a : Word) : pfnOfLo (loWord (vpnOf a)) = vpnOf a :=
  pfnOfLo_loWord ((toNat_vpnOf_lt_pow a).trans (by decide))

def Frames.half (m : Frames) (vpn2 : Word) (odd : Bool) : Word :=
  m.pageTable (2 * vpn2.toNat + odd.toNat)

namespace Machine
variable {s s' : Machine} {e : Env} {va p : Word}

theorem pte_eq_half (s : Machine) (va : Word) :
    s.pte va = s.frames.half (vpn2Of va) (isOdd va) := by
  rw [pte, toNat_vpnOf_eq, Frames.half]

structure HalfUsed (s : Machine) (i : Nat) (odd : Bool) : Prop where
  valid : Valid (s.frames.half (s.tlb.entries i).vpn2 odd)
  lo : (s.tlb.entries i).lo odd = loWord (vpnOf (s.frames.half (s.tlb.entries i).vpn2 odd))
  pfn : (s.tlb.tlbTable i).pfn odd = vpnOf (s.frames.half (s.tlb.entries i).vpn2 odd)

def Unused (s : Machine) (i : Nat) : Prop :=
  s.tlb.entries i = ⟨0x7fff7#32, 0#32, fun _ => 0#32⟩ ∧ (s.tlb.tlbTable i).vpn2 = 0xffff7#32

structure Used (p : Word) (s : Machine) (i : Nat) : Prop where
  user : (s.tlb.entries i).vpn2.toNat < 0x40000
  vpn2 : (s.tlb.tlbTable i).vpn2 = (s.tlb.entries i).vpn2
  asid : (s.tlb.entries i).asid = asidOf p
  pid : (s.tlb.tlbTable i).pid = p
  half : ∃ odd, s.HalfUsed i odd
  halves : ∀ odd, (s.tlb.entries i).lo odd = 0#32 ∨ s.HalfUsed i odd

structure Tidy (p : Word) (s : Machine) : Prop where
  ledger : s.frames.Ledger
  owned : ∀ i, pageTablePages ≤ i → i < s.frames.used → (s.frames.pageMap i).pid = p
  slots : ∀ i < tlbEntriesNum, s.Unused i ∨ s.Used p i
  distinct : ∀ i < tlbEntriesNum, ∀ j < tlbEntriesNum, (s.tlb.entries i).vpn2.toNat < 0x40000 →
    (s.tlb.entries i).vpn2 = (s.tlb.entries j).vpn2 → i = j
  asid : (∀ i < tlbEntriesNum, s.Unused i) ∨ asidOf s.tlb.cp0.entryHi = asidOf p

theorem Fresh.tidy (h : s.Fresh) (p : Word) : s.Tidy p := by
  have hunused : ∀ i < tlbEntriesNum, s.Unused i :=
    fun i hi => ⟨h.entries i hi, by rw [h.table i hi]⟩
  refine ⟨h.ledger, fun i hlow hi => ?_, fun i hi => .inl (hunused i hi), fun i hi j _ huser _ =>
    ?_, .inl hunused⟩
  · have := h.used
    omega
  · rw [h.entries i hi] at huser
    exact absurd huser (by decide)

theorem Fresh.miss (h : s.Fresh) (hva : va.toNat < 0x80000000) :
    ∀ i < tlbEntriesNum, (s.tlb.entries i).vpn2 ≠ vpn2Of va := by
  intro i hi heq
  have huser := toNat_vpn2Of_lt hva
  rw [← heq, h.entries i hi] at huser
  exact absurd huser (by decide)

section tidy
variable (h : s.Tidy p)
include h

theorem Tidy.used_of_vpn2 {i : Nat} (hi : i < tlbEntriesNum)
    (huser : (s.tlb.entries i).vpn2.toNat < 0x40000) :
    s.Used p i := by
  refine (h.slots i hi).resolve_left fun hun => ?_
  rw [hun.1] at huser
  exact absurd huser (by decide)

theorem Tidy.used_of_table {i : Nat} (hi : i < tlbEntriesNum)
    (huser : (s.tlb.tlbTable i).vpn2.toNat < 0x40000) :
    s.Used p i := by
  refine (h.slots i hi).resolve_left fun hun => ?_
  rw [hun.2] at huser
  exact absurd huser (by decide)

theorem Tidy.coveredBy_iff (hva : va.toNat < 0x80000000) {i : Nat} :
    s.tlb.CoveredBy va i ↔ i < tlbEntriesNum ∧ (s.tlb.entries i).vpn2 = vpn2Of va := by
  refine ⟨fun ⟨hi, hvpn2, _⟩ => ⟨hi, hvpn2⟩, fun ⟨hi, hvpn2⟩ => ⟨hi, hvpn2, .inr ?_⟩⟩
  have huser : (s.tlb.entries i).vpn2.toNat < 0x40000 := hvpn2 ▸ toNat_vpn2Of_lt hva
  have hused := h.used_of_vpn2 hi huser
  rcases h.asid with hnone | hasid
  · rw [(hnone i hi).1] at huser
    exact absurd huser (by decide)
  · rw [hused.asid, hasid]

theorem Tidy.hits_iff (hva : va.toNat < 0x80000000) :
    s.tlb.Hits va ↔ ∃ i < tlbEntriesNum, (s.tlb.entries i).vpn2 = vpn2Of va :=
  exists_congr fun _ => h.coveredBy_iff hva

theorem Tidy.right (hva : va.toNat < 0x80000000) :
    (s.tlb.raise va).checkTlbWrongAccess p = none := by
  rw [Tlb.checkTlbWrongAccess_eq_none]
  intro i hi hvpn2
  exact (h.used_of_table hi (hvpn2 ▸ toNat_vpn2Of_lt hva)).pid

theorem Tidy.invalidSlot (hva : va.toNat < 0x80000000) (hpid : e.pid = p) (hit : s.tlb.Hits va) :
    s.tlb.CoveredBy va (s.tlb.invalidSlot e va) := by
  obtain ⟨i, hi, hvpn2⟩ := (h.hits_iff hva).mp hit
  have huser := toNat_vpn2Of_lt hva
  have hused := h.used_of_vpn2 hi (hvpn2 ▸ huser)
  obtain ⟨hlt, htable, hslotpid⟩ := Tlb.invalidSlot_spec (e := e)
    ⟨i, hi, hused.vpn2.trans hvpn2, hused.pid.trans hpid.symm⟩
  rw [h.coveredBy_iff hva]
  exact ⟨hlt, (h.used_of_table hlt (htable ▸ huser)).vpn2.symm.trans htable⟩

end tidy

end Machine

namespace Tlb.Written
variable {t t' : Tlb} {p va : Word} {odd : Bool} {lo : Bool → Word} {slot i : Nat}
  (hw : Tlb.Written p (t.raise va).cp0.entryHi odd lo slot t t')
include hw

theorem entryVpn2 (hp : p.toNat < 2 ^ 13) : (t'.entries slot).vpn2 = vpn2Of va := by
  simp only [hw.entries, Function.update_self, vpn2Of_tagWord hp, Tlb.vpn2Of_raise]

theorem entryAsid : (t'.entries slot).asid = asidOf p := by
  simp only [hw.entries, Function.update_self, asidOf_tagWord]

theorem entryLo : (t'.entries slot).lo = lo := by simp only [hw.entries, Function.update_self]

theorem tableVpn2 (hp : p.toNat < 2 ^ 13) : (t'.tlbTable slot).vpn2 = vpn2Of va := by
  simp only [hw.table, Function.update_self, vpn2Of_tagWord hp, Tlb.vpn2Of_raise]

theorem tablePid : (t'.tlbTable slot).pid = p := by simp only [hw.table, Function.update_self]

theorem tablePfn (b : Bool) :
    (t'.tlbTable slot).pfn b = if b = odd then pfnOfLo (lo odd) else (t.tlbTable slot).pfn b := by
  simp only [hw.table, Function.update_self, Function.update_apply]

theorem entry_of_ne (hi : i ≠ slot) : t'.entries i = t.entries i := by
  rw [hw.entries, Function.update_of_ne hi]

theorem table_of_ne (hi : i ≠ slot) : t'.tlbTable i = t.tlbTable i := by
  rw [hw.table, Function.update_of_ne hi]

theorem asid : asidOf t'.cp0.entryHi = asidOf p := by rw [hw.entryHi, asidOf_tagWord]

end Tlb.Written

theorem half_lt {v : Word} (hv : v.toNat < 0x40000) (odd : Bool) :
    2 * v.toNat + odd.toNat < vmPages := by
  have := Bool.toNat_le odd
  unfold vmPages
  omega

namespace Machine
variable {s s' : Machine} {e : Env} {va p : Word}

def Keeps (s s' : Machine) : Prop :=
  ∀ n < vmPages, Valid (s.frames.pageTable n) → s'.frames.pageTable n = s.frames.pageTable n

theorem Keeps.half (h : Keeps s s') {v : Word} (hv : v.toNat < 0x40000) {odd : Bool}
    (hvalid : Valid (s.frames.half v odd)) : s'.frames.half v odd = s.frames.half v odd :=
  h _ (half_lt hv odd) hvalid

theorem HalfUsed.keep {i : Nat} {odd : Bool} (h : s.HalfUsed i odd) (hk : Keeps s s')
    (hv : (s.tlb.entries i).vpn2.toNat < 0x40000) (hentry : s'.tlb.entries i = s.tlb.entries i)
    (htable : s'.tlb.tlbTable i = s.tlb.tlbTable i) : s'.HalfUsed i odd := by
  have hhalf := hk.half hv h.valid
  refine ⟨?_, ?_, ?_⟩
  · rw [hentry, hhalf]
    exact h.valid
  · rw [hentry, hhalf, h.lo]
  · rw [hentry, htable, hhalf, h.pfn]

theorem Used.keep {i : Nat} (h : s.Used p i) (hk : Keeps s s')
    (hentry : s'.tlb.entries i = s.tlb.entries i)
    (htable : s'.tlb.tlbTable i = s.tlb.tlbTable i) : s'.Used p i := by
  refine ⟨hentry ▸ h.user, by rw [hentry, htable, h.vpn2], hentry ▸ h.asid, htable ▸ h.pid, ?_,
    fun odd => ?_⟩
  · exact h.half.imp fun odd hh => hh.keep hk h.user hentry htable
  · rw [hentry]
    exact (h.halves odd).imp_right fun hh => hh.keep hk h.user hentry htable

theorem Quiet.tidy (hq : Quiet s s') (h : s.Tidy p) : s'.Tidy p := by
  have hk : Keeps s s' := fun n _ _ => by rw [hq.frames]
  have hun : ∀ i, s.Unused i → s'.Unused i := fun i hi => ⟨hq.entries ▸ hi.1, hq.table ▸ hi.2⟩
  refine ⟨hq.frames ▸ h.ledger, hq.frames ▸ h.owned, fun i hi => ?_, hq.entries ▸ h.distinct, ?_⟩
  · exact (h.slots i hi).imp (hun i) fun hu => hu.keep hk (by rw [hq.entries]) (by rw [hq.table])
  · rw [hq.asid]
    exact h.asid.imp_left fun hall i hi => hun i (hall i hi)

structure Installs (p va : Word) (s s' : Machine) (slot : Nat) (lo : Bool → Word) : Prop where
  slot_lt : slot < tlbEntriesNum
  user : va.toNat < 0x80000000
  written : Tlb.Written p (s.tlb.raise va).cp0.entryHi (isOdd va) lo slot s.tlb s'.tlb
  keeps : Keeps s s'
  valid : Valid (s'.pte va)
  lo_self : lo (isOdd va) = loWord (vpnOf (s'.pte va))
  lo_other : lo (!isOdd va) = 0#32 ∨ (s.tlb.entries slot).vpn2 = vpn2Of va ∧
    s.HalfUsed slot (!isOdd va) ∧
    lo (!isOdd va) = loWord ((s.tlb.tlbTable slot).pfn !isOdd va)
  alone : ∀ i < tlbEntriesNum, i ≠ slot → (s.tlb.entries i).vpn2 ≠ vpn2Of va

namespace Installs
variable {slot : Nat} {lo : Bool → Word} (hi : Installs p va s s' slot lo) (hp : p.toNat < 2 ^ 13)
include hi hp

theorem half_self : s'.HalfUsed slot (isOdd va) := by
  have hvpn2 := hi.written.entryVpn2 hp
  refine ⟨?_, ?_, ?_⟩
  · rw [hvpn2, ← pte_eq_half]
    exact hi.valid
  · rw [hvpn2, ← pte_eq_half, hi.written.entryLo, hi.lo_self]
  · rw [hvpn2, ← pte_eq_half, hi.written.tablePfn, if_pos rfl, hi.lo_self, pfnOfLo_loWord_vpnOf]

theorem half_other :
    (s'.tlb.entries slot).lo (!isOdd va) = 0#32 ∨ s'.HalfUsed slot (!isOdd va) := by
  have hvpn2 := hi.written.entryVpn2 hp
  rcases hi.lo_other with hzero | ⟨hold, hhalf, hlo⟩
  · exact .inl (by rw [hi.written.entryLo, hzero])
  · right
    have hkeep := hi.keeps.half (hold ▸ toNat_vpn2Of_lt hi.user) hhalf.valid
    have hpfn := hhalf.pfn
    have hvalid := hhalf.valid
    rw [← hkeep, hold] at hpfn hvalid
    refine ⟨hvpn2 ▸ hvalid, ?_, ?_⟩
    · rw [hvpn2, ← hpfn, hi.written.entryLo, hlo]
    · rw [hvpn2, hi.written.tablePfn, if_neg (by simp), hpfn]

theorem used : s'.Used p slot := by
  have hvpn2 := hi.written.entryVpn2 hp
  refine ⟨?_, ?_, hi.written.entryAsid, hi.written.tablePid, ⟨_, hi.half_self hp⟩, fun odd => ?_⟩
  · rw [hvpn2]
    exact toNat_vpn2Of_lt hi.user
  · rw [hvpn2, hi.written.tableVpn2 hp]
  · rcases Bool.eq_or_eq_not odd (isOdd va) with rfl | rfl
    · exact .inr (hi.half_self hp)
    · exact hi.half_other hp

theorem tidy (h : s.Tidy p) (hledger : s'.frames.Ledger)
    (howned : ∀ i, pageTablePages ≤ i → i < s'.frames.used → (s'.frames.pageMap i).pid = p) :
    s'.Tidy p := by
  have hvpn2 := hi.written.entryVpn2 hp
  have hsame : ∀ i, i ≠ slot → s'.tlb.entries i = s.tlb.entries i :=
    fun i hne => hi.written.entry_of_ne hne
  refine ⟨hledger, howned, fun i hlt => ?_, fun i hlt j hj huser heq => ?_, .inr hi.written.asid⟩
  · by_cases hne : i = slot
    · exact .inr (hne ▸ hi.used hp)
    · refine (h.slots i hlt).imp (fun hun => ?_) fun hu => ?_
      · exact ⟨(hsame i hne).trans hun.1, by rw [hi.written.table_of_ne hne, hun.2]⟩
      · exact hu.keep hi.keeps (hsame i hne) (hi.written.table_of_ne hne)
  · by_cases hni : i = slot
    · by_cases hnj : j = slot
      · exact hni.trans hnj.symm
      · rw [hni, hvpn2, hsame j hnj] at heq
        exact absurd heq.symm (hi.alone j hj hnj)
    · by_cases hnj : j = slot
      · rw [hnj, hvpn2, hsame i hni] at heq
        exact absurd heq (hi.alone i hlt hni)
      · rw [hsame i hni, hsame j hnj] at heq
        exact h.distinct i hlt j hj (hsame i hni ▸ huser) heq

end Installs

structure Grown (p va pfn : Word) (s s' : Machine) : Prop where
  ledger : s'.frames.Ledger
  owned : ∀ i, pageTablePages ≤ i → i < s'.frames.used → (s'.frames.pageMap i).pid = p
  keeps : Keeps s s'
  valid : Valid (s'.pte va)
  pfn_eq : vpnOf (s'.pte va) = pfn
  used : s'.frames.used = s.frames.used + 1

theorem Tidy.grown (h : s.Tidy p) (hpid : e.pid = p) (hva : va.toNat < 0x80000000)
    (empty : s.pte va = 0#32)
    (free : s.frames.freePageFrameNum ≠ 0) {pfn : Word}
    (new : s.frames.newPage e va = .ok (pfn, s'.frames)) :
    Grown p va pfn s s' := by
  have hlt := Frames.Counted.used_lt free
  rw [h.ledger.newPage free] at new
  obtain ⟨rfl, hframes⟩ := Prod.mk.inj (Except.ok.inj new)
  have hpte : s'.pte va = pteWord (framePfn s.frames.used) := by
    rw [pte, ← hframes, h.ledger.pageTable_mapPage free (toNat_vpnOf_lt hva), if_pos rfl]
  refine ⟨hframes ▸ h.ledger.mapPage free, fun i hlow hi => ?_, fun n hn hvalid => ?_, ?_, ?_, ?_⟩
  · rw [← hframes, h.ledger.used_mapPage free] at hi
    rw [← hframes]
    by_cases hne : i = s.frames.used
    · rw [hne, h.ledger.pageMap_mapPage.1, hpid]
    · rw [Frames.pageMap_mapPage_of_ne hne]
      exact h.owned i hlow (by omega)
  · rw [← hframes, h.ledger.pageTable_mapPage free hn, if_neg]
    rintro rfl
    exact hvalid.ne_zero empty
  · rw [hpte]
    exact valid_pteWord _
  · rw [hpte, vpnOf_pteWord_framePfn hlt]
  · rw [← hframes, h.ledger.used_mapPage free]

theorem Tidy.installs_refilled (h : s.Tidy p) (hpid : e.pid = p) (hva : va.toNat < 0x80000000)
    (miss : ¬ s.tlb.Hits va) {pfn : Word} (refilled : Refilled e va pfn s s') (hkeeps : Keeps s s')
    (hvalid : Valid (s'.pte va)) (hpfn : vpnOf (s'.pte va) = pfn) :
    Installs p va s s' s.tlb.nextSlot (Function.update (fun _ => 0#32) (isOdd va) (loWord pfn)) :=
    by
  refine ⟨s.tlb.nextSlot_lt, hva, hpid ▸ refilled.written, hkeeps, hvalid, ?_, .inl ?_, fun i hi _
    hvpn2 => ?_⟩
  · rw [Function.update_self, hpfn]
  · rw [Function.update_of_ne (by simp)]
  · exact miss ((h.hits_iff hva).mpr ⟨i, hi, hvpn2⟩)

theorem Tidy.installs_completed (h : s.Tidy p) (hpid : e.pid = p) (hva : va.toNat < 0x80000000)
    (hit : s.tlb.Hits va) (empty : s.pte va = 0#32) {pfn : Word}
    (completed : Completed e va pfn (s.tlb.invalidSlot e va) s s') (grown : Grown p va pfn s s') :
    Installs p va s s' (s.tlb.invalidSlot e va) (Function.update
      (fun _ => loWord ((s.tlb.tlbTable (s.tlb.invalidSlot e va)).pfn !isOdd va)) (isOdd va)
      (loWord pfn)) := by
  have huser := toNat_vpn2Of_lt hva
  obtain ⟨hslot, hvpn2⟩ := (h.coveredBy_iff hva).mp (h.invalidSlot hva hpid hit)
  have hused := h.used_of_vpn2 hslot (hvpn2 ▸ huser)
  refine ⟨hslot, hva, hpid ▸ completed.written, grown.keeps, grown.valid, ?_, .inr ⟨hvpn2, ?_, ?_⟩,
    fun i hi hne heq => ?_⟩
  · rw [Function.update_self, grown.pfn_eq]
  · -- the page of `va` had no frame, so the half in use is the other one
    obtain ⟨odd, hhalf⟩ := hused.half
    rcases Bool.eq_or_eq_not odd (isOdd va) with rfl | rfl
    · refine absurd empty (Valid.ne_zero ?_)
      rw [pte_eq_half, ← hvpn2]
      exact hhalf.valid
    · exact hhalf
  · rw [Function.update_of_ne (by simp)]
  · exact hne (h.distinct i hi _ hslot (heq ▸ huser) (heq.trans hvpn2.symm))

theorem Tidy.handled (h : s.Tidy p) (hpid : e.pid = p) (hva : va.toNat < 0x80000000)
    (hh : Handled e va s s') (hC : SparesPages e va s) :
    (Quiet s s' ∧ (s.tlb.Hits va ∧ s.pte va ≠ 0#32 ∨ s.frames.freePageFrameNum = 0)) ∨
    ∃ slot lo, Installs p va s s' slot lo ∧ s'.frames.Ledger ∧
      ∀ i, pageTablePages ≤ i → i < s'.frames.used → (s'.frames.pageMap i).pid = p := by
  cases hh with
  | denied _ wrong _ => exact absurd (hpid ▸ h.right hva) wrong
  | reused miss _ valid frames refilled =>
    right
    have hpte : s'.pte va = s.pte va := by rw [pte, pte, frames]
    have hkeeps : Keeps s s' := fun n _ _ => by rw [frames]
    exact ⟨_, _, h.installs_refilled hpid hva miss refilled hkeeps (hpte ▸ valid) (by rw [hpte]),
      frames ▸ h.ledger, frames ▸ h.owned⟩
  | fresh miss _ empty free pfn new refilled =>
    have hgrown := h.grown hpid hva empty free new
    exact .inr ⟨_, _, h.installs_refilled hpid hva miss refilled hgrown.keeps hgrown.valid
      hgrown.pfn_eq,
      hgrown.ledger, hgrown.owned⟩
  | stuck _ invalid full quiet =>
    refine .inl ⟨quiet, .inr (full ?_)⟩
    by_contra hne
    obtain ⟨i, -, -, hpte, -⟩ := h.ledger.pages _ (toNat_vpnOf_lt hva) hne
    exact invalid (by rw [pte, hpte]; exact valid_pteWord _)
  | paired hit empty pfn new completed =>
    have hgrown := h.grown hpid hva empty (fun h0 => hC ⟨hit, empty, h0⟩) new
    exact .inr ⟨_, _, h.installs_completed hpid hva hit empty completed hgrown, hgrown.ledger,
      hgrown.owned⟩
  | ignored hit mapped quiet => exact .inl ⟨quiet, .inl ⟨hit, mapped⟩⟩

theorem Tidy.step (h : s.Tidy p) (hp : p.toNat < 2 ^ 13) (hpid : e.pid = p)
    (hva : va.toNat < 0x80000000)
    (hh : Handled e va s s') (hC : SparesPages e va s) : s'.Tidy p := by
  rcases h.handled hpid hva hh hC with ⟨hquiet, -⟩ | ⟨slot, lo, hi, hledger, howned⟩
  · exact hquiet.tidy h
  · exact hi.tidy hp h hledger howned

theorem Tidy.returns (h : s.Tidy p) (hp : p.toNat < 2 ^ 13) (hpid : e.pid = p)
    (hva : va.toNat < 0x80000000)
    (free : s.frames.freePageFrameNum ≠ 0) :
    ∃ s', s.exception e va = .ok s' ∧ Handled e va s s' ∧ s'.Tidy p := by
  obtain ⟨s', hok⟩ := exists_exception_eq_ok s e va (fun _ _ => ⟨_, h.ledger.newPage free⟩)
    (fun hit _ => ((h.coveredBy_iff hva).mp (h.invalidSlot hva hpid hit)).1)
  have hhandled := handled_of_exception hok
  exact ⟨s', hok, hhandled, h.step hp hpid hva hhandled fun hall => free hall.2.2⟩

end Machine

end Ucas.Mm

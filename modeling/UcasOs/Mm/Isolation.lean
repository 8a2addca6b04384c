import UcasOs.Mm.Resolve

/-! Process isolation: which entries the handler installs for a process, and whose frames they lead
to. The page table is shared by all processes and does not say whose a page is. -/

namespace Ucas.Mm
open Ucas.Lib

def Frames.Foreign (m : Frames) (pfn pid : Word) : Prop :=
  ∃ j < pageablePages, (m.pageMap j).avail = false ∧ (m.pageMap j).swaped = false ∧
    (m.pageMap j).pfn = pfn ∧
    (m.pageMap j).pid ≠ pid

theorem Frames.Ledger.foreign_iff {m : Frames} (h : m.Ledger) {k : Nat} (hk : k < m.used)
    (pid : Word) :
    m.Foreign (framePfn k) pid ↔ (m.pageMap k).pid ≠ pid := by
  have hle := m.used_le
  constructor
  · rintro ⟨j, hj, havail, -, hpfn, hpid⟩
    have hlt : j < framePages := by
      refine Nat.lt_of_le_of_ne (Nat.le_of_lt_succ hj) fun heq => ?_
      rw [heq, h.unit] at havail
      cases havail
    rw [h.pfn j hlt] at hpfn
    exact framePfn_inj hlt (by omega) hpfn ▸ hpid
  · intro hpid
    have hlt : k < framePages := by omega
    refine ⟨k, Nat.lt_add_right _ hlt, ?_, h.swaped k hlt, h.pfn k hlt, hpid⟩
    rw [h.avail k hlt, decide_eq_false_iff_not]
    omega

theorem Frames.Ledger.half_eq {m : Frames} (h : m.Ledger) {vpn2 : Word} {odd : Bool}
    (hv : vpn2.toNat < 0x40000) (hne : m.half vpn2 odd ≠ 0#32) :
    ∃ k < m.used, vpnOf (m.half vpn2 odd) = framePfn k := by
  have hle := m.used_le
  obtain ⟨k, -, hk, hpte, -⟩ := h.pages _ (half_lt hv odd) hne
  exact ⟨k, hk, by rw [Frames.half, hpte, vpnOf_pteWord_framePfn (by omega)]⟩

/-- The pages of a pair that have frames belong to one process. -/
def Frames.OwnPair (m : Frames) (vpn2 pid : Word) : Prop :=
  ∀ odd, m.half vpn2 odd ≠ 0#32 → ¬ m.Foreign (vpnOf (m.half vpn2 odd)) pid

theorem Frames.Ledger.owner_unique {m : Frames} (h : m.Ledger) {vpn2 p q : Word} {odd : Bool}
    (hv : vpn2.toNat < 0x40000) (hne : m.half vpn2 odd ≠ 0#32) (hp : m.OwnPair vpn2 p)
    (hq : m.OwnPair vpn2 q) : p = q := by
  obtain ⟨k, hk, hpfn⟩ := h.half_eq hv hne
  have hp := hp odd hne
  have hq := hq odd hne
  rw [hpfn, h.foreign_iff hk, not_not] at hp hq
  exact hp.symm.trans hq

structure Frames.Backs (m : Frames) (t : TlbTableEntry) : Prop where
  filled : ∃ odd, m.half t.vpn2 odd ≠ 0#32 ∧ t.pfn odd = vpnOf (m.half t.vpn2 odd)
  own : m.OwnPair t.vpn2 t.pid

namespace Machine
variable {s s' : Machine} {e : Env} {va : Word} {procs : Set Word}

/-- What the handler writes into the translation buffer lets no process reach a frame of another
one. An entry serves every process with its 8-bit identifier. -/
def Isolates (procs : Set Word) (s s' : Machine) : Prop :=
  ∀ i < tlbEntriesNum, s'.tlb.entries i ≠ s.tlb.entries i →
    ∀ odd, Valid ((s'.tlb.entries i).lo odd) →
    ∀ pid ∈ procs, (s'.tlb.entries i).Covers (s'.tlb.entries i).vpn2 (asidOf pid) →
      ¬ s'.frames.Foreign (pfnOfLo ((s'.tlb.entries i).lo odd)) pid

/-- The faulting process has an identifier that fits below the page number in `EntryHi`; a pair of
which a page has a frame and which the hardware does not find is still in `tlb_table`; and for a new
page in a pair that the hardware finds, a frame is free and the pair is in `tlb_table` under this
process. -/
structure Rightful (procs : Set Word) (e : Env) (va : Word) (s : Machine) : Prop where
  member : e.pid ∈ procs
  pid : e.pid.toNat < 2 ^ 13
  remembered : ¬ s.tlb.Hits va → ∀ odd, s.frames.half (vpn2Of va) odd ≠ 0#32 →
    ∃ i < tlbEntriesNum, (s.tlb.tlbTable i).vpn2 = vpn2Of va
  entry : s.tlb.Hits va → s.pte va = 0#32 → s.frames.freePageFrameNum ≠ 0 ∧
    ∃ i < tlbEntriesNum, (s.tlb.tlbTable i).vpn2 = vpn2Of va ∧ (s.tlb.tlbTable i).pid = e.pid

structure Backed (s : Machine) : Prop where
  ledger : s.frames.Ledger
  slots : ∀ i < tlbEntriesNum, (s.tlb.tlbTable i).vpn2.toNat < 0x40000 →
    s.frames.Backs (s.tlb.tlbTable i)

end Machine

section MapPage
variable {m : Frames} {e : Env} {va vpn2 pid : Word} (hm : m.Ledger) (free : m.freePageFrameNum ≠ 0)
include hm free

theorem Frames.Ledger.own_mapPage (e : Env) (va : Word) :
    ¬ (m.mapPage e va).Foreign (framePfn m.used) e.pid := by
  rw [(hm.mapPage free).foreign_iff (by rw [hm.used_mapPage free]; omega), hm.pageMap_mapPage.1]
  exact fun hne => hne rfl

theorem Frames.Ledger.half_mapPage (hv : vpn2.toNat < 0x40000)
    (empty : m.pageTable (vpnOf va).toNat = 0#32) {odd : Bool} (hne : m.half vpn2 odd ≠ 0#32) :
    (m.mapPage e va).half vpn2 odd = m.half vpn2 odd ∧ ∀ pid,
      (m.mapPage e va).Foreign (vpnOf (m.half vpn2 odd)) pid ↔
        m.Foreign (vpnOf (m.half vpn2 odd)) pid := by
  refine ⟨?_, fun pid => ?_⟩
  · rw [Frames.half, hm.pageTable_mapPage free (half_lt hv odd), if_neg, Frames.half]
    intro heq
    exact hne (by rw [Frames.half, heq, empty])
  · obtain ⟨k, hk, hpfn⟩ := hm.half_eq hv hne
    rw [hpfn, (hm.mapPage free).foreign_iff (by rw [hm.used_mapPage free]; omega),
      Frames.pageMap_mapPage_of_ne (Nat.ne_of_lt hk), hm.foreign_iff hk]

theorem Frames.OwnPair.mapPage (h : m.OwnPair vpn2 pid) (hv : vpn2.toNat < 0x40000)
    (empty : m.pageTable (vpnOf va).toNat = 0#32) (hpid : vpn2 = vpn2Of va → pid = e.pid) :
    (m.mapPage e va).OwnPair vpn2 pid := by
  intro odd hne
  by_cases hold : m.half vpn2 odd = 0#32
  · -- the half that was empty is the new page
    have hpage : 2 * vpn2.toNat + odd.toNat = (vpnOf va).toNat := by
      by_contra hother
      rw [Frames.half, hm.pageTable_mapPage free (half_lt hv odd), if_neg hother] at hne
      exact hne hold
    have hpair : vpn2 = vpn2Of va := by
      have hodd := Bool.toNat_le odd
      have hodd' := Bool.toNat_le (isOdd va)
      rw [toNat_vpnOf_eq] at hpage
      exact BitVec.eq_of_toNat_eq (by omega)
    rw [Frames.half, hm.pageTable_mapPage free (half_lt hv odd), if_pos hpage,
      vpnOf_pteWord_framePfn (Frames.Counted.used_lt free), hpid hpair]
    exact hm.own_mapPage free e va
  · obtain ⟨hhalf, hforeign⟩ := hm.half_mapPage free (e := e) hv empty hold
    rw [hhalf, hforeign]
    exact h odd hold

theorem Frames.Backs.mapPage {t : TlbTableEntry} (h : m.Backs t) (hv : t.vpn2.toNat < 0x40000)
    (empty : m.pageTable (vpnOf va).toNat = 0#32) (hpid : t.vpn2 = vpn2Of va → t.pid = e.pid) :
    (m.mapPage e va).Backs t := by
  refine ⟨?_, h.own.mapPage hm free hv empty hpid⟩
  obtain ⟨odd, hne, hpfn⟩ := h.filled
  obtain ⟨hhalf, -⟩ := hm.half_mapPage free (e := e) hv empty hne
  exact ⟨odd, hhalf ▸ hne, by rw [hhalf, hpfn]⟩

end MapPage

theorem not_global_loWord (pfn : Word) : loWord pfn &&& pteG = 0#32 := by
  rw [loWord_eq, BitVec.and_comm, BitVec.and_or_distrib_left,
    show pteG &&& 0x16#32 = 0#32 by decide,
    BitVec.or_zero]
  ext i hi
  have hbit : pteG = 1#32 := by decide
  simp only [hbit, BitVec.getElem_and, BitVec.getElem_shiftLeft, BitVec.getElem_one,
    BitVec.getElem_zero]
  by_cases h0 : i = 0
  · simp [h0]
  · simp [h0]

namespace Machine
variable {s s' : Machine} {e : Env} {va : Word} {procs : Set Word}

structure Lawful (e : Env) (va : Word) (lo : Bool → Word) (slot : Nat) (s s' : Machine) : Prop where
  written : Tlb.Written e.pid (s.tlb.raise va).cp0.entryHi (isOdd va) lo slot s.tlb s'.tlb
  own : s'.frames.OwnPair (vpn2Of va) e.pid
  mapped : s'.pte va ≠ 0#32
  lo_self : lo (isOdd va) = loWord (vpnOf (s'.pte va))
  lo_other : Valid (lo !isOdd va) → ¬ s'.frames.Foreign (pfnOfLo (lo !isOdd va)) e.pid

theorem Lawful.isolates {lo : Bool → Word} {slot : Nat} (h : Lawful e va lo slot s s')
    (hasid : procs.InjOn asidOf) (hmember : e.pid ∈ procs) : Isolates procs s s' := by
  intro i _ hchanged odd hvalid pid hpid hcovers
  have hslot : i = slot := by
    by_contra hne
    exact hchanged (h.written.entry_of_ne hne)
  subst hslot
  have hself : pid = e.pid := by
    refine hasid hpid hmember ?_
    rcases hcovers.2 with hglobal | heq
    · have hzero := not_global_loWord (vpnOf (s'.pte va))
      rw [← h.lo_self] at hzero
      rw [h.written.entryLo] at hglobal
      have hclear : lo false &&& lo true &&& pteG = 0#32 := by
        cases hodd : isOdd va with
        | false =>
          rw [hodd] at hzero
          rw [BitVec.and_assoc, BitVec.and_comm (lo true), ← BitVec.and_assoc, hzero,
            BitVec.zero_and]
        | true =>
          rw [hodd] at hzero
          rw [BitVec.and_assoc, hzero, BitVec.and_zero]
      exact absurd (hclear.symm.trans hglobal) (by decide)
    · rw [← heq, h.written.entryAsid]
  rw [h.written.entryLo] at hvalid ⊢
  rw [hself]
  rcases Bool.eq_or_eq_not odd (isOdd va) with rfl | rfl
  · rw [h.lo_self, pfnOfLo_loWord_vpnOf, pte_eq_half]
    exact h.own _ (pte_eq_half s' va ▸ h.mapped)
  · exact h.lo_other hvalid

theorem Lawful.backed {lo : Bool → Word} {slot : Nat} (h : Lawful e va lo slot s s')
    (hp : e.pid.toNat < 2 ^ 13) (hledger : s'.frames.Ledger)
    (hold : ∀ i < tlbEntriesNum, (s.tlb.tlbTable i).vpn2.toNat < 0x40000 →
      s'.frames.Backs (s.tlb.tlbTable i)) :
    s'.Backed := by
  refine ⟨hledger, fun i hi huser => ?_⟩
  by_cases hslot : i = slot
  · rw [hslot] at huser ⊢
    refine ⟨⟨isOdd va, ?_, ?_⟩, ?_⟩
    · rw [h.written.tableVpn2 hp, ← pte_eq_half]
      exact h.mapped
    · rw [h.written.tableVpn2 hp, h.written.tablePfn, if_pos rfl, h.lo_self, pfnOfLo_loWord_vpnOf,
        pte_eq_half]
    · rw [h.written.tableVpn2 hp, h.written.tablePid]
      exact h.own
  · rw [h.written.table_of_ne hslot] at huser ⊢
    exact hold i hi huser

theorem Backed.quiet (h : s.Backed) (hq : Quiet s s') : Isolates procs s s' ∧ s'.Backed := by
  refine ⟨fun i _ hchanged => absurd (by rw [hq.entries]) hchanged, hq.frames ▸ h.ledger,
    fun i hi => ?_⟩
  rw [hq.table, hq.frames]
  exact h.slots i hi

theorem Backed.newPage (h : s.Backed) (hva : va.toNat < 0x80000000)
    (free : s.frames.freePageFrameNum ≠ 0) {pfn : Word}
    (new : s.frames.newPage e va = .ok (pfn, s'.frames)) :
    s'.frames = s.frames.mapPage e va ∧ vpnOf (s'.pte va) = pfn ∧ s'.pte va ≠ 0#32 := by
  rw [h.ledger.newPage free] at new
  obtain ⟨rfl, hframes⟩ := Prod.mk.inj (Except.ok.inj new)
  have hpte : s'.pte va = pteWord (framePfn s.frames.used) := by
    rw [pte, ← hframes, h.ledger.pageTable_mapPage free (toNat_vpnOf_lt hva), if_pos rfl]
  refine ⟨hframes.symm, ?_, ?_⟩
  · rw [hpte, vpnOf_pteWord_framePfn (Frames.Counted.used_lt free)]
  · rw [hpte]
    exact (valid_pteWord _).ne_zero

theorem Refilled.lawful {pfn : Word} (h : Refilled e va pfn s s') (hpfn : vpnOf (s'.pte va) = pfn)
    (hmapped : s'.pte va ≠ 0#32) (hown : s'.frames.OwnPair (vpn2Of va) e.pid) :
    Lawful e va (Function.update (fun _ => 0#32) (isOdd va) (loWord pfn)) s.tlb.nextSlot s s' := by
  refine ⟨h.written, hown, hmapped, ?_, fun hvalid => ?_⟩
  · rw [Function.update_self, hpfn]
  · rw [Function.update_of_ne (by simp)] at hvalid
    exact absurd hvalid not_valid_zero

theorem Completed.lawful {pfn : Word} {slot : Nat} (h : Completed e va pfn slot s s')
    (hpfn : vpnOf (s'.pte va) = pfn) (hmapped : s'.pte va ≠ 0#32)
    (hown : s'.frames.OwnPair (vpn2Of va) e.pid)
    (hother : ¬ s'.frames.Foreign (pfnOfLo (loWord ((s.tlb.tlbTable slot).pfn !isOdd va))) e.pid) :
    Lawful e va (Function.update (fun _ => loWord ((s.tlb.tlbTable slot).pfn !isOdd va)) (isOdd va)
    (loWord pfn)) slot s s' := by
  refine ⟨h.written, hown, hmapped, ?_, fun _ => ?_⟩
  · rw [Function.update_self, hpfn]
  · rw [Function.update_of_ne (by simp)]
    exact hother

/-- Whoever passes `check_tlb_wrong_access` owns the pages of the pair that have frames. -/
theorem Backed.own_of_right (h : s.Backed) (hC : Rightful procs e va s)
    (hva : va.toNat < 0x80000000) (miss : ¬ s.tlb.Hits va)
    (right : (s.tlb.raise va).checkTlbWrongAccess e.pid = none) :
    s.frames.OwnPair (vpn2Of va) e.pid := by
  intro odd hne
  obtain ⟨i, hi, hvpn2⟩ := hC.remembered miss odd hne
  have hpid := Tlb.checkTlbWrongAccess_eq_none.mp right i hi hvpn2
  have hown := (h.slots i hi (hvpn2 ▸ toNat_vpn2Of_lt hva)).own
  rw [hvpn2, hpid] at hown
  exact hown odd hne

/-- A new page in a pair that `tlb_table` has under the faulting process only. -/
theorem Backed.slots_mapPage (h : s.Backed) (free : s.frames.freePageFrameNum ≠ 0)
    (empty : s.pte va = 0#32)
    (hpair : ∀ i < tlbEntriesNum, (s.tlb.tlbTable i).vpn2 = vpn2Of va →
      (s.tlb.tlbTable i).pid = e.pid) {i : Nat} (hi : i < tlbEntriesNum)
    (huser : (s.tlb.tlbTable i).vpn2.toNat < 0x40000) :
    (s.frames.mapPage e va).Backs (s.tlb.tlbTable i) :=
  (h.slots i hi huser).mapPage h.ledger free huser empty (hpair i hi)

theorem Backed.handled (h : s.Backed) (hC : Rightful procs e va s) (hasid : procs.InjOn asidOf)
    (hva : va.toNat < 0x80000000) (hh : Handled e va s s') : Isolates procs s s' ∧ s'.Backed := by
  have huser := toNat_vpn2Of_lt hva
  cases hh with
  | denied _ _ quiet | stuck _ _ _ quiet | ignored _ _ quiet => exact h.quiet quiet
  | reused miss right valid frames refilled =>
    have hpte : s'.pte va = s.pte va := by rw [pte, pte, frames]
    have hlaw := refilled.lawful (by rw [hpte]) (hpte ▸ valid.ne_zero)
      (frames ▸ h.own_of_right hC hva miss right)
    exact ⟨hlaw.isolates hasid hC.member, hlaw.backed hC.pid (frames ▸ h.ledger) (frames ▸ h.slots)⟩
  | fresh miss right empty free pfn new refilled =>
    obtain ⟨hframes, hpfn, hmapped⟩ := h.newPage hva free new
    have hown := (h.own_of_right hC hva miss right).mapPage h.ledger free (e := e) huser empty
      fun _ => rfl
    have hlaw := refilled.lawful hpfn hmapped (hframes ▸ hown)
    refine ⟨hlaw.isolates hasid hC.member, hlaw.backed hC.pid ?_ fun i hi hv => ?_⟩
    · exact hframes ▸ h.ledger.mapPage free
    · exact hframes ▸ h.slots_mapPage free empty (Tlb.checkTlbWrongAccess_eq_none.mp right) hi hv
  | paired hit empty pfn new completed =>
    obtain ⟨free, hentry⟩ := hC.entry hit empty
    obtain ⟨hframes, hpfn, hmapped⟩ := h.newPage hva free new
    obtain ⟨hslot, hvpn2, hpid⟩ := Tlb.invalidSlot_spec hentry
    have hback := h.slots _ hslot (hvpn2 ▸ huser)
    have hown := hback.own
    rw [hvpn2, hpid] at hown
    -- the page of `va` had no frame, so the half that was filled is the other one
    have hother : ¬ s'.frames.Foreign
        (pfnOfLo (loWord ((s.tlb.tlbTable (s.tlb.invalidSlot e va)).pfn !isOdd va))) e.pid := by
      obtain ⟨odd, hne, hfilled⟩ := hback.filled
      rw [hvpn2] at hne hfilled
      rcases Bool.eq_or_eq_not odd (isOdd va) with rfl | rfl
      · exact absurd empty (by rw [pte_eq_half]; exact hne)
      · rw [hfilled, pfnOfLo_loWord_vpnOf, hframes,
          (h.ledger.half_mapPage free (e := e) huser empty hne).2]
        exact hown _ hne
    -- no slot has the pair under another process, which would own the filled half too
    have hpair : ∀ i < tlbEntriesNum, (s.tlb.tlbTable i).vpn2 = vpn2Of va →
        (s.tlb.tlbTable i).pid = e.pid := by
      intro i hi hv
      obtain ⟨odd, hne, -⟩ := hback.filled
      have howni := (h.slots i hi (hv ▸ huser)).own
      rw [hv] at howni
      exact h.ledger.owner_unique huser (hvpn2 ▸ hne) howni hown
    have hlaw := completed.lawful hpfn hmapped
      (hframes ▸ hown.mapPage h.ledger free huser empty fun _ => rfl) hother
    refine ⟨hlaw.isolates hasid hC.member, hlaw.backed hC.pid ?_ fun i hi hv => ?_⟩
    · exact hframes ▸ h.ledger.mapPage free
    · exact hframes ▸ h.slots_mapPage free empty hpair hi hv

theorem Fresh.backed (h : s.Fresh) : s.Backed := by
  refine ⟨h.ledger, fun i hi huser => ?_⟩
  have hvpn2 : (s.tlb.tlbTable i).vpn2 = 0xffff7#32 := by rw [h.table i hi]
  exact absurd (hvpn2 ▸ huser) (by decide)

theorem Reach.backed (hasid : procs.InjOn asidOf) (h : Reach (Rightful procs) s) : s.Backed :=
  h.invariant (fun _ hboot => hboot.fresh.backed) fun _ _ _ _ hb hC hraises hh =>
    (hb.handled hC hasid hraises.1 hh).2

/-- In a run of rightful exceptions of processes with different identifiers in the hardware, no
exception gives a process access to a frame of another one. -/
theorem exception_isolates (hasid : procs.InjOn asidOf) (h : Reach (Rightful procs) s)
    (hC : Rightful procs e va s) (hraises : s.tlb.Raises va) (hok : s.exception e va = .ok s') :
    Isolates procs s s' :=
  ((h.backed hasid).handled hC hasid hraises.1 (handled_of_exception hok)).1

theorem Used.not_covers {p q : Word} {i : Nat} (h : s.Used p i) (hne : asidOf p ≠ asidOf q) :
    ¬ (s.tlb.entries i).Covers (s.tlb.entries i).vpn2 (asidOf q) := by
  have hclear : (s.tlb.entries i).lo true &&& pteG = 0#32 := by
    rcases h.halves true with hzero | hhalf
    · rw [hzero, BitVec.zero_and]
    · rw [hhalf.lo, not_global_loWord]
  rintro ⟨-, hglobal | hasid⟩
  · rw [BitVec.and_assoc, hclear, BitVec.and_zero] at hglobal
    exact absurd hglobal (by decide)
  · exact hne (h.asid.symm.trans hasid)

/-- Page 0 was touched by process 2, and then page 2 by process 3. -/
structure TwoPages (s : Machine) : Prop where
  reach : Reach (Rightful {2, 3}) s
  miss : ¬ s.tlb.Hits (pageVa 0)
  valid : Valid (s.pte (pageVa 0))
  pair : ∀ i < tlbEntriesNum, (s.tlb.tlbTable i).vpn2 = vpn2Of (pageVa 0) →
    (s.tlb.tlbTable i).pid = 2
  remembered : ∃ i < tlbEntriesNum, (s.tlb.tlbTable i).vpn2 = vpn2Of (pageVa 0)
  next : (s.tlb.entries s.tlb.nextSlot).vpn2 ≠ vpn2Of (pageVa 0)

theorem pair_ne : vpn2Of (pageVa 2) ≠ vpn2Of (pageVa 0) := by decide

theorem Fresh.rightful_first (h : Fresh s) : Rightful {2, 3} ⟨2, 0, 0, 0, 0⟩ (pageVa 0) s := by
  have hva := pageVa_user (n := 0) (by decide)
  refine ⟨.inl rfl, by decide,
    fun _ odd hne => absurd (h.empty _ (half_lt (toNat_vpn2Of_lt hva) odd)) hne,
    fun hit => absurd hit ?_⟩
  rw [(h.tidy 2).hits_iff hva]
  rintro ⟨i, hi, hvpn2⟩
  exact h.miss hva i hi hvpn2

namespace FirstPage
variable {s₀ s₁ s₂ : Machine} (h : FirstPage 2 s₀ s₁)
include h

theorem above : ∀ i < tlbEntriesNum, (s₁.tlb.entries i).vpn2 ≠ vpn2Of (pageVa 2) := by
  intro i hi heq
  have hbelow := h.below i hi
  rw [heq] at hbelow
  exact absurd (hbelow (by decide)) (by decide)

theorem miss_second : ¬ s₁.tlb.Hits (pageVa 2) := by
  rw [h.tidy.hits_iff (pageVa_user (by decide))]
  rintro ⟨i, hi, hvpn2⟩
  exact h.above i hi hvpn2

theorem free_ne_zero : s₁.frames.freePageFrameNum ≠ 0 :=
  Frames.free_ne_zero (by rw [h.used]; decide)

theorem empty_second : s₁.pte (pageVa 2) = 0#32 := by
  rw [pte, toNat_vpnOf_pageVa (by decide), h.table 2 (by decide), if_neg (by decide)]

theorem rightful_second : Rightful {2, 3} ⟨3, 0, 0, 0, 0⟩ (pageVa 2) s₁ := by
  refine ⟨.inr rfl, by decide, fun _ odd hne => absurd ?_ hne, fun hit => absurd hit h.miss_second⟩
  rw [Frames.half, toNat_vpn2Of_pageVa (by decide), h.table _ (by cases odd <;> decide),
    if_neg (by omega)]

/-- Process 3 at page 2. -/
theorem touch_second : ∃ s₂ pfn, s₁.exception ⟨3, 0, 0, 0, 0⟩ (pageVa 2) = .ok s₂ ∧
    s₂.frames = s₁.frames.mapPage ⟨3, 0, 0, 0, 0⟩ (pageVa 2) ∧
    Refilled ⟨3, 0, 0, 0, 0⟩ (pageVa 2) pfn s₁ s₂ := by
  have hva := pageVa_user (n := 2) (by decide)
  have hnone : ∀ i < tlbEntriesNum, (s₁.tlb.tlbTable i).vpn2 ≠ vpn2Of (pageVa 2) := by
    intro i hi heq
    have hused := h.tidy.used_of_table hi (heq ▸ toNat_vpn2Of_lt hva)
    exact h.above i hi (hused.vpn2.symm.trans heq)
  obtain ⟨s₂, hok⟩ := exists_exception_eq_ok s₁ ⟨3, 0, 0, 0, 0⟩ (pageVa 2)
    (fun _ _ => ⟨_, h.tidy.ledger.newPage h.free_ne_zero⟩) fun hit => absurd hit h.miss_second
  refine ⟨s₂, ?_⟩
  cases handled_of_exception hok with
  | fresh _ _ _ _ pfn new refilled =>
    rw [h.tidy.ledger.newPage h.free_ne_zero] at new
    exact ⟨pfn, hok, (Prod.mk.inj (Except.ok.inj new)).2.symm, refilled⟩
  | denied _ wrong _ =>
    exact absurd (Tlb.checkTlbWrongAccess_eq_none.mpr fun i hi heq => absurd heq (hnone i hi)) wrong
  | reused _ _ valid _ _ => exact absurd h.empty_second valid.ne_zero
  | stuck _ _ full _ => exact absurd (full h.empty_second) h.free_ne_zero
  | paired hit _ _ _ _ => exact absurd hit h.miss_second
  | ignored hit _ _ => exact absurd hit h.miss_second

theorem twoPages (hfresh : Fresh s₀) (hreach : Reach (Rightful {2, 3}) s₂) {pfn : Word}
    (hframes : s₂.frames = s₁.frames.mapPage ⟨3, 0, 0, 0, 0⟩ (pageVa 2))
    (hsecond : Refilled ⟨3, 0, 0, 0, 0⟩ (pageVa 2) pfn s₁ s₂) : TwoPages s₂ := by
  obtain ⟨e, hpid, hfirst⟩ := h.refilled
  have hva := pageVa_user (n := 0) (by decide)
  have hlt := s₀.tlb.nextSlot_lt
  have hslot : s₁.tlb.nextSlot ≠ s₀.tlb.nextSlot ∧ s₂.tlb.nextSlot ≠ s₀.tlb.nextSlot ∧
      s₂.tlb.nextSlot ≠ s₁.tlb.nextSlot := by
    simp only [Tlb.nextSlot, hsecond.ptr, hfirst.ptr] at hlt ⊢
    unfold tlbEntriesNum at *
    omega
  refine ⟨hreach, ?_, ?_, fun i hi heq => ?_, ⟨s₀.tlb.nextSlot, hlt, ?_⟩, ?_⟩
  · rintro ⟨i, hi, hcovers⟩
    by_cases hi₁ : i = s₁.tlb.nextSlot
    · rw [hi₁] at hcovers
      exact pair_ne ((hsecond.written.entryVpn2 (by decide)).symm.trans hcovers.1)
    · rw [hsecond.written.asid, hsecond.written.entry_of_ne hi₁] at hcovers
      have hused := h.tidy.used_of_vpn2 hi (hcovers.1 ▸ toNat_vpn2Of_lt hva)
      refine hused.not_covers (q := 3) (by decide) ?_
      rw [hcovers.1]
      exact hcovers
  · have hvpn : (vpnOf (pageVa 0)).toNat = 0 := toNat_vpnOf_pageVa (by decide)
    rw [pte, hframes, h.tidy.ledger.pageTable_mapPage h.free_ne_zero (by rw [hvpn]; decide), hvpn,
      toNat_vpnOf_pageVa (by decide), if_neg (by decide), h.table 0 (by decide), if_pos rfl]
    exact valid_pteWord _
  · by_cases hi₁ : i = s₁.tlb.nextSlot
    · rw [hi₁] at heq
      exact absurd ((hsecond.written.tableVpn2 (by decide)).symm.trans heq) pair_ne
    · rw [hsecond.written.table_of_ne hi₁] at heq ⊢
      exact (h.tidy.used_of_table hi (heq ▸ toNat_vpn2Of_lt hva)).pid
  · rw [hsecond.written.table_of_ne hslot.1.symm]
    exact hfirst.written.tableVpn2 (by rw [hpid]; decide)
  · rw [hsecond.written.entry_of_ne hslot.2.2, hfirst.written.entry_of_ne hslot.2.1,
      hfresh.entries _ s₂.tlb.nextSlot_lt]
    decide

end FirstPage

theorem exists_twoPages : ∃ s, TwoPages s := by
  obtain ⟨s₀, hs₀⟩ := exists_booted
  obtain ⟨s₁, hraises, hok, h⟩ :=
    hs₀.fresh.firstPage (p := 2) (by decide) (e := ⟨2, 0, 0, 0, 0⟩) rfl
  obtain ⟨s₂, pfn, hok', hframes, hsecond⟩ := h.touch_second
  have hraises' : s₁.tlb.Raises (pageVa 2) := ⟨pageVa_user (by decide), .inl h.miss_second⟩
  have hreach : Reach (Rightful {2, 3}) s₂ :=
    ⟨s₀, hs₀, (Relation.ReflTransGen.single ⟨_, _, hs₀.fresh.rightful_first, hraises, hok⟩).tail
      ⟨_, _, h.rightful_second, hraises', hok'⟩⟩
  exact ⟨s₂, h.twoPages hs₀.fresh hreach hframes hsecond⟩

theorem exception_isolates_two_processes :
    ∃ s s' t e e', Reach (Rightful {2, 3}) s ∧ e.pid = 2 ∧ s.exception e (pageVa 0) = .ok s' ∧
      (∃ i < tlbEntriesNum, s'.tlb.entries i ≠ s.tlb.entries i) ∧ Isolates {2, 3} s s' ∧
      e'.pid = 3 ∧ s.exception e' (pageVa 0) = .ok t ∧ t.tlb.entries = s.tlb.entries ∧
      Isolates {2, 3} s t := by
  obtain ⟨s, h⟩ := exists_twoPages
  have hasid : Set.InjOn asidOf ({2, 3} : Set Word) := by
    rintro p (rfl | rfl) q (rfl | rfl) heq
    all_goals first | rfl | exact absurd heq (by decide)
  have hraises : s.tlb.Raises (pageVa 0) := ⟨pageVa_user (by decide), .inl h.miss⟩
  have hok : ∀ p, ∃ s', s.exception ⟨p, 0, 0, 0, 0⟩ (pageVa 0) = .ok s' := fun p =>
    exists_exception_eq_ok s _ _ (fun hempty => absurd hempty h.valid.ne_zero)
      fun hit => absurd hit h.miss
  have hC : ∀ p ∈ ({2, 3} : Set Word), p.toNat < 2 ^ 13 →
      Rightful {2, 3} ⟨p, 0, 0, 0, 0⟩ (pageVa 0) s := fun p hp hlt =>
    ⟨hp, hlt, fun _ _ _ => h.remembered, fun hit => absurd hit h.miss⟩
  obtain ⟨s', hs'⟩ := hok 2
  obtain ⟨t, ht⟩ := hok 3
  refine ⟨s, s', t, _, _, h.reach, rfl, hs', ?_,
    exception_isolates hasid h.reach (hC 2 (.inl rfl) (by decide)) hraises hs', rfl, ht, ?_,
    exception_isolates hasid h.reach (hC 3 (.inr rfl) (by decide)) hraises ht⟩
  · -- process 2 gets its own page back
    cases handled_of_exception hs' with
    | reused _ _ _ _ refilled =>
      refine ⟨s.tlb.nextSlot, s.tlb.nextSlot_lt, fun heq => h.next ?_⟩
      rw [← heq]
      exact refilled.written.entryVpn2 (by decide)
    | denied _ wrong _ => exact absurd (Tlb.checkTlbWrongAccess_eq_none.mpr h.pair) wrong
    | fresh _ _ empty _ _ _ _ => exact absurd empty h.valid.ne_zero
    | stuck _ invalid _ _ => exact absurd h.valid invalid
    | paired hit _ _ _ _ => exact absurd hit h.miss
    | ignored hit _ _ => exact absurd hit h.miss
  · -- process 3 is refused
    have hwrong : (s.tlb.raise (pageVa 0)).checkTlbWrongAccess 3 ≠ none := by
      obtain ⟨i, hi, hvpn2⟩ := h.remembered
      intro hnone
      have hpid := Tlb.checkTlbWrongAccess_eq_none.mp hnone i hi hvpn2
      exact absurd ((h.pair i hi hvpn2).symm.trans hpid) (by decide)
    cases handled_of_exception ht with
    | denied _ _ quiet => exact quiet.entries
    | reused _ right _ _ _ => exact absurd right hwrong
    | fresh _ right _ _ _ _ _ => exact absurd right hwrong
    | stuck _ invalid _ _ => exact absurd h.valid invalid
    | paired hit _ _ _ _ => exact absurd hit h.miss
    | ignored hit _ _ => exact absurd hit h.miss

theorem shared_page_not_isolated :
    ∃ s s' e, Reach (fun e _ _ => e.pid = 2) s ∧ e.pid = 3 ∧ s.tlb.Raises (pageVa 0) ∧
      s.exception e (pageVa 0) = .ok s' ∧ ¬ Isolates {2, 3} s s' := by
  obtain ⟨s₀, hs₀⟩ := exists_booted
  have hfresh := hs₀.fresh
  have hva := pageVa_user (n := 0) (by decide)
  have hvpn : (vpnOf (pageVa 0)).toNat = 0 := toNat_vpnOf_pageVa (by decide)
  obtain ⟨s₁, hraises₁, hok₁, h₁⟩ := hfresh.firstPage (p := 2) (by decide) (e := ⟨2, 0, 0, 0, 0⟩)
    rfl
  obtain ⟨s, hrun, h⟩ := h₁.tidy.fill 1 32 (by decide) h₁.ptr h₁.below (by rw [h₁.used]; decide)
    (by decide) (fun j hj => by rw [h₁.table _ (by unfold vmPages; omega), if_neg (by omega)])
  have hgone : ∀ i < tlbEntriesNum, (s.tlb.entries i).vpn2 ≠ vpn2Of (pageVa 0) := by
    intro i hi heq
    have hbase := h.base_le le_rfl hi
    rw [heq] at hbase
    exact absurd hbase (by decide)
  have hmiss : ¬ s.tlb.Hits (pageVa 0) := by
    rw [h.tidy.hits_iff hva]
    rintro ⟨i, hi, hvpn2⟩
    exact hgone i hi hvpn2
  have hpte : s.pte (pageVa 0) = pteWord (framePfn 512) := by
    rw [pte, hvpn, h.keeps 0 (by decide) (fun j _ => by omega), h₁.table 0 (by decide), if_pos rfl]
  have hfree : s.frames.freePageFrameNum ≠ 0 :=
    Frames.free_ne_zero (by rw [h.used, h₁.used]; decide)
  -- process 3
  obtain ⟨s', hok⟩ := exists_exception_eq_ok s ⟨3, 0, 0, 0, 0⟩ (pageVa 0)
    (fun _ _ => ⟨_, h.tidy.ledger.newPage hfree⟩) (fun hit => absurd hit hmiss)
  have hby : By 2 ⟨2, 0, 0, 0, 0⟩ (pageVa 0) s₀ := rfl
  have hrun' := (Relation.ReflTransGen.single ⟨_, _, hby, hraises₁, hok₁⟩).trans
    (run_mono (fun _ _ _ => And.left) hrun)
  refine ⟨s, s', _, ⟨s₀, hs₀, hrun'⟩, rfl, ⟨hva, .inl hmiss⟩, hok, fun hisolates => ?_⟩
  cases handled_of_exception hok with
  | denied _ wrong _ =>
    refine wrong (Tlb.checkTlbWrongAccess_eq_none.mpr fun i hi hvpn2 => ?_)
    have hused := h.tidy.used_of_table hi (hvpn2 ▸ toNat_vpn2Of_lt hva)
    exact absurd (hused.vpn2.symm.trans hvpn2) (hgone i hi)
  | reused _ _ _ frames refilled =>
    have hslot := s.tlb.nextSlot_lt
    have hlo : (s'.tlb.entries s.tlb.nextSlot).lo (isOdd (pageVa 0)) = loWord
        (vpnOf (s.pte (pageVa 0))) := by
      rw [refilled.written.entryLo, Function.update_self]
    have hchanged : s'.tlb.entries s.tlb.nextSlot ≠ s.tlb.entries s.tlb.nextSlot := by
      intro heq
      exact hgone _ hslot (heq ▸ refilled.written.entryVpn2 (by decide))
    have hown := hisolates _ hslot hchanged _ (hlo ▸ valid_loWord _) 3 (.inr rfl)
      ⟨rfl, .inr refilled.written.entryAsid⟩
    rw [hlo, pfnOfLo_loWord_vpnOf, hpte, vpnOf_pteWord_framePfn (by decide), frames,
      h.tidy.ledger.foreign_iff (by rw [h.used, h₁.used]; decide), h.tidy.owned 512 le_rfl (by
        rw [h.used, h₁.used]; decide)] at hown
    exact hown (by decide)
  | fresh _ _ empty _ _ _ _ => exact (valid_pteWord _).ne_zero (hpte.symm.trans empty)
  | stuck _ invalid _ _ => exact invalid (hpte ▸ valid_pteWord _)
  | paired hit _ _ _ _ => exact hmiss hit
  | ignored hit _ _ => exact hmiss hit

end Machine

end Ucas.Mm

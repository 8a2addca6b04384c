import UcasOs.Mm.Tidy

/-! A process that touches the even pages of one pair after the other. Each access takes the next
frame and the next slot of the translation buffer, so that after 32 of them no earlier entry is
left. -/

namespace Ucas.Mm
open Ucas.Lib Relation

def pageVa (n : Nat) : Word := BitVec.ofNat 32 (n * 4096)

theorem toNat_pageVa {n : Nat} (hn : n < vmPages) : (pageVa n).toNat = n * 4096 := by
  unfold vmPages at hn
  rw [pageVa, BitVec.toNat_ofNat, Nat.mod_eq_of_lt (by omega)]

theorem pageVa_user {n : Nat} (hn : n < vmPages) : (pageVa n).toNat < 0x80000000 := by
  rw [toNat_pageVa hn]
  unfold vmPages at hn
  omega

theorem toNat_vpnOf_pageVa {n : Nat} (hn : n < vmPages) : (vpnOf (pageVa n)).toNat = n := by
  rw [toNat_vpnOf, toNat_pageVa hn]
  omega

theorem toNat_vpn2Of_pageVa {n : Nat} (hn : n < vmPages) : (vpn2Of (pageVa n)).toNat = n / 2 := by
  rw [toNat_vpn2Of, toNat_pageVa hn]
  omega

theorem isOdd_pageVa {n : Nat} (hn : n < vmPages) : isOdd (pageVa n) = decide (n % 2 = 1) := by
  rw [Bool.eq_iff_iff, isOdd_iff, toNat_pageVa hn, decide_eq_true_iff]
  omega

namespace Machine
variable {s s₀ : Machine} {p : Word} {base k : Nat}

def By (p : Word) (e : Env) (_ : Word) (_ : Machine) : Prop := e.pid = p

def BySparing (p : Word) (e : Env) (va : Word) (s : Machine) : Prop :=
  By p e va s ∧ SparesPages e va s

structure Filled (p : Word) (base : Nat) (s₀ s : Machine) (k : Nat) : Prop where
  tidy : s.Tidy p
  used : s.frames.used = s₀.frames.used + k
  ptr : s.tlb.tlbEntryIndexPtr = (s₀.tlb.tlbEntryIndexPtr + k) % tlbEntriesNum
  below : ∀ i < tlbEntriesNum, (s.tlb.entries i).vpn2.toNat < 0x40000 →
    (s.tlb.entries i).vpn2.toNat < base + k
  renewed : ∀ j < k, base ≤ (s.tlb.entries ((s₀.tlb.tlbEntryIndexPtr + j + 1) %
    tlbEntriesNum)).vpn2.toNat
  keeps : ∀ n < vmPages, (∀ j < k, n ≠ 2 * (base + j)) → s.frames.pageTable n = s₀.frames.pageTable
    n
  pages : ∀ j < k, s.frames.pageTable (2 * (base + j)) = pteWord (framePfn (s₀.frames.used + j))
  last : ∀ j, k = j + 1 → (s.tlb.entries s.tlb.tlbEntryIndexPtr).vpn2.toNat = base + j ∧
    (s.tlb.entries s.tlb.tlbEntryIndexPtr).lo true = 0#32
  clock : s.frames.clockPtr = s₀.frames.clockPtr
  swap : s.frames.swapPageAllocPtr = s₀.frames.swapPageAllocPtr

theorem Filled.zero (h : s₀.Tidy p) (hptr : s₀.tlb.tlbEntryIndexPtr < tlbEntriesNum)
    (hbelow : ∀ i < tlbEntriesNum, (s₀.tlb.entries i).vpn2.toNat < 0x40000 →
    (s₀.tlb.entries i).vpn2.toNat < base) :
    Filled p base s₀ s₀ 0 where
  tidy := h
  used := rfl
  ptr := (Nat.mod_eq_of_lt hptr).symm
  below := hbelow
  renewed _ hj := absurd hj (Nat.not_lt_zero _)
  keeps _ _ _ := rfl
  pages _ hj := absurd hj (Nat.not_lt_zero _)
  last _ hj := absurd hj (Nat.succ_ne_zero _).symm
  clock := rfl
  swap := rfl

theorem Tidy.returns_miss (h : s.Tidy p) (hp : p.toNat < 2 ^ 13) {e : Env} {va : Word}
    (hpid : e.pid = p) (hva : va.toNat < 0x80000000) (free : s.frames.freePageFrameNum ≠ 0)
    (miss : ∀ i < tlbEntriesNum, (s.tlb.entries i).vpn2 ≠ vpn2Of va) :
    ¬ s.tlb.Hits va ∧ ∃ s', s.tlb.Raises va ∧ s.exception e va = .ok s' ∧ s'.Tidy p ∧
      Handled e va s s' := by
  have hmiss : ¬ s.tlb.Hits va := by
    rw [h.hits_iff hva]
    rintro ⟨i, hi, hvpn2⟩
    exact miss i hi hvpn2
  obtain ⟨s', hok, hhandled, htidy'⟩ := h.returns hp hpid hva free
  exact ⟨hmiss, s', ⟨hva, .inl hmiss⟩, hok, htidy', hhandled⟩

theorem Tidy.fresh_access (h : s.Tidy p) (hp : p.toNat < 2 ^ 13) {e : Env} {va : Word}
    (hpid : e.pid = p)
    (hva : va.toNat < 0x80000000) (free : s.frames.freePageFrameNum ≠ 0) (empty : s.pte va = 0#32)
    (miss : ∀ i < tlbEntriesNum, (s.tlb.entries i).vpn2 ≠ vpn2Of va) :
    ∃ s', s.tlb.Raises va ∧ s.exception e va = .ok s' ∧ s'.Tidy p ∧ s'.frames = s.frames.mapPage e
    va ∧
      Refilled e va (framePfn s.frames.used) s s' := by
  obtain ⟨hmiss, s', hraises, hok, htidy', hhandled⟩ := h.returns_miss hp hpid hva free miss
  refine ⟨s', hraises, hok, htidy', ?_⟩
  cases hhandled with
  | denied _ wrong _ => exact absurd (hpid ▸ h.right hva) wrong
  | reused _ _ valid _ _ => exact absurd empty valid.ne_zero
  | fresh _ _ _ _ pfn new refilled =>
    rw [h.ledger.newPage free] at new
    obtain ⟨rfl, hframes⟩ := Prod.mk.inj (Except.ok.inj new)
    exact ⟨hframes.symm, refilled⟩
  | stuck _ _ full _ => exact absurd (full empty) free
  | paired hit _ _ _ _ => exact absurd hit hmiss
  | ignored hit _ _ => exact absurd hit hmiss

structure FirstPage (p : Word) (s₀ s : Machine) : Prop where
  tidy : s.Tidy p
  refilled : ∃ e, e.pid = p ∧ Refilled e (pageVa 0) (framePfn pageTablePages) s₀ s
  used : s.frames.used = 513
  table : ∀ n < vmPages, s.frames.pageTable n = if n = 0 then pteWord (framePfn 512) else 0#32
  ptr : s.tlb.tlbEntryIndexPtr < tlbEntriesNum
  below : ∀ i < tlbEntriesNum, (s.tlb.entries i).vpn2.toNat < 0x40000 →
    (s.tlb.entries i).vpn2.toNat < 1

theorem Fresh.free_ne_zero (h : s.Fresh) : s.frames.freePageFrameNum ≠ 0 :=
  Frames.free_ne_zero (by rw [h.used]; decide)

theorem Fresh.firstPage (h : s₀.Fresh) (hp : p.toNat < 2 ^ 13) {e : Env} (hpid : e.pid = p) :
    ∃ s, s₀.tlb.Raises (pageVa 0) ∧ s₀.exception e (pageVa 0) = .ok s ∧ FirstPage p s₀ s := by
  have hva := pageVa_user (n := 0) (by decide)
  have hvpn : (vpnOf (pageVa 0)).toNat = 0 := toNat_vpnOf_pageVa (by decide)
  obtain ⟨s, hraises, hok, htidy, hframes, hrefilled⟩ :=
    (h.tidy p).fresh_access hp hpid hva h.free_ne_zero
    (h.empty _ (toNat_vpnOf_lt hva)) (h.miss hva)
  refine ⟨s, hraises, hok, htidy, ⟨e, hpid, h.used ▸ hrefilled⟩, ?_, fun n hn => ?_, ?_,
    fun i hi huser => ?_⟩
  · rw [hframes, h.ledger.used_mapPage h.free_ne_zero, h.used, pageTablePages]
  · rw [hframes, h.ledger.pageTable_mapPage h.free_ne_zero hn, hvpn, h.used, h.empty n hn,
      pageTablePages]
  · rw [hrefilled.ptr]
    exact s₀.tlb.nextSlot_lt
  · by_cases hslot : i = s₀.tlb.nextSlot
    · rw [hslot, hrefilled.written.entryVpn2 (hpid ▸ hp)]
      decide
    · rw [hrefilled.written.entry_of_ne hslot, h.entries i hi] at huser
      exact absurd huser (by decide)

theorem Filled.succ (h : Filled p base s₀ s k) (hp : p.toNat < 2 ^ 13) {e : Env} (hpid : e.pid = p)
    (hroom : s₀.frames.used + k < framePages) (hpair : base + k < 0x40000)
    (hempty : s₀.frames.pageTable (2 * (base + k)) = 0#32) :
    ∃ s', Step (BySparing p) s s' ∧ Filled p base s₀ s' (k + 1) := by
  have hn : 2 * (base + k) < vmPages := by
    unfold vmPages
    omega
  have hvpn2 : (vpn2Of (pageVa (2 * (base + k)))).toNat = base + k := by
    rw [toNat_vpn2Of_pageVa hn]
    omega
  have heven : isOdd (pageVa (2 * (base + k))) = false := by
    rw [isOdd_pageVa hn, decide_eq_false_iff_not]
    omega
  have hfree : s.frames.freePageFrameNum ≠ 0 := Frames.free_ne_zero (by rw [h.used]; exact hroom)
  have hpte : s.pte (pageVa (2 * (base + k))) = 0#32 := by
    rw [pte, toNat_vpnOf_pageVa hn, h.keeps _ hn (fun j hj => by omega), hempty]
  have hmiss : ∀ i < tlbEntriesNum, (s.tlb.entries i).vpn2 ≠ vpn2Of (pageVa (2 * (base + k))) := by
    intro i hi heq
    have hbelow := h.below i hi
    rw [heq, hvpn2] at hbelow
    exact absurd (hbelow hpair) (by omega)
  obtain ⟨s', hraises, hok, htidy, hframes, hrefilled⟩ :=
    h.tidy.fresh_access hp hpid (pageVa_user hn) hfree hpte hmiss
  have hnew : (s'.tlb.entries s.tlb.nextSlot).vpn2.toNat = base + k := by
    rw [hrefilled.written.entryVpn2 (hpid ▸ hp), hvpn2]
  have hslot : s.tlb.nextSlot = (s₀.tlb.tlbEntryIndexPtr + k + 1) % tlbEntriesNum := by
    rw [Tlb.nextSlot, h.ptr, Nat.mod_add_mod]
  have htable : ∀ n < vmPages, s'.frames.pageTable n =
      if n = 2 * (base + k) then pteWord (framePfn s.frames.used) else s.frames.pageTable n := by
    intro n hn'
    rw [hframes, h.tidy.ledger.pageTable_mapPage hfree hn', toNat_vpnOf_pageVa hn]
  refine ⟨s', ⟨e, _, ⟨hpid, fun hall => hfree hall.2.2⟩, hraises, hok⟩, htidy, ?_, ?_,
    fun i hi huser => ?_, fun j hj => ?_,
    fun n hn' hne => ?_,
    fun j hj => ?_, fun j hj => ?_, ?_, ?_⟩
  · rw [hframes, h.tidy.ledger.used_mapPage hfree, h.used, Nat.add_assoc]
  · rw [hrefilled.ptr, hslot, Nat.add_assoc]
  · by_cases hi' : i = s.tlb.nextSlot
    · rw [hi', hnew]
      omega
    · rw [hrefilled.written.entry_of_ne hi'] at huser ⊢
      exact Nat.lt_succ_of_lt (h.below i hi huser)
  · by_cases hj' : (s₀.tlb.tlbEntryIndexPtr + j + 1) % tlbEntriesNum = s.tlb.nextSlot
    · rw [hj', hnew]
      omega
    · rw [hrefilled.written.entry_of_ne hj']
      refine h.renewed j (Nat.lt_of_le_of_ne (Nat.le_of_lt_succ hj) fun heq => hj' ?_)
      rw [heq, hslot]
  · rw [htable n hn', if_neg (hne k (Nat.lt_succ_self k))]
    exact h.keeps n hn' fun j hj => hne j (Nat.lt_succ_of_lt hj)
  · rw [htable _ (by unfold vmPages; omega)]
    by_cases hj' : j = k
    · rw [hj', if_pos rfl, h.used]
    · rw [if_neg (by omega), h.pages j (by omega)]
  · obtain rfl : k = j := Nat.succ_inj.mp hj
    rw [hrefilled.ptr, hnew, hrefilled.written.entryLo, heven]
    exact ⟨rfl, Function.update_of_ne (by decide) _ _⟩
  · rw [hframes, Frames.clockPtr_mapPage, h.clock]
  · rw [hframes, Frames.swapPageAllocPtr_mapPage, h.swap]

theorem Tidy.fill (h : s₀.Tidy p) (base k : Nat) (hp : p.toNat < 2 ^ 13)
    (hptr : s₀.tlb.tlbEntryIndexPtr < tlbEntriesNum)
    (hbelow : ∀ i < tlbEntriesNum, (s₀.tlb.entries i).vpn2.toNat < 0x40000 →
    (s₀.tlb.entries i).vpn2.toNat < base)
    (hroom : s₀.frames.used + k ≤ framePages) (hpair : base + k ≤ 0x40000)
    (hempty : ∀ j < k, s₀.frames.pageTable (2 * (base + j)) = 0#32) :
    ∃ s, ReflTransGen (Step (BySparing p)) s₀ s ∧ Filled p base s₀ s k := by
  induction k with
  | zero => exact ⟨s₀, .refl, .zero h hptr hbelow⟩
  | succ k ih =>
    obtain ⟨s, hrun, hfilled⟩ := ih (by omega) (by omega) fun j hj => hempty j (Nat.lt_succ_of_lt
      hj)
    obtain ⟨s', hstep, hfilled'⟩ := hfilled.succ hp (e := ⟨p, 0, 0, 0, 0⟩) rfl (by omega) (by omega)
      (hempty k (Nat.lt_succ_self k))
    exact ⟨s', hrun.tail hstep, hfilled'⟩

theorem Filled.base_le (h : Filled p base s₀ s k) (hk : tlbEntriesNum ≤ k) {i : Nat}
    (hi : i < tlbEntriesNum) :
    base ≤ (s.tlb.entries i).vpn2.toNat := by
  have hrenewed := h.renewed ((i + tlbEntriesNum - (s₀.tlb.tlbEntryIndexPtr + 1) % tlbEntriesNum) %
    tlbEntriesNum)
  unfold tlbEntriesNum at *
  have hslot : (s₀.tlb.tlbEntryIndexPtr + (i + 32 - (s₀.tlb.tlbEntryIndexPtr + 1) % 32) % 32 + 1) %
      32 = i := by
    omega
  rw [hslot] at hrenewed
  exact hrenewed (by omega)

end Machine

end Ucas.Mm

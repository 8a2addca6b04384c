import UcasOs.Mm.Exclusive

/-! Whether an exception is settled: after the handler the access goes through, and all entries of
the translation buffer agree with the page table. -/

namespace Ucas.Mm
open Ucas.Lib

namespace Machine
variable {s s' : Machine} {e : Env} {va p : Word}

/-- The access to `va` goes to the frame that the page table has for it. -/
structure Resolved (va : Word) (s : Machine) : Prop where
  valid : Valid (s.pte va)
  entry : ∃ i, s.tlb.CoveredBy va i ∧ Valid ((s.tlb.entries i).lo (isOdd va)) ∧
    pfnOfLo ((s.tlb.entries i).lo (isOdd va)) = vpnOf (s.pte va)
  settled : ¬ s.tlb.Raises va

/-- Every translation of a user page is the one of the page table. -/
def Agrees (s : Machine) : Prop :=
  ∀ i < tlbEntriesNum, ∀ odd, Valid ((s.tlb.entries i).lo odd) →
    Valid (s.frames.half (s.tlb.entries i).vpn2 odd) ∧
      pfnOfLo ((s.tlb.entries i).lo odd) = vpnOf (s.frames.half (s.tlb.entries i).vpn2 odd)

theorem not_valid_zero : ¬ Valid 0#32 := by decide

theorem HalfUsed.pfnOfLo {i : Nat} {odd : Bool} (h : s.HalfUsed i odd) :
    pfnOfLo ((s.tlb.entries i).lo odd) = vpnOf (s.frames.half (s.tlb.entries i).vpn2 odd) := by
  rw [h.lo, pfnOfLo_loWord_vpnOf]

theorem Tidy.agrees (h : s.Tidy p) : s.Agrees := by
  intro i hi odd hvalid
  rcases h.slots i hi with hun | hused
  · rw [hun.1] at hvalid
    exact absurd hvalid not_valid_zero
  · rcases hused.halves odd with hzero | hhalf
    · exact absurd (hzero ▸ hvalid) not_valid_zero
    · exact ⟨hhalf.valid, hhalf.pfnOfLo⟩

theorem Installs.resolved {slot : Nat} {lo : Bool → Word} (hi : Installs p va s s' slot lo)
    (hp : p.toNat < 2 ^ 13)
    (h' : s'.Tidy p) : s'.Resolved va := by
  have hvpn2 := hi.written.entryVpn2 hp
  have hhalf := hi.half_self hp
  have hcovered : s'.tlb.CoveredBy va slot := (h'.coveredBy_iff hi.user).mpr ⟨hi.slot_lt, hvpn2⟩
  have hvalid : Valid ((s'.tlb.entries slot).lo (isOdd va)) := by
    rw [hhalf.lo]
    exact valid_loWord _
  refine ⟨hi.valid, ⟨slot, hcovered, hvalid, ?_⟩, ?_⟩
  · rw [hhalf.pfnOfLo, hvpn2, ← pte_eq_half]
  · rintro ⟨-, hmiss | ⟨i, hi', hinvalid⟩⟩
    · exact hmiss ⟨slot, hcovered⟩
    · -- no other slot is for this pair of pages
      obtain ⟨hlt, hother⟩ := (h'.coveredBy_iff hi.user).mp hi'
      have heq := h'.distinct i hlt slot hi.slot_lt (hother ▸ toNat_vpn2Of_lt hi.user)
        (hother.trans hvpn2.symm)
      exact hinvalid (heq ▸ hvalid)

theorem Handled.free_eq_zero (h : Handled e va s s') (hfree : s.frames.freePageFrameNum = 0) :
    s'.frames.freePageFrameNum = 0 := by
  cases h with
  | denied _ _ quiet | stuck _ _ _ quiet | ignored _ _ quiet => rw [quiet.frames, hfree]
  | reused _ _ _ frames _ => rw [frames, hfree]
  | fresh _ _ _ free _ _ _ => exact absurd hfree free
  | paired _ _ _ new _ => exact Frames.newPage_free new hfree

theorem Reach.tidy (hp : p.toNat < 2 ^ 13) (h : Reach (By p) s) :
    s.frames.freePageFrameNum = 0 ∨ s.Tidy p := by
  refine h.invariant (I := fun s => s.frames.freePageFrameNum = 0 ∨ s.Tidy p)
    (fun _ hboot => .inr (hboot.fresh.tidy p)) ?_
  intro e va s s' hinv hpid hraises hh
  by_cases hfree : s.frames.freePageFrameNum = 0
  · exact .inl (hh.free_eq_zero hfree)
  · exact .inr ((hinv.resolve_left hfree).step hp hpid hraises.1 hh fun hall => hfree hall.2.2)

theorem Handled.not_resolved (h : Handled e va s s') (hraises : s.tlb.Raises va)
    (hit : s.tlb.Hits va)
    (hmapped : s.pte va ≠ 0#32) : ¬ s'.Resolved va := by
  cases h with
  | ignored _ _ quiet =>
    have hsame : ∀ i, s'.tlb.CoveredBy va i ↔ s.tlb.CoveredBy va i := by
      intro i
      rw [Tlb.CoveredBy, Tlb.CoveredBy, quiet.entries, quiet.asid]
    refine fun hres => hres.settled ⟨hraises.1, ?_⟩
    simp only [Tlb.Hits, hsame, quiet.entries]
    exact hraises.2
  | paired _ empty _ _ _ => exact absurd empty hmapped
  | denied miss _ _ | reused miss _ _ _ _ | fresh miss _ _ _ _ _ _ | stuck miss _ _ _ =>
    exact absurd hit miss

/-- With a frame left, an exception of the one process is settled unless the page already has a
frame and its entry covers only the other half of the pair. -/
theorem fault_resolved_iff (hp : p.toNat < 2 ^ 13) (h : Reach (By p) s)
    (hfree : s.frames.freePageFrameNum ≠ 0)
    (hpid : e.pid = p) (hraises : s.tlb.Raises va) :
    ∃ s', s.exception e va = .ok s' ∧ (s'.Resolved va ∧ s'.Agrees ↔ ¬ (s.tlb.Hits va ∧
    s.pte va ≠ 0#32)) := by
  have htidy := (h.tidy hp).resolve_left hfree
  have hva := hraises.1
  obtain ⟨s', hok, hhandled, htidy'⟩ := htidy.returns hp hpid hva hfree
  refine ⟨s', hok, fun ⟨hres, _⟩ ⟨hit, hmapped⟩ => ?_, fun hbad => ?_⟩
  · exact hhandled.not_resolved hraises hit hmapped hres
  · rcases htidy.handled hpid hva hhandled (fun hall => hfree hall.2.2) with
      ⟨-, hignored | hnone⟩ | ⟨slot, lo, hi, -⟩
    · exact absurd hignored hbad
    · exact absurd hnone hfree
    · exact ⟨hi.resolved hp htidy', htidy'.agrees⟩

theorem fault_resolved_first_page : ∃ s s' e, Booted s ∧ s.exception e (pageVa 0) = .ok s' ∧
    s'.Resolved (pageVa 0) ∧ s'.Agrees := by
  obtain ⟨s, hs⟩ := exists_booted
  have hfresh := hs.fresh
  obtain ⟨-, hraises, -⟩ := hfresh.firstPage (p := 2) (by decide) (e := ⟨2, 0, 0, 0, 0⟩) rfl
  obtain ⟨s', hok, hiff⟩ := fault_resolved_iff (p := 2) (e := ⟨2, 0, 0, 0, 0⟩) (by decide)
    ⟨s, hs, .refl⟩
    hfresh.free_ne_zero rfl hraises
  exact ⟨s, s', _, hs, hok, hiff.mpr fun hall => hall.2 (hfresh.empty _ (toNat_vpnOf_lt hraises.1))⟩

theorem Tidy.reuse_access (h : s.Tidy p) (hp : p.toNat < 2 ^ 13) (hpid : e.pid = p)
    (hva : va.toNat < 0x80000000)
    (free : s.frames.freePageFrameNum ≠ 0) (mapped : s.pte va ≠ 0#32)
    (miss : ∀ i < tlbEntriesNum, (s.tlb.entries i).vpn2 ≠ vpn2Of va) :
    ∃ s', s.tlb.Raises va ∧ s.exception e va = .ok s' ∧ s'.Tidy p ∧ s'.frames = s.frames ∧
      Refilled e va (vpnOf (s.pte va)) s s' := by
  obtain ⟨hmiss, s', hraises, hok, htidy', hhandled⟩ := h.returns_miss hp hpid hva free miss
  refine ⟨s', hraises, hok, htidy', ?_⟩
  cases hhandled with
  | denied _ wrong _ => exact absurd (hpid ▸ h.right hva) wrong
  | reused _ _ _ frames refilled => exact ⟨frames, refilled⟩
  | fresh _ _ empty _ _ _ _ => exact absurd empty mapped
  | stuck _ invalid _ _ =>
    obtain ⟨i, -, -, hpte, -⟩ := h.ledger.pages _ (toNat_vpnOf_lt hva) mapped
    exact absurd (by rw [pte, hpte]; exact valid_pteWord _) invalid
  | paired hit _ _ _ _ => exact absurd hit hmiss
  | ignored hit _ _ => exact absurd hit hmiss

theorem Tidy.pair_access (h : s.Tidy p) (hp : p.toNat < 2 ^ 13) (hpid : e.pid = p)
    (hva : va.toNat < 0x80000000)
    (free : s.frames.freePageFrameNum ≠ 0) (empty : s.pte va = 0#32) (hit : s.tlb.Hits va) :
    ∃ s', s.exception e va = .ok s' ∧ s'.Tidy p ∧ s'.frames = s.frames.mapPage e va ∧
      s'.tlb.tlbEntryIndexPtr = s.tlb.tlbEntryIndexPtr ∧
      ∀ i, (s'.tlb.entries i).vpn2 = (s.tlb.entries i).vpn2 := by
  obtain ⟨s', hok, hhandled, htidy'⟩ := h.returns hp hpid hva free
  refine ⟨s', hok, htidy', ?_⟩
  cases hhandled with
  | paired _ _ pfn new completed =>
    rw [h.ledger.newPage free] at new
    refine ⟨(Prod.mk.inj (Except.ok.inj new)).2.symm, completed.ptr, fun i => ?_⟩
    by_cases hi : i = s.tlb.invalidSlot e va
    · rw [hi, completed.written.entryVpn2 (hpid ▸ hp)]
      exact ((h.coveredBy_iff hva).mp (h.invalidSlot hva hpid hit)).2.symm
    · rw [completed.written.entry_of_ne hi]
  | ignored _ mapped _ => exact absurd empty mapped
  | denied miss _ _ | reused miss _ _ _ _ | fresh miss _ _ _ _ _ _ | stuck miss _ _ _ =>
    exact absurd hit miss

theorem Refilled.partner {pfn va' : Word} (h : Refilled e va pfn s s') (hp : e.pid.toNat < 2 ^ 13)
    (h' : s'.Tidy p)
    (hva' : va'.toNat < 0x80000000) (hpair : vpn2Of va' = vpn2Of va) (hodd : isOdd va' ≠ isOdd va) :
    s'.tlb.Hits va' ∧ s'.tlb.Raises va' := by
  have hcovered : s'.tlb.CoveredBy va' s.tlb.nextSlot :=
    (h'.coveredBy_iff hva').mpr ⟨s.tlb.nextSlot_lt, (h.written.entryVpn2 hp).trans hpair.symm⟩
  refine ⟨⟨_, hcovered⟩, hva', .inr ⟨_, hcovered, ?_⟩⟩
  rw [h.written.entryLo, Function.update_of_ne hodd]
  exact not_valid_zero

theorem half_refilled_pair_unresolved :
    ∃ s s' e, Reach (By 2) s ∧ s.frames.freePageFrameNum ≠ 0 ∧ By 2 e (pageVa 1) s ∧
    s.tlb.Raises (pageVa 1) ∧ s.exception e (pageVa 1) = .ok s' ∧ ¬ s'.Resolved (pageVa 1) := by
  obtain ⟨s₀, hs₀⟩ := exists_booted
  have hfresh := hs₀.fresh
  have hva₀ := pageVa_user (n := 0) (by decide)
  have hva₁ := pageVa_user (n := 1) (by decide)
  have hvpn₀ : (vpnOf (pageVa 0)).toNat = 0 := toNat_vpnOf_pageVa (by decide)
  have hvpn₁ : (vpnOf (pageVa 1)).toNat = 1 := toNat_vpnOf_pageVa (by decide)
  have hpair : vpn2Of (pageVa 1) = vpn2Of (pageVa 0) := by decide
  have hodd : isOdd (pageVa 1) ≠ isOdd (pageVa 0) := by decide
  have hby : ∀ va s, By 2 ⟨2, 0, 0, 0, 0⟩ va s := fun _ _ => rfl
  -- page 0
  obtain ⟨s₁, hraises₁, hok₁, h₁⟩ := hfresh.firstPage (p := 2) (by decide) (e := ⟨2, 0, 0, 0, 0⟩)
    rfl
  obtain ⟨e₁, hpid₁, hrefilled₁⟩ := h₁.refilled
  have hfree₁ : s₁.frames.freePageFrameNum ≠ 0 := Frames.free_ne_zero (by rw [h₁.used]; decide)
  -- page 1
  obtain ⟨hit₁, hraises₂⟩ := hrefilled₁.partner (by rw [hpid₁]; decide) h₁.tidy hva₁ hpair hodd
  have hempty₁ : s₁.pte (pageVa 1) = 0#32 := by
    rw [pte, hvpn₁, h₁.table 1 (by decide), if_neg (by decide)]
  obtain ⟨s₂, hok₂, h₂, hframes₂, hptr₂, htags₂⟩ :=
    h₁.tidy.pair_access (by decide) (e := ⟨2, 0, 0, 0, 0⟩) rfl hva₁ hfree₁
    hempty₁ hit₁
  have hused₂ : s₂.frames.used = 514 := by
    rw [hframes₂, h₁.tidy.ledger.used_mapPage hfree₁, h₁.used]
  have htable₂ : ∀ n < vmPages, s₂.frames.pageTable n =
      if n = 1 then pteWord (framePfn 513) else if n = 0 then pteWord (framePfn 512) else 0#32 := by
    intro n hn
    rw [hframes₂, h₁.tidy.ledger.pageTable_mapPage hfree₁ hn, hvpn₁, h₁.used, h₁.table n hn]
  -- 32 other pairs
  obtain ⟨s₃, hrun₃, h₃⟩ := h₂.fill 1 32 (by decide)
    (by rw [hptr₂]; exact h₁.ptr) (fun i hi huser => by
      rw [htags₂] at huser ⊢
      exact h₁.below i hi huser) (by rw [hused₂]; decide) (by decide) (fun j hj => by
      rw [htable₂ _ (by unfold vmPages; omega), if_neg (by omega), if_neg (by omega)])
  have hused₃ : s₃.frames.used = 546 := by rw [h₃.used, hused₂]
  have hfree₃ : s₃.frames.freePageFrameNum ≠ 0 := Frames.free_ne_zero (by rw [hused₃]; decide)
  have htable₃ : ∀ n < 2, s₃.frames.pageTable n = s₂.frames.pageTable n := by
    intro n hn
    exact h₃.keeps n (by unfold vmPages; omega) fun j _ => by omega
  -- page 0 again
  obtain ⟨s₄, hraises₄, hok₄, h₄, hframes₄, hrefilled₄⟩ :=
    h₃.tidy.reuse_access (by decide) (e := ⟨2, 0, 0, 0, 0⟩) rfl
    hva₀ hfree₃ (by
      rw [pte, hvpn₀, htable₃ 0 (by decide), htable₂ 0 (by decide), if_neg (by decide), if_pos rfl]
      exact (valid_pteWord _).ne_zero) (fun i hi heq => by
      have hbase := h₃.base_le le_rfl hi
      rw [heq] at hbase
      exact absurd hbase (by decide))
  obtain ⟨hit₄, hraises₅⟩ := hrefilled₄.partner (by decide) h₄ hva₁ hpair hodd
  have hfree₄ : s₄.frames.freePageFrameNum ≠ 0 := by rw [hframes₄]; exact hfree₃
  have hmapped₄ : s₄.pte (pageVa 1) ≠ 0#32 := by
    rw [pte, hvpn₁, hframes₄, htable₃ 1 (by decide), htable₂ 1 (by decide), if_pos rfl]
    exact (valid_pteWord _).ne_zero
  -- page 1 again
  obtain ⟨s₅, hok₅, hhandled₅, -⟩ := h₄.returns (by decide) (e := ⟨2, 0, 0, 0, 0⟩) rfl hva₁ hfree₄
  refine ⟨s₄, s₅, _, ⟨s₀, hs₀, ?_⟩, hfree₄, hby _ _, hraises₅, hok₅, hhandled₅.not_resolved hraises₅
    hit₄ hmapped₄⟩
  exact (((Relation.ReflTransGen.single ⟨_, _, hby _ _, hraises₁, hok₁⟩).tail ⟨_, _, hby _ _,
    hraises₂, hok₂⟩).trans (run_mono (fun _ _ _ => And.left) hrun₃)).tail
    ⟨_, _, hby _ _, hraises₄, hok₄⟩

end Machine

end Ucas.Mm

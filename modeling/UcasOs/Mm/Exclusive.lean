import UcasOs.Mm.Evict

/-! No two pages share a frame, and no page has a frame of the page table, as long as no page loses
its frame to another one. -/

namespace Ucas.Mm

/-- Different pages have different frames, none of which holds the page table. -/
structure Frames.Exclusive (m : Frames) : Prop where
  distinct : ∀ n < vmPages, ∀ k < vmPages, Valid (m.pageTable n) → Valid (m.pageTable k) →
    vpnOf (m.pageTable n) = vpnOf (m.pageTable k) → n = k
  above : ∀ n < vmPages, Valid (m.pageTable n) → ∀ i < pageTablePages,
    vpnOf (m.pageTable n) ≠ framePfn i

theorem Frames.Ledger.exclusive {m : Frames} (h : m.Ledger) : m.Exclusive := by
  have hused := m.used_le
  constructor
  · intro n hn k hk hvn hvk heq
    obtain ⟨i, -, hi, hptn, hvpnn⟩ := h.pages n hn hvn.ne_zero
    obtain ⟨j, -, hj, hptk, hvpnk⟩ := h.pages k hk hvk.ne_zero
    rw [hptn, hptk, vpnOf_pteWord_framePfn (by omega), vpnOf_pteWord_framePfn (by omega)] at heq
    obtain rfl := framePfn_inj (by omega) (by omega) heq
    exact hvpnn.symm.trans hvpnk
  · intro n hn hv i hi heq
    obtain ⟨j, hlow, hj, hpt, -⟩ := h.pages n hn hv.ne_zero
    rw [hpt, vpnOf_pteWord_framePfn (by omega)] at heq
    have := framePfn_inj (by omega) (by omega) heq
    omega

namespace Machine
variable {s s' : Machine} {e : Env} {va : Word}

/-- In every run without a victim, from any contents of memory and registers at boot and with any
processes, the pages keep to frames of their own. -/
theorem frames_exclusive (h : Reach SparesPages s) : s.frames.Exclusive := h.ledger.exclusive

/-- Every frame is taken. -/
theorem Filled.full {s₀ : Machine} (h : Filled 2 0 s₀ s 1536) (hused₀ : s₀.frames.used = 512) :
    s.frames.freePageFrameNum = 0 := by
  have hused := h.used
  have hle := h.tidy.ledger.free_le
  rw [Frames.used, hused₀] at hused
  unfold framePages at hused hle
  omega

theorem exists_booted : ∃ s, Booted s := by
  obtain ⟨s, hs, -⟩ := initMemory_fresh (b := ⟨⟨Frames.initEntry, fun _ => 0, 0, framePages, 0, 0,
    0⟩,
    ⟨fun _ => ⟨0, true, 0, fun _ => 0, 0⟩, 0, fun _ => ⟨0, 0, fun _ => 0⟩, ⟨0, fun _ => 0, 0, 0⟩⟩,
      0, 0, 0, []⟩)
    ⟨0, 0, 0, 0, 0⟩ ⟨rfl, rfl, rfl, rfl, rfl⟩ rfl
  exact ⟨s, _, _, ⟨rfl, rfl, rfl, rfl, rfl⟩, rfl, hs⟩

/-- One process touches the even pages 0, 2, ..., 3070: no frame is left, and each page has one. -/
theorem Booted.fill {s₀ : Machine} (h : Booted s₀) :
    ∃ s, Relation.ReflTransGen (Step (BySparing 2)) s₀ s ∧ Filled 2 0 s₀ s 1536 := by
  have hfresh := h.fresh
  exact (hfresh.tidy 2).fill 0 1536 (by decide) (by rw [hfresh.ptr]; decide)
    (fun i hi huser => absurd huser (by rw [hfresh.entries i hi]; decide))
    (by rw [hfresh.used]; decide) (by decide)
    (fun j hj => hfresh.empty _ (by unfold vmPages; omega))

theorem frames_exclusive_full :
    ∃ s, Reach SparesPages s ∧ s.frames.freePageFrameNum = 0 ∧
      (∀ j < 1536, Valid (s.frames.pageTable (2 * j))) ∧ s.frames.Exclusive := by
  obtain ⟨s₀, hs₀⟩ := exists_booted
  obtain ⟨s, hrun, h⟩ := hs₀.fill
  have hreach : Reach SparesPages s := ⟨s₀, hs₀, run_mono (fun _ _ _ => And.right) hrun⟩
  refine ⟨s, hreach, h.full hs₀.fresh.used, fun j hj => ?_, frames_exclusive hreach⟩
  have hpage := h.pages j hj
  rw [Nat.zero_add] at hpage
  exact hpage ▸ valid_pteWord _

theorem evicted_page_keeps_frame : ∃ s, Reach (fun _ _ _ => True) s ∧ ¬ s.frames.Exclusive := by
  obtain ⟨s₀, hs₀⟩ := exists_booted
  have hfresh := hs₀.fresh
  have hused₀ := hfresh.used
  obtain ⟨s, hrun, h⟩ := hs₀.fill
  have hn : 3071 < vmPages := by decide
  have hva := pageVa_user hn
  have hfree : s.frames.freePageFrameNum = 0 := h.full hused₀
  have hptr : s.tlb.tlbEntryIndexPtr < tlbEntriesNum := h.ptr ▸ Nat.mod_lt _ (by decide)
  have hcovered : s.tlb.CoveredBy (pageVa 3071) s.tlb.tlbEntryIndexPtr := by
    rw [h.tidy.coveredBy_iff hva]
    refine ⟨hptr, BitVec.eq_of_toNat_eq ?_⟩
    rw [(h.last 1535 rfl).1, toNat_vpn2Of_pageVa hn]
  have hraises : s.tlb.Raises (pageVa 3071) := by
    refine ⟨hva, .inr ⟨_, hcovered, ?_⟩⟩
    rw [isOdd_pageVa hn, decide_eq_true (by decide), (h.last 1535 rfl).2]
    decide
  have hempty : s.pte (pageVa 3071) = 0#32 := by
    rw [pte, toNat_vpnOf_pageVa hn, h.keeps _ hn (fun j _ => by omega), hfresh.empty _ hn]
  obtain ⟨v, m, hnew, hlow, hlt, htable⟩ :=
    h.tidy.ledger.newPage_evict (e := ⟨2, 0, 0, BitVec.ofNat 32 framePages, 0⟩)
    (pageVa 3071) hfree (by rw [h.clock, hfresh.clock]; decide) (h.swap.trans hfresh.swap) rfl
  obtain ⟨s', hok⟩ := exists_exception_eq_ok s _ (pageVa 3071) (fun _ _ => ⟨_, hnew⟩)
    (fun hit _ => ((h.tidy.coveredBy_iff hva).mp (h.tidy.invalidSlot hva rfl hit)).1)
  have hframes : s'.frames = m := by
    cases handled_of_exception hok with
    | paired _ _ pfn new _ =>
      rw [hnew] at new
      exact (Prod.mk.inj (Except.ok.inj new)).2.symm
    | ignored _ mapped _ => exact absurd hempty mapped
    | denied miss _ _ | reused miss _ _ _ _ | fresh miss _ _ _ _ _ _ | stuck miss _ _ _ =>
      exact absurd ⟨_, hcovered⟩ miss
  have hold : s'.frames.pageTable (2 * (v - 512)) = pteWord (framePfn v) := by
    have hpage := h.pages (v - 512) (by unfold framePages at hlt; omega)
    rw [hused₀, pageTablePages, Nat.zero_add, show 512 + (v - 512) = v from Nat.add_sub_cancel'
      hlow] at hpage
    rw [hframes, htable, toNat_vpnOf_pageVa hn, if_neg (by omega), hpage]
  have hnewpage : s'.frames.pageTable 3071 = pteWord (framePfn v) := by
    rw [hframes, htable, toNat_vpnOf_pageVa hn, if_pos rfl]
  have hrun' := run_mono (D := fun _ _ _ => True) (fun _ _ _ _ => trivial) hrun
  refine ⟨s', ⟨s₀, hs₀, hrun'.tail ⟨_, _, trivial, hraises, hok⟩⟩, fun hex => ?_⟩
  have := hex.distinct (2 * (v - 512)) (by unfold framePages at hlt; unfold vmPages; omega) 3071 hn
    (hold ▸ valid_pteWord _) (hnewpage ▸ valid_pteWord _) (by rw [hold, hnewpage])
  omega

end Machine

end Ucas.Mm

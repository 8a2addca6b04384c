import UcasOs.Fs.Owned
import UcasOs.Fs.OneFile
import UcasOs.Fs.Runs

/-! Exact ownership of the data blocks. What a directory or a link gets it gets once, and gives back
when it is removed; `do_fwrite` enters every new block of a file in two places. -/

namespace Ucas.Fs
open Ucas.Lib Relation

def Inode.NoHoles (i : Inode) : Prop :=
  ∀ j k : Fin 12, j ≤ k → i.iDirectTable k ≠ 0 → i.iDirectTable j ≠ 0

def FileSys.RemovesWhole (s : FileSys) : Op → Prop
  | .rmdir path =>
    ∀ n name c, s.parentOf path = .ok (n, name) → s.findFile (s.syncFromDiskInode n) name = .ok c →
      (s.syncFromDiskInode c).NoHoles
  | _ => True

/-- Any call but one of `do_fwrite`, on inodes in use, that removes only what has no holes. -/
def Op.Exact (op : Op) (s : FileSys) : Prop :=
  (∀ fd data, op ≠ .fwrite fd data) ∧ s.Meets s.Allocated op ∧ s.RemovesWhole op

theorem mem_takeWhile_of_getElem? {α : Type*} {p : α → Bool} {l : List α} {k : Nat} {x : α}
    (hx : l[k]? = some x)
    (h : ∀ j ≤ k, ∀ y, l[j]? = some y → p y = true) : x ∈ l.takeWhile p := by
  induction l generalizing k with
  | nil => cases hx
  | cons a l ih =>
    rw [List.takeWhile_cons, if_pos (h 0 (Nat.zero_le _) a rfl)]
    cases k with
    | zero => exact Option.some.inj hx ▸ List.mem_cons_self
    | succ k => exact List.mem_cons_of_mem _ (ih hx fun j hj => h (j + 1) (by omega))

theorem Inode.NoHoles.mem_leading {i : Inode} (h : i.NoHoles) {k : Fin 12}
    (hk : i.iDirectTable k ≠ 0) :
    i.iDirectTable k ∈ Volume.leading i := by
  have hget : ∀ j : Fin 12, ((List.finRange 12).map i.iDirectTable)[j.val]? = some
      (i.iDirectTable j) := fun j => by
    simp
  refine mem_takeWhile_of_getElem? (hget k) fun j hj y hy => ?_
  have hne := h ⟨j, lt_of_le_of_lt hj k.isLt⟩ k (Fin.le_def.mpr hj) hk
  rw [Option.some.inj (hy.symm.trans (hget ⟨j, lt_of_le_of_lt hj k.isLt⟩))]
  exact decide_eq_true hne

namespace Volume

def Covered (v : Volume) : Prop :=
  ∀ b ∈ dataBlocks, v.blockBit b = true → ∃ q ∈ taken v, ∃ k, ((v.inode q).iDirectTable k).toNat = b

namespace Covered
variable {v : Volume} (h : v.Covered)
include h

theorem extend {u : Volume} (hbit : ∀ b ∈ dataBlocks, u.blockBit b = true →
      v.blockBit b = true ∨ ∃ q ∈ taken u, ∃ k, ((u.inode q).iDirectTable k).toNat = b)
    (hinode : ∀ q ∈ taken v, ∀ k, (v.inode q).iDirectTable k ≠ 0 →
      q ∈ taken u ∧ (u.inode q).iDirectTable k = (v.inode q).iDirectTable k) : u.Covered := by
  intro b hb hset
  refine (hbit b hb hset).elim (fun hold => ?_) id
  obtain ⟨q, hq, k, hk⟩ := h b hb hold
  have hne := ne_zero_of_mem_dataBlocks (hk.symm ▸ hb)
  obtain ⟨hqu, hsame⟩ := hinode q hq k hne
  exact ⟨q, hqu, k, by rw [hsame, hk]⟩

theorem made {e : Env} {fmode : UInt16} {content : Option (UInt32 → Block)} {q : Nat} {v₁ : Volume}
    (hmade : Made e v fmode content q v₁) : v₁.Covered := by
  have hinode : ∀ p ∈ taken v, p ∈ taken v₁ ∧ v₁.inode p = v.inode p := fun p hp =>
    ⟨hmade.mem_taken.mpr (.inr hp), hmade.inode_of_ne (hmade.ne_of_mem hp)⟩
  have hself : q ∈ taken v₁ := hmade.mem_taken.mpr (.inl rfl)
  refine h.extend (fun b hb hset => ?_) fun p hp k _ => ⟨(hinode p hp).1, by rw [(hinode p hp).2]⟩
  cases hmade with
  | empty => exact .inl hset
  | @withBlock _ _ b' hq hb' =>
    by_cases hbb : b = b'
    · refine .inr ⟨q, hself, 0, ?_⟩
      have hnat : (UInt32.ofNat b').toNat = b' :=
        toNat_ofNat_of_lt (by have := (firstClear_lt hb').1; omega)
      simp only [Volume.allotted, Volume.created, Function.update_self, newInode, hnat, hbb]
    · exact .inl (by simpa [Volume.allotted, Volume.created, Function.update_of_ne hbb] using hset)

theorem stored {i : Inode} (hi : (v.inode i.iNum.toNat).iDirectTable = i.iDirectTable) :
    (v.stored i).Covered := by
  refine h.extend (fun b _ hset => .inl hset) fun q hq k _ => ⟨hq, ?_⟩
  simp only [Volume.stored, Function.update_apply]
  split_ifs with hqi
  · rw [hqi, hi]
  · rfl

theorem wroteDentry {i : Inode} (hmem : i.iNum.toNat ∈ taken v)
    (hi : (v.inode i.iNum.toNat).iDirectTable = i.iDirectTable)
    {dnum : UInt32} {d : Dentry} {r : Inode × Volume} (hr : Wrote v i dnum d r) : r.2.Covered := by
  cases hr with
  | refused => exact h
  | @grown b i' _ h12 hzero hb hi' =>
    have htable : i'.iDirectTable = Function.update i.iDirectTable ⟨_, h12⟩ (UInt32.ofNat b) := by
      simp [hi']
    have hnum : i'.iNum = i.iNum := by simp [hi']
    have hnat : (UInt32.ofNat b).toNat = b :=
      toNat_ofNat_of_lt (by have := (firstClear_lt hb).1; omega)
    have hself : ((v.stored i').allotted b (putDentry .zero (dnum % 32).toNat d)).inode
        i.iNum.toNat = i' := by
      rw [← hnum]
      exact Function.update_self ..
    refine h.extend (fun b' _ hset => ?_) fun q hq k hk => ⟨hq, ?_⟩
    · by_cases hbb : b' = b
      · exact .inr ⟨_, hmem, ⟨_, h12⟩, by rw [hself, htable, Function.update_self, hnat, hbb]⟩
      · exact .inl (by simpa [Volume.allotted, Volume.stored, Function.update_of_ne hbb] using hset)
    · by_cases hqi : q = i.iNum.toNat
      · subst hqi
        have hne : k ≠ ⟨_, h12⟩ := fun heq => hk (by rw [hi, heq, hzero])
        rw [hself, htable, Function.update_of_ne hne, hi]
      · simp only [Volume.allotted, Volume.stored, hnum, Function.update_of_ne hqi]
  | filled => exact h.stored (i := i.addEntry) hi
  | lost => exact h.stored (i := i.addEntry) hi

theorem removed {c : Nat} (hc : (v.inode c).NoHoles) : (v.removed c).Covered := by
  intro b hb hset
  simp only [Volume.removed, Bool.and_eq_true, decide_eq_true_eq] at hset
  obtain ⟨q, hq, k, hk⟩ := h b hb hset.1
  have hqc : q ≠ c := fun heq => by
    subst heq
    exact hset.2 _ (hc.mem_leading (ne_zero_of_mem_dataBlocks (hk.symm ▸ hb))) hk
  exact ⟨q, mem_taken_removed.mpr ⟨hq, hqc⟩, k, hk⟩

end Covered

theorem Wrote.same {v : Volume} {i : Inode} {dnum : UInt32} {d : Dentry} {r : Inode × Volume}
    (h : Wrote v i dnum d r)
    (hpresent : ∀ h12 : (dnum / 32).toNat < 12, i.iDirectTable ⟨_, h12⟩ ≠ 0) :
    r.1.iDirectTable = i.iDirectTable ∧ r.2.blockBit = v.blockBit := by
  cases h with
  | refused => exact ⟨rfl, rfl⟩
  | grown _ h12 hzero => exact absurd hzero (hpresent h12)
  | filled => exact ⟨rfl, rfl⟩
  | lost => exact ⟨rfl, rfl⟩

theorem Covered.change {v v' : Volume} {e : Env} {op : Op} (h : v.Covered) (hw : Well (taken v) v)
    (hfile : ∀ fd data, op ≠ .fwrite fd data) (htarget : ∀ n name, v.target op = .ok (n, name) →
    inodeKey n ∈ taken v)
    (hsource : ∀ srcPath newPath m, op = .link srcPath newPath → v.parsePath srcPath v.currentDir =
    .ok m → inodeKey m ∈ taken v)
    (hwhole : ∀ path n name i c, op = .rmdir path → v.target op = .ok (n, name) → v.load n = .ok i →
      v.findFile i name = .ok c → c.toNat ∈ taken v → (v.inode c.toNat).NoHoles)
    (hc : Change (taken v) e v op v') : v'.Covered := by
  cases hc with
  | session f => exact h
  | @create op name i v' hadds =>
    obtain @⟨n, i', fmode, content, q, v₁, hn, ht, hload, hmakes, hmade, hwrote⟩ := hadds
    obtain ⟨rfl, hnum⟩ := hw.of_mem (htarget n name ht) hload
    have hmem := htarget n name ht
    refine (h.made hmade).wroteDentry ?_ ?_ hwrote
    · rw [hnum]
      exact hmade.mem_taken.mpr (.inr hmem)
    · rw [hnum, hmade.inode_of_ne (hmade.ne_of_mem hmem)]
  | @link srcPath newPath v' hlinked =>
    obtain @⟨name, m, n, i, i', j, hm, hn, hsrc, hsrcload, hfile, ht, hload, hwrote⟩ := hlinked
    have hmem := htarget n name ht
    obtain ⟨rfl, hnum⟩ := hw.of_mem hmem hload
    obtain ⟨rfl, hjnum⟩ := hw.of_mem (hsource srcPath newPath m rfl hsrc) hsrcload
    have hstored := h.stored (i := (v.inode (inodeKey m)).addLink)
      (by rw [Inode.addLink_iNum, hjnum]; rfl)
    refine hstored.wroteDentry (by rw [hnum]; exact hmem) ?_ hwrote
    rw [hnum]
    simp only [Volume.stored, Inode.addLink_iNum, hjnum, Function.update_apply]
    split_ifs with hmn
    · rw [hmn, Inode.addLink_iDirectTable]
    · rfl
  | @rename oldName newName v' hrenames =>
    obtain @⟨name, n, c, dnum, i, i', hn, ht, hload, hchild, hdnum, hfits, hwrote⟩ := hrenames
    have hmem := htarget n name ht
    obtain ⟨rfl, hnum⟩ := hw.of_mem hmem hload
    exact h.wroteDentry (by rw [hnum]; exact hmem) (by rw [hnum]) hwrote
  | @rmdir path _ hremoves =>
    obtain @⟨name, n, c, dnum, i, i', v₁, hn, ht, hload, hchild, hc, hdnum, hwrote⟩ := hremoves
    have hremoved := h.removed (hwhole path n name i c rfl ht hload hchild hc)
    obtain ⟨rfl, hnum⟩ := hw.of_mem (htarget n name ht) hload
    obtain ⟨htable, hbits⟩ := hwrote.same (present_of_findFile (hw.within _ (htarget n name ht))
      hchild hc.1 hdnum)
    have hself : (i'.dropEntry).iNum.toNat = inodeKey n := by
      rw [Inode.dropEntry_iNum, hwrote.iNum, hnum]
    refine hremoved.extend (fun b _ hset => .inl ?_) fun q hq k _ => ⟨⟨hq.1, ?_⟩, ?_⟩
    · rw [← hbits]
      exact hset
    · show v₁.inodeBit q = true
      rw [hwrote.inodeBit]
      exact hq.2
    · simp only [Volume.stored, hself, Function.update_apply]
      split_ifs with hqn
      · rw [Inode.dropEntry_iDirectTable, htable, hqn]
        rfl
      · rw [hwrote.inode_of_ne (by rwa [hnum])]
  | cd => exact h
  | fwrite => exact absurd rfl (hfile _ _)

/-- Every data block in use is at one place of the direct table of one inode in use. -/
structure Exact (v : Volume) : Prop where
  well : Well (taken v) v
  owned : v.Owned
  straight : ∀ level, v.Straight level
  covered : v.Covered

end Volume

theorem exact_mkfs (e : Env) (s : FileSys) : (Volume.mkfs e s).Exact := by
  refine ⟨taken_mkfs e s ▸ well_mkfs e s, owned_mkfs e s, straight_mkfs e s, fun b hb hset =>
    ⟨0, ?_, 0, ?_⟩⟩
  · rw [taken_mkfs]
    rfl
  · have hle : b ≤ 266 := of_decide_eq_true hset
    rw [show (Volume.mkfs e s).inode 0 = rootOf e by simp [Volume.mkfs], block_rootOf]
    exact le_antisymm hb.1 hle

section Step
variable {s t : FileSys} {v : Volume} {e : Env} {op : Op}

theorem FileSys.Allocated.shows (hs : Shows s v) {n : UInt32} (hn : s.Allocated n) :
    inodeKey n ∈ taken v :=
  ⟨hn.1, by rw [hs.inodeBit _ hn.1, hn.2]⟩

theorem Op.Exact.regular (hop : op.Exact s) (hs : Shows s v) (h : v.Exact) : op.Regular s := by
  obtain ⟨hfile, hmeets, -⟩ := hop
  refine ⟨hmeets.mono fun _ hn => .inr hn, fun n name htarget => .inr ?_, ?_⟩
  · have hmem := (hmeets.target htarget).shows hs
    have hload : v.load n = .ok (v.inode (inodeKey n)) := if_pos hmem.1
    rw [hs.load hload]
    exact h.straight 0 _ hmem
  · cases op with
    | fwrite fd data => exact absurd rfl (hfile fd data)
    | _ => trivial

theorem Volume.Exact.step (h : v.Exact) (hs : Shows s v) (hop : op.Exact s)
    (hexec : Fs.exec e op s = .ok t) :
    ∃ v', Shows t v' ∧ v'.Exact := by
  obtain ⟨v', hv', hdoes, hwell⟩ := (hop.regular hs h).does hs h.well (removable_of_straight
    (h.straight 0) op) hexec
  obtain ⟨hfile, hmeets, hwhole⟩ := hop
  refine ⟨v', hv', hwell, h.owned.change h.well hdoes.change, fun level => (h.straight level).change
    h.well hfile hdoes.change,
    h.covered.change h.well hfile (fun n name hn => ?_) (fun srcPath newPath m hop hm => ?_)
      (fun path n name i c hop hn hload hc hmem => ?_) hdoes.change⟩
  · exact (hmeets.target (eq_ok_of_refines (hs.target op) hn)).shows hs
  · subst hop
    refine (hmeets.1.parsePath ?_).shows hs
    rw [hs.currentDir_eq]
    exact eq_ok_of_refines (hs.parsePath _ _) hm
  · subst hop
    have hc' := eq_ok_of_refines (hs.findFile _ _) hc
    rw [← hs.load hload] at hc'
    have hholes := hwhole n name c (eq_ok_of_refines (hs.target (.rmdir path)) hn) hc'
    rwa [hs.load (load_of_lt hmem.1)] at hholes

theorem Shows.refers (hs : Shows s v) (hstraight : ∀ level, v.Straight level) {q : Nat} {P : Place}
    {b : Nat} :
    s.Refers q P b ↔ q ∈ taken v ∧ ∃ k, P = .direct k ∧ (v.inode q).iDirectTable k ≠ 0 ∧
      ((v.inode q).iDirectTable k).toNat = b := by
  constructor
  · rintro ⟨hlt, hbit, -, hne, hb⟩
    have hmem : q ∈ taken v := ⟨hlt, by rw [hs.inodeBit q hlt, hbit]⟩
    rw [← hs.inode q hlt] at hne hb
    cases P with
    | direct k => exact ⟨hmem, k, rfl, hne, hb⟩
    | indirect level path =>
      rw [Place.value, hstraight level q hmem, FileSys.follow_zero] at hne
      exact absurd rfl hne
  · rintro ⟨⟨hlt, hbit⟩, k, rfl, hne, hb⟩
    refine ⟨hlt, by rw [← hs.inodeBit q hlt, hbit], trivial, ?_, ?_⟩
    · rw [← hs.inode q hlt]
      exact hne
    · rw [← hs.inode q hlt]
      exact hb

theorem Volume.Exact.ownsExactly (h : v.Exact) (hs : Shows s v) : s.OwnsExactly := by
  refine ⟨fun q P b href => ?_, fun b hb => ?_, fun q P q' P' b href href' => ?_⟩
  · obtain ⟨hq, k, -, hne, rfl⟩ := (hs.refers h.straight).mp href
    exact (h.well.within q hq k).resolve_left hne
  · rw [← hs.blockBit b hb.2]
    constructor
    · intro hset
      obtain ⟨q, hq, k, hk⟩ := h.covered b hb hset
      refine ⟨q, .direct k, (hs.refers h.straight).mpr ⟨hq, k, rfl, fun hzero => ?_, hk⟩⟩
      rw [hzero] at hk
      have := hb.1
      simp at hk
      omega
    · rintro ⟨q, P, href⟩
      obtain ⟨hq, k, -, hne, rfl⟩ := (hs.refers h.straight).mp href
      exact (h.owned q hq).bit k hne
  · obtain ⟨hq, k, rfl, hne, hk⟩ := (hs.refers h.straight).mp href
    obtain ⟨hq', k', rfl, -, hk'⟩ := (hs.refers h.straight).mp href'
    have heq : (v.inode q').iDirectTable k' = (v.inode q).iDirectTable k :=
      UInt32.toNat_inj.mp (hk'.trans hk.symm)
    by_cases hqq : q' = q
    · subst hqq
      exact ⟨rfl, by rw [(h.owned q' hq).apart k hne k' heq]⟩
    · exact absurd heq ((h.owned q hq).other k hne q' hq' hqq k')

end Step

/-- As long as no file is written to, a data block is in use exactly if one place of one inode in
use refers to it. -/
theorem blocks_owned_exactly {t : FileSys} (h : Reach Op.Exact t) : t.OwnsExactly := by
  obtain ⟨v, hv, hexact⟩ := h.invariant (I := Volume.Exact) exact_mkfs fun hs h hop hexec =>
    h.step hs hop hexec
  exact hexact.ownsExactly hv

instance (i : Inode) : Decidable i.NoHoles :=
  inferInstanceAs (Decidable (∀ _ _ : Fin 12, _ → _ → _))

def Volume.exactCall (op : Op) (v : Volume) : Bool :=
  v.meets v.allocated op && match op with
  | .fwrite _ _ => false
  | .rmdir path => (v.parentOf path).sure fun x => (v.load x.1).sure fun i =>
      (v.findFile i x.2).sure fun c => (v.load c).sure fun j => decide j.NoHoles
  | _ => true

theorem Shows.of_exactCall (s : FileSys) (v : Volume) (op : Op) (h : Shows s v)
    (hop : v.exactCall op = true) : op.Exact s := by
  obtain ⟨hmeets, hcall⟩ := Bool.and_eq_true_iff.mp hop
  refine ⟨?_, h.of_meets (fun n => h.of_allocated) hmeets, ?_⟩
  · rintro fd data rfl
    cases hcall
  · cases op with
    | rmdir path =>
      intro n name c hn hc
      have hparent := of_sure (h.parentOf path) hcall hn
      have hchild := of_sure (h.findFile _ name) (h.of_sure_load hparent :) hc
      exact of_decide_eq_true (h.of_sure_load hchild :)
    | _ => trivial

/-- The block of the removed directory goes to the next one. -/
theorem blocks_owned_exactly_reused : ∃ s t, FileSys.blank.doMkfs .blank = .ok s ∧
    runOps [.mkdir (Text.dot.child .a) 0, .touch .b 0, .link .b (Text.a.child .b),
      .rmdir (Text.dot.child .a), .mkdir (Text.dot.child .a) 0] s = .ok t ∧
    t.Allocated 1 ∧ t.Allocated 2 ∧ (t.syncFromDiskInode 1).iDirectTable 0 = 267 ∧
    t.OwnsExactly := by
  obtain ⟨s, t, v, hs, ht, hreach, hv, hp⟩ := exists_run_checked Shows.of_exactCall
    [.mkdir (Text.dot.child .a) 0, .touch .b 0, .link .b (Text.a.child .b),
      .rmdir (Text.dot.child .a), .mkdir (Text.dot.child .a) 0]
    (p := fun v => v.allocated 1 && v.allocated 2 && (v.load 1).sure fun i =>
      i.iDirectTable 0 == 267) (by decide +kernel)
  obtain ⟨hallocated, hdirect⟩ := Bool.and_eq_true_iff.mp hp
  obtain ⟨hone, htwo⟩ := Bool.and_eq_true_iff.mp hallocated
  exact ⟨s, t, hs, ht, hv.of_allocated hone, hv.of_allocated htwo,
    eq_of_beq (hv.of_sure_load hdirect :), blocks_owned_exactly hreach⟩

theorem FileSys.Opened.not_ownsExactly {s : FileSys} {free r : Nat} {content : List UInt8}
    (h : s.Opened free r content)
    (hne : content ≠ []) : ¬ s.OwnsExactly := by
  obtain ⟨v, hs, hv⟩ := h
  obtain ⟨first, hfree, hfile⟩ := hv.blocks.resolve_left fun hempty => hne hempty.1
  have hshort := hv.short
  have hle := hv.le
  have hge := hfile.ge
  have hrecord : s.syncFromDiskInode (UInt32.ofNat 1) = v.inode 1 := (hs.inode 1 (by omega)).symm
  have hbit : s.inodebmp.bit 1 = true := by
    rw [← hs.inodeBit 1 (by omega)]
    exact hv.taken
  have hnat := toNat_ofNat_of_lt (n := first + content.length / 4096) (by omega)
  have hnonzero : UInt32.ofNat (first + content.length / 4096) ≠ 0 :=
    ne_zero_of_mem_dataBlocks (hnat.symm ▸ ⟨by omega, by omega⟩)
  have hdirect := hfile.pointer ⟨content.length / 4096, by omega⟩ le_rfl
  have hplace : ∀ P : Place, P.InLayout → P.value s (v.inode 1) = UInt32.ofNat
    (first + content.length / 4096) →
      s.Refers 1 P (first + content.length / 4096) := fun P hP hvalue => by
    refine ⟨by omega, hbit, hP, ?_, ?_⟩
    · rw [hrecord, hvalue]
      exact hnonzero
    · rw [hrecord, hvalue, hnat]
  intro howns
  have htwice := howns.once _ _ _ _ _ (hplace (.direct ⟨content.length / 4096, by omega⟩) trivial
    hdirect)
    (hplace (.indirect 0 []) ⟨by simp, by simp⟩ hfile.newest)
  cases htwice.2

theorem block_in_two_places : ∃ s₀ s₁ s₂ t, FileSys.blank.doMkfs .blank = .ok s₀ ∧
    exec .blank (.touch .a 0) s₀ = .ok s₁ ∧ exec .blank (.fopen .a 0) s₁ = .ok s₂ ∧
    exec .blank (.fwrite 0 [0]) s₂ = .ok t ∧ ¬ t.OwnsExactly := by
  obtain ⟨s₀, s₁, s₂, hs₀, hs₁, hs₂, hopened⟩ := exists_opened Text.isFileName_a .blank .blank 0 0
    .blank
  obtain ⟨-, -, t, ht, hopened'⟩ | ⟨hbad, -⟩ := hopened.doFwrite (c := [0]) (by decide)
  · exact ⟨s₀, s₁, s₂, t, hs₀, by rw [exec, hs₁]; rfl, by rw [exec, hs₂]; rfl,
      by rw [exec, ht]; rfl,
      hopened'.not_ownsExactly (by simp)⟩
  · exact absurd ⟨by decide, by simp [FitsBuffer]⟩ hbad

end Ucas.Fs

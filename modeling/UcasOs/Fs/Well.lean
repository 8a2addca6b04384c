import UcasOs.Fs.Outcome

/-! No operation leaves a volume whose inodes are not inodes: the part of the invariants that the
lookups of the next operation rest on. -/

namespace Ucas.Fs
open Ucas.Lib Relation

def taken (v : Volume) : Set Nat := { q | q < 8192 ∧ v.inodeBit q = true }

namespace Volume
variable {v : Volume} {i : Inode} {dnum : UInt32} {d : Dentry} {r : Inode × Volume}

theorem Wrote.inodeBit (h : Wrote v i dnum d r) : r.2.inodeBit = v.inodeBit := by
  cases h <;> rfl

theorem Wrote.stores (h : Wrote v i dnum d r)
    (hslot : 2 ≤ dnum ∧ dnum ≤ i.iFnum + 2) :
    r.2.inode i.iNum.toNat = r.1 ∧ r.1.iFnum = i.iFnum + 1 := by
  cases h with
  | refused hrefuse =>
    simp only [← UInt32.not_le] at hrefuse
    exact absurd hslot (by tauto)
  | grown _ _ _ _ hi' =>
    subst hi'
    refine ⟨?_, by simp only [Inode.addEntry, Inode.addSize, Inode.point]⟩
    simp only [allotted, stored, Inode.addEntry_iNum, Inode.addSize_iNum, Inode.point_iNum,
      Function.update_self]
  | filled => exact ⟨by simp only [wrote, stored, Inode.addEntry_iNum, Function.update_self], rfl⟩
  | lost => exact ⟨by simp only [wrote, stored, Inode.addEntry_iNum, Function.update_self], rfl⟩

theorem Wrote.toSession (h : Wrote v i dnum d r) : r.2.toSession = v.toSession := by
  cases h <;> rfl

theorem Grew.inodeBit {here r : Inode × Volume} {k : Nat} (h : Grew here k r) :
    r.2.inodeBit = here.2.inodeBit := by
  cases h
  rfl

theorem firstClear_lt {f : Nat → Bool} {n q : Nat} (h : firstClear f n = some q) :
    q < n ∧ f q = false :=
  let ⟨hlt, hclear, _⟩ := firstClear_eq_some.mp h
  ⟨hlt, hclear⟩

theorem Made.inodeBit {e : Env} {fmode : UInt16} {content : Option (UInt32 → Block)} {q : Nat}
    {v₁ : Volume}
    (h : Made e v fmode content q v₁) :
    q < 8192 ∧ v.inodeBit q = false ∧ v₁.inodeBit = Function.update v.inodeBit q true := by
  cases h with
  | empty hq => exact ⟨(firstClear_lt hq).1, (firstClear_lt hq).2, rfl⟩
  | withBlock hq hb => exact ⟨(firstClear_lt hq).1, (firstClear_lt hq).2, rfl⟩

theorem Made.inode_of_ne {e : Env} {fmode : UInt16} {content : Option (UInt32 → Block)} {q p : Nat}
    {v₁ : Volume}
    (h : Made e v fmode content q v₁) (hp : p ≠ q) : v₁.inode p = v.inode p := by
  cases h with
  | empty => exact Function.update_of_ne hp _ _
  | withBlock => exact Function.update_of_ne hp _ _

theorem Made.block_of_bit {e : Env} {fmode : UInt16} {content : Option (UInt32 → Block)} {q b : Nat}
    {v₁ : Volume}
    (h : Made e v fmode content q v₁) (hb : v.blockBit b = true) : v₁.block b = v.block b := by
  cases h with
  | empty => rfl
  | withBlock _ hfree =>
    refine Function.update_of_ne (fun heq => ?_) _ _
    rw [heq, (firstClear_lt hfree).2] at hb
    cases hb

/-! The inodes in use after a step. -/

section Taken
variable {e : Env} {v₁ : Volume} {fmode : UInt16} {content : Option (UInt32 → Block)} {q p : Nat}
  (h : Made e v fmode content q v₁)
include h

theorem Made.taken_eq : taken v₁ = insert q (taken v) := by
  obtain ⟨hq, -, hbit⟩ := h.inodeBit
  ext x
  simp only [taken, hbit, Function.update_apply, Set.mem_ofPred_eq, Set.mem_insert_iff]
  by_cases hx : x = q
  · simp [hx, hq]
  · simp [hx]

theorem Made.mem_taken : p ∈ taken v₁ ↔ p = q ∨ p ∈ taken v := by
  rw [h.taken_eq, Set.mem_insert_iff]

theorem Made.notMem_taken : q ∉ taken v := fun hmem => by
  have hclear := h.inodeBit.2.1
  rw [hmem.2] at hclear
  cases hclear

theorem Made.ne_of_mem (hp : p ∈ taken v) : p ≠ q := fun heq => h.notMem_taken (heq ▸ hp)

end Taken

theorem Wrote.taken_eq (h : Wrote v i dnum d r) : taken r.2 = taken v := by
  rw [taken, taken, h.inodeBit]

theorem mem_taken_removed {c p : Nat} : p ∈ taken (v.removed c) ↔ p ∈ taken v ∧ p ≠ c := by
  simp only [taken, removed, Set.mem_ofPred_eq, Function.update_apply]
  split_ifs with hpc <;> simp [hpc]

end Volume

/-! What `write_dentry` leaves alone. -/

namespace Volume.Wrote
variable {v : Volume} {i : Inode} {dnum : UInt32} {d : Dentry} {r : Inode × Volume}
  (h : Wrote v i dnum d r)
include h

theorem inode_of_ne {q : Nat} (hq : q ≠ i.iNum.toNat) : r.2.inode q = v.inode q := by
  cases h with
  | refused => rfl
  | grown _ _ _ _ hi' =>
    subst hi'
    simp only [allotted, stored, Inode.addEntry_iNum, Inode.addSize_iNum, Inode.point_iNum,
      Function.update_of_ne hq]
  | filled => simp only [wrote, stored, Inode.addEntry_iNum, Function.update_of_ne hq]
  | lost => simp only [wrote, stored, Inode.addEntry_iNum, Function.update_of_ne hq]

theorem blockBit_mono {k : Nat} (hk : v.blockBit k = true) : r.2.blockBit k = true := by
  cases h with
  | grown => simp [allotted, stored, Function.update_apply, hk]
  | _ => exact hk

theorem block_of_ne {b : Nat} (hb : b ∈ dataBlocks) (hbit : v.blockBit b = true)
    (hne : ∀ k, (i.iDirectTable k).toNat ≠ b) : r.2.block b = v.block b := by
  cases h with
  | refused => rfl
  | @grown b' _ _ _ _ hb' _ =>
    have hbb : b ≠ b' := fun heq => by
      rw [heq, (firstClear_lt hb').2] at hbit
      cases hbit
    simp only [allotted, stored, Function.update_of_ne hbb]
  | filled => simp only [wrote, stored, Function.update_of_ne (Ne.symm (hne _))]
  | lost =>
    simp only [wrote, stored, Function.update_of_ne (show b ≠ 1048575 by have := hb.2; omega)]

theorem pointer (hlow : ∀ k, k < 266 → v.blockBit k = true) (k : Fin 12) :
    r.1.iDirectTable k = i.iDirectTable k ∨ i.iDirectTable k = 0 ∧
      v.blockBit (r.1.iDirectTable k).toNat = false ∧ r.2.blockBit (r.1.iDirectTable k).toNat =
      true := by
  cases h with
  | @grown b i' _ h12 hzero hb hi' =>
    have hnat : (UInt32.ofNat b).toNat = b :=
      toNat_of_mem_dataBlocks (firstClear_mem_dataBlocks hlow hb)
    rw [hi', Inode.addEntry_iDirectTable, Inode.addSize_iDirectTable, Inode.point_iDirectTable,
      Function.update_apply]
    split_ifs with hk
    · rw [hnat]
      exact .inr ⟨hk ▸ hzero, (firstClear_lt hb).2, by simp [allotted, stored]⟩
    · exact .inl rfl
  | _ => exact .inl rfl

theorem iFmode : r.1.iFmode = i.iFmode := by
  cases h with
  | grown _ _ _ _ hi' => simp [hi']
  | _ => rfl

theorem iLinksCnt : r.1.iLinksCnt = i.iLinksCnt := by
  cases h with
  | grown _ _ _ _ hi' => simp [hi']
  | _ => rfl

end Volume.Wrote

/-! Numbers once known stay known; the ones to add are those taken now. -/

section Taken
variable {V : Set Nat} {v u : Volume} (h : taken v ⊆ V) {q : Nat}
include h

theorem union_taken_of_eq (hbit : u.inodeBit = v.inodeBit) : V ∪ taken u = V :=
  Set.union_eq_self_of_subset_right fun _ ⟨hp, hset⟩ => h ⟨hp, hbit ▸ hset⟩

theorem union_taken_of_clear (hbit : u.inodeBit = Function.update v.inodeBit q false) :
    V ∪ taken u = V := by
  refine Set.union_eq_self_of_subset_right fun p ⟨hp, hset⟩ => ?_
  rw [hbit, Function.update_apply] at hset
  split_ifs at hset
  exact h ⟨hp, hset⟩

theorem union_taken_of_set (hq : q < 8192) (hbit : u.inodeBit = Function.update v.inodeBit q true) :
    V ∪ taken u = insert q V := by
  ext p
  constructor
  · rintro (hp | ⟨hp, hset⟩)
    · exact .inr hp
    · rw [hbit, Function.update_apply] at hset
      split_ifs at hset with hpq
      · exact .inl hpq
      · exact .inr (h ⟨hp, hset⟩)
  · rintro (rfl | hp)
    · exact .inr ⟨hq, by rw [hbit, Function.update_self]⟩
    · exact .inl hp

end Taken

namespace Well
variable {V V' : Set Nat} {v : Volume}

theorem mono (h : Well V v) (hV : V' ⊆ V) : Well V' v :=
  ⟨h.low, fun q hq => h.lt q (hV hq), fun q hq => h.num q (hV hq), fun q hq => h.within q (hV hq),
    h.dir⟩

section Parts
variable (h : Well V v) {i : Inode}
include h

theorem created {q : Nat} (hq : q < 8192) (hnum : i.iNum.toNat = q) (hi : Within dataBlocks i) :
    Well (insert q V) (v.created q i) := by
  refine ⟨h.low, ?_, fun p hp => ?_, fun p hp => ?_, h.dir⟩
  · rintro p (rfl | hp)
    · exact hq
    · exact h.lt p hp
  · simp only [Volume.created, Function.update_apply]
    split_ifs with hpq
    · exact hnum.trans hpq.symm
    · exact h.num p (hp.resolve_left hpq)
  · simp only [Volume.created, Function.update_apply]
    split_ifs with hpq
    · exact hi
    · exact h.within p (hp.resolve_left hpq)

theorem stored (hi : Within dataBlocks i) : Well V (v.stored i) := by
  refine ⟨h.low, h.lt, fun p hp => ?_, fun p hp => ?_, h.dir⟩
  · simp only [Volume.stored, Function.update_apply]
    split_ifs with hpi
    · exact hpi.symm
    · exact h.num p hp
  · simp only [Volume.stored, Function.update_apply]
    split_ifs with hpi
    · exact hi
    · exact h.within p hp

theorem allotted (b : Nat) (c : Block) : Well V (v.allotted b c) := by
  refine ⟨fun k hk => ?_, h.lt, h.num, h.within, h.dir⟩
  simp [Volume.allotted, Function.update_apply, h.low k hk]

theorem wrote (k : Nat) (c : Block) : Well V (v.wrote k c) := ⟨h.low, h.lt, h.num, h.within, h.dir⟩

theorem inSession (f : Session → Session) (hf : Within dataBlocks (f v.toSession).currentDir) :
    Well V (v.inSession f) := ⟨h.low, h.lt, h.num, h.within, hf⟩

theorem removed {q : Nat} (hq : q ∈ V) : Well V (v.removed q) := by
  refine ⟨fun k hk => ?_, h.lt, h.num, h.within, h.dir⟩
  simp only [Volume.removed, h.low k hk, Bool.true_and, decide_eq_true_eq]
  rintro p hp rfl
  obtain ⟨hne, m, rfl⟩ := Volume.ne_zero_of_mem_leading hp
  have := ((h.within q hq m).resolve_left hne).1
  omega

theorem wroteDentry {dnum : UInt32} {d : Dentry} {r : Inode × Volume} (hi : Within dataBlocks i)
    (hr : Volume.Wrote v i dnum d r) : Well V r.2 ∧ Within dataBlocks r.1 := by
  cases hr with
  | refused => exact ⟨h, hi⟩
  | @grown b i' hslot hlt hzero hb hi' =>
    have hwithin : Within dataBlocks i' := by
      intro k
      rw [hi', Inode.addEntry_iDirectTable, Inode.addSize_iDirectTable, Inode.point_iDirectTable,
        Function.update_apply]
      split_ifs
      · have hdata := Volume.firstClear_mem_dataBlocks h.low hb
        rw [toNat_of_mem_dataBlocks hdata]
        exact .inr hdata
      · exact hi k
    exact ⟨(h.stored hwithin).allotted _ _, hwithin⟩
  | filled =>
    have hwithin : Within dataBlocks i.addEntry := hi
    exact ⟨(h.stored hwithin).wrote _ _, hwithin⟩
  | lost =>
    have hwithin : Within dataBlocks i.addEntry := hi
    exact ⟨(h.stored hwithin).wrote _ _, hwithin⟩

theorem made {e : Env} {fmode : UInt16} {content : Option (UInt32 → Block)} {q : Nat} {v₁ : Volume}
    (hmade : Volume.Made e v fmode content q v₁) : Well (insert q V) v₁ := by
  cases hmade with
  | empty hq =>
    have hlt := (Volume.firstClear_lt hq).1
    exact h.created hlt (toNat_ofNat_of_lt (by omega)) (within_newInode _ _ _ _ _ (.inl rfl))
  | @withBlock _ _ b hq hb =>
    have hlt := (Volume.firstClear_lt hq).1
    have hdata := Volume.firstClear_mem_dataBlocks h.low hb
    refine (h.created hlt (toNat_ofNat_of_lt (by omega)) (within_newInode _ _ _ _ _
      (.inr ?_))).allotted _ _
    rw [toNat_of_mem_dataBlocks hdata]
    exact hdata

theorem of_load {n : UInt32} (hn : Known V n) (hload : v.load n = .ok i) :
    i.iNum.toNat < 8192 ∧ Within dataBlocks i := by
  obtain ⟨j, hj, hnum, hwithin⟩ := h.load hn
  obtain rfl := Except.ok.inj (hj.symm.trans hload)
  exact ⟨hnum, hwithin⟩

theorem of_mem {n : UInt32} (hn : inodeKey n ∈ V) (hload : v.load n = .ok i) :
    v.inode (inodeKey n) = i ∧ i.iNum.toNat = inodeKey n := by
  rw [Volume.load, if_pos (h.lt _ hn)] at hload
  obtain rfl := Except.ok.inj hload
  exact ⟨rfl, h.num _ hn⟩

theorem loaded {n : UInt32} (hn : Known V n) (hload : v.load n = .ok i) :
    i = zeroInode ∨ i.iNum.toNat ∈ V ∧ v.inode i.iNum.toNat = i := by
  obtain rfl | hq := hn
  · rw [v.load_notFound] at hload
    exact .inl (Except.ok.inj hload).symm
  · obtain ⟨hinode, hnum⟩ := h.of_mem hq hload
    rw [hnum]
    exact .inr ⟨hq, hinode⟩

end Parts

theorem change {e : Env} {op : Op} {v' : Volume} (h : Well V v) (htaken : taken v ⊆ V)
    (hc : Volume.Change V e v op v') : Well (V ∪ taken v') v' := by
  cases hc with
  | session f hdir =>
    rw [union_taken_of_eq htaken (u := v.inSession f) rfl]
    exact h.inSession f (hdir ▸ h.dir)
  | @create op name i v' hadds =>
    obtain @⟨n, i', fmode, content, q, v₁, hn, htarget, hload, hmakes, hmade, hwrote⟩ := hadds
    obtain ⟨hq, -, hbit⟩ := hmade.inodeBit
    rw [union_taken_of_set htaken hq (hwrote.inodeBit.trans hbit)]
    exact ((h.made hmade).wroteDentry (h.of_load hn hload).2 hwrote).1
  | link hlinked =>
    obtain ⟨hm, hn, hsrc, hsrcload, hfile, htarget, hload, hwrote⟩ := hlinked
    rw [union_taken_of_eq htaken hwrote.inodeBit]
    exact ((h.stored (i := Inode.addLink _) (h.of_load hm hsrcload).2).wroteDentry
      (h.of_load hn hload).2 hwrote).1
  | rename hrenames =>
    obtain ⟨hn, htarget, hload, hchild, hdnum, hfits, hwrote⟩ := hrenames
    rw [union_taken_of_eq htaken hwrote.inodeBit]
    exact (h.wroteDentry (h.of_load hn hload).2 hwrote).1
  | @rmdir path _ hremoves =>
    obtain @⟨name, n, c, dnum, i, i', v₁, hn, htarget, hload, hchild, hcV, hdnum, hwrote⟩ :=
      hremoves
    rw [union_taken_of_clear htaken (u := v₁.stored i'.dropEntry) hwrote.inodeBit]
    obtain ⟨hv₁, hi'⟩ := (h.removed hcV).wroteDentry (h.of_load hn hload).2 hwrote
    exact hv₁.stored (i := i'.dropEntry) hi'
  | @cd name i hi =>
    rw [union_taken_of_eq htaken (u := v.inSession _) rfl]
    refine h.inSession _ ?_
    obtain rfl | ⟨q, hq, rfl⟩ := hi
    · exact h.dir
    · exact h.within q hq
  | @fwrite fd data k i i' v₁ v' first last buffer hk hknown hload hgrow hspan hwrite =>
    have hgrown := Volume.grow_invariant
      (I := fun x => Well V x.2 ∧ x.1.iNum.toNat < 8192 ∧ Within dataBlocks x.1 ∧
        x.2.inodeBit = v.inodeBit)
      (fun x hx => hx.1.low) (fun x hx => hx.2.1) ?_ ⟨h, (h.of_load hknown hload).1,
        (h.of_load hknown hload).2, rfl⟩ hgrow
    · obtain ⟨hv₁, -, -, hbit⟩ := hgrown
      obtain ⟨f, hf, -⟩ := Volume.writeSpan_spec hwrite
      have hbit' : v'.inodeBit = v.inodeBit := by
        rw [hf]
        exact hbit
      rw [union_taken_of_eq htaken hbit', hf]
      exact ⟨hv₁.low, hv₁.lt, hv₁.num, hv₁.within, hv₁.dir⟩
    · rintro x m r ⟨hx, hnum, hwithin, hbit⟩ hgrew
      have hgrown := hgrew.grown hx.low hwithin
      refine ⟨?_, hgrown.iNum ▸ hnum, hgrown.within, hgrew.inodeBit.trans hbit⟩
      cases hgrew with
      | intro hk hb hi => exact (hx.allotted _ _).stored hgrown.within

end Well

theorem well_mkfs (e : Env) (s : FileSys) : Well {0} (Volume.mkfs e s) := by
  have hroot : Within dataBlocks (rootOf e) :=
    within_newInode _ _ _ _ _ (.inr ⟨by decide, by decide⟩)
  have hinode : (Volume.mkfs e s).inode 0 = rootOf e := by simp [Volume.mkfs]
  refine ⟨fun k hk => ?_, ?_, ?_, ?_, hroot⟩
  · simp [Volume.mkfs]
    omega
  · rintro q rfl
    omega
  · rintro q rfl
    rw [hinode]
    rfl
  · rintro q rfl
    rw [hinode]
    exact hroot

theorem taken_mkfs (e : Env) (s : FileSys) : taken (Volume.mkfs e s) = {0} := by
  ext q
  simp [taken, Volume.mkfs]
  omega

def Step (C : Op → FileSys → Prop) (s t : FileSys) : Prop := ∃ e op, C op s ∧ exec e op s = .ok t

/-- The states of the runs that start with `do_mkfs`, whatever was on the card and in memory. -/
def Reach (C : Op → FileSys → Prop) (t : FileSys) : Prop :=
  ∃ (e : Env) (s₀ s : FileSys), s₀.doMkfs e = .ok s ∧ ReflTransGen (Step C) s t

theorem Reach.mono {C D : Op → FileSys → Prop} (hCD : ∀ op s, C op s → D op s) {t : FileSys}
    (h : Reach C t) : Reach D t := by
  obtain ⟨e, s₀, s, hs, hpath⟩ := h
  refine ⟨e, s₀, s, hs, hpath.lift id fun s t hst => ?_⟩
  obtain ⟨e, op, hop, hexec⟩ := hst
  exact ⟨e, op, hCD op s hop, hexec⟩

theorem Reach.invariant {C : Op → FileSys → Prop} {I : Volume → Prop}
    (hinit : ∀ e s, I (Volume.mkfs e s))
    (hstep : ∀ {s t : FileSys} {v : Volume} {e : Env} {op : Op}, Shows s v → I v → C op s →
    exec e op s = .ok t →
      ∃ v', Shows t v' ∧ I v') {t : FileSys} (h : Reach C t) : ∃ v, Shows t v ∧ I v := by
  obtain ⟨e, s₀, s, hmkfs, hrun⟩ := h
  refine invariant_of_path (I := fun s => ∃ v, Shows s v ∧ I v) ?_ ?_ hrun
  · rintro s t ⟨v, hv, hI⟩ ⟨e, op, hC, hexec⟩
    exact hstep hv hI hC hexec
  · obtain ⟨t, ht, hshows⟩ := doMkfs_shows e s₀
    obtain rfl := Except.ok.inj (hmkfs.symm.trans ht)
    exact ⟨_, hshows, hinit e s₀⟩

namespace FileSys

def volume (s : FileSys) : Volume where
  toSession := s.toSession
  inode q := s.syncFromDiskInode (UInt32.ofNat q)
  block k := s.readBlock (UInt32.ofNat k)
  blockBit := s.blockbmp.bit
  inodeBit := s.inodebmp.bit
  freeBlocks := s.sFreeBlocksCnt
  freeInodes := s.sFreeInodeCnt

structure Mounted (s : FileSys) : Prop extends Synced s where
  counters : s.superblock = superblockOf s.sFreeBlocksCnt s.sFreeInodeCnt
  tail : ∀ k, 1024 ≤ k → s.inodebmp.get k = 0
  tables : ∀ k, k < 266 → s.blockbmp.bit k = true

theorem Mounted.shows {s : FileSys} (h : s.Mounted) : Shows s s.volume :=
  ⟨h.toSynced, h.counters, h.tail, fun _ _ => rfl, fun _ _ => rfl, fun _ _ => rfl, fun _ _ _ => rfl,
    rfl⟩

end FileSys

theorem Shows.mounted {s : FileSys} {v : Volume} (h : Shows s v) (hlow : ∀ k, k < 266 →
    v.blockBit k = true) :
    s.Mounted := by
  refine ⟨h.toSynced, ?_, h.tail, fun k hk => ?_⟩
  · rw [FileSys.sFreeBlocksCnt, FileSys.sFreeInodeCnt, h.counters, superblockOf_word_blocks,
      superblockOf_word_inodes]
  · rw [← h.blockBit k (by omega)]
    exact hlow k hk

def FileSys.Allocated (s : FileSys) (n : UInt32) : Prop :=
  inodeKey n < 8192 ∧ s.inodebmp.bit (inodeKey n) = true

def Op.Regular (op : Op) (s : FileSys) : Prop :=
  s.Meets (fun n => n = notFound ∨ s.Allocated n) op ∧ s.Room op ∧ s.Fits op

theorem Op.Regular.known {s : FileSys} {v : Volume} (h : Shows s v) {n : UInt32}
    (hn : n = notFound ∨ s.Allocated n) :
    Known (taken v) n :=
  hn.imp_right fun hn => ⟨hn.1, by rw [h.inodeBit _ hn.1, hn.2]⟩

theorem Op.Regular.does {s t : FileSys} {v : Volume} {e : Env} {op : Op} (hop : op.Regular s)
    (h : Shows s v)
    (hw : Well (taken v) v) (hrmdir : Volume.Removable (taken v) v op)
    (hexec : exec e op s = .ok t) :
    ∃ v', Shows t v' ∧ Volume.Does (taken v) e v op v' ∧ Well (taken v') v' := by
  obtain ⟨v', hv', hdoes⟩ := exec_does h hw (hop.1.mono fun _ => Op.Regular.known h) hop.2.1 hop.2.2
    hrmdir hexec
  exact ⟨v', hv', hdoes, (hw.change subset_rfl hdoes.change).mono Set.subset_union_right⟩

theorem Op.Regular.renames {s t : FileSys} {v : Volume} {e : Env} {oldName newName : Text}
    (hop : (Op.rename oldName newName).Regular s) (h : Shows s v) (hw : Well (taken v) v)
    (hexec : exec e (.rename oldName newName) s = .ok t) :
    ∃ v', Shows t v' ∧ Volume.Renames (taken v) v oldName newName v' ∧ Well (taken v') v' := by
  obtain ⟨v', hv', hrenames⟩ := exec_renames h hw (hop.1.mono fun _ => Op.Regular.known h) hop.2.1
    hexec
  exact ⟨v', hv', hrenames, (hw.change subset_rfl (.rename (e := e) hrenames)).mono
    Set.subset_union_right⟩

end Ucas.Fs

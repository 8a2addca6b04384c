import UcasOs.Fs.Resolve
import UcasOs.Fs.Owned
import UcasOs.Fs.Ls
import Mathlib.Data.Set.Card

/-! Directories that only `do_mkdir` and `do_touch` have written to, whether or not their paths led
anywhere. Each has its entries in its first slots, one behind the other, and the record of the root
that `do_mkfs` left in memory still leads to inode 0. -/

namespace Ucas.Fs
open Ucas.Lib

def Op.MakesOnly : Op → Prop
  | .mkdir _ _ | .touch _ _ | .cd _ => True
  | _ => False

theorem Op.MakesOnly.spells {op : Op} (h : op.MakesOnly) : op.Spells := by
  cases op with
  | mkdir | touch | cd => trivial
  | _ => exact h.elim

namespace Volume.Wrote
variable {v : Volume} {i : Inode} {dnum : UInt32} {d : Dentry} {r : Inode × Volume}

theorem slot_eq (dnum : UInt32) :
    (dnum / 32).toNat = dnum.toNat / 32 ∧ (dnum % 32).toNat = dnum.toNat % 32 := by
  simp only [UInt32.toNat_div, UInt32.toNat_mod, UInt32.reduceToNat, and_self]

theorem first_block (h : Wrote v i dnum d r) {p : Nat} (hholds : v.Holds p i)
    (hwithin : Within dataBlocks i)
    (hne : i.iDirectTable 0 ≠ 0) (hslot : 2 ≤ dnum ∧ dnum ≤ i.iFnum + 2) :
    r.1.iDirectTable 0 = i.iDirectTable 0 ∧ r.2.block (i.iDirectTable 0).toNat =
      if dnum.toNat < 32 then putDentry (v.block (i.iDirectTable 0).toNat) dnum.toNat d
      else v.block (i.iDirectTable 0).toNat := by
  obtain ⟨hmajor, hminor⟩ := slot_eq dnum
  have hbit := hholds.bit 0 hne
  have hdata := (hwithin 0).resolve_left hne
  cases h with
  | refused hrefuse =>
    simp only [← UInt32.not_le] at hrefuse
    exact absurd hslot (by tauto)
  | @grown b i' _ h12 hzero hb hi' =>
    -- the block that is missing is not the first one
    have hm : (⟨_, h12⟩ : Fin 12) ≠ 0 := fun heq => hne (heq ▸ hzero)
    have hge : ¬ dnum.toNat < 32 :=
      fun hlt => hm (Fin.ext (by simp only [hmajor, Fin.val_zero]; omega))
    have hnew : (i.iDirectTable 0).toNat ≠ b := fun heq => by
      rw [heq, (firstClear_lt hb).2] at hbit
      cases hbit
    refine ⟨?_, ?_⟩
    · rw [hi', Inode.addEntry_iDirectTable, Inode.addSize_iDirectTable, Inode.point_iDirectTable,
        Function.update_of_ne hm.symm]
    · rw [if_neg hge]
      simp only [allotted, stored, Function.update_of_ne hnew]
  | filled _ h12 hne' =>
    refine ⟨rfl, ?_⟩
    by_cases hlt : dnum.toNat < 32
    · have hm : (⟨_, h12⟩ : Fin 12) = 0 := Fin.ext (by simp only [hmajor, Fin.val_zero]; omega)
      rw [if_pos hlt, hm, hminor, Nat.mod_eq_of_lt hlt]
      simp only [wrote, stored, Function.update_self]
    · have hm : (⟨_, h12⟩ : Fin 12) ≠ 0 := fun heq => by
        have hval := congrArg Fin.val heq
        simp only [hmajor, Fin.val_zero] at hval
        omega
      have hother : (i.iDirectTable 0).toNat ≠ (i.iDirectTable ⟨_, h12⟩).toNat := fun heq =>
        hm (hholds.apart 0 hne _ (UInt32.toNat_inj.mp heq).symm)
      rw [if_neg hlt]
      simp only [wrote, stored, Function.update_of_ne hother]
  | lost _ h12 =>
    refine ⟨rfl, ?_⟩
    rw [if_neg (by omega)]
    simp only [wrote, stored, Function.update_of_ne
      (show (i.iDirectTable 0).toNat ≠ 1048575 by have := hdata.2; omega)]

theorem first_block_new (h : Wrote v i dnum d r) (hlow : ∀ k, k < 266 → v.blockBit k = true)
    (hzero : i.iDirectTable 0 = 0)
    (hne : r.1.iDirectTable 0 ≠ 0) :
    r.2.block (r.1.iDirectTable 0).toNat = putDentry .zero (dnum % 32).toNat d := by
  cases h with
  | @grown b i' _ h12 _ hb hi' =>
    have hnat : (UInt32.ofNat b).toNat = b :=
      toNat_of_mem_dataBlocks (firstClear_mem_dataBlocks hlow hb)
    have htable : i'.iDirectTable 0 = UInt32.ofNat b := by
      rw [hi', Inode.addEntry_iDirectTable, Inode.addSize_iDirectTable, Inode.point_iDirectTable,
        Function.update_apply] at hne ⊢
      split_ifs at hne ⊢
      · rfl
      · exact absurd hzero hne
    dsimp only
    rw [htable, hnat]
    simp only [allotted, Function.update_self]
  | _ => exact absurd hzero hne

end Volume.Wrote

structure FirstBlock (v : Volume) (i : Inode) : Prop where
  short : i.iDirectTable 0 ≠ 0 → ∀ j < 32, (dentryAt (v.block (i.iDirectTable 0).toNat)
    j).dName.length < 64
  present : sIsdir i.iFmode = true → i.iDirectTable 0 ≠ 0
  packed : sIsdir i.iFmode = true → ∀ j < 32, live (v.block (i.iDirectTable 0).toNat) j = decide
    (j < i.iFnum.toNat + 2)

namespace FirstBlock
variable {v u : Volume} {i : Inode}

theorem frame (h : FirstBlock v i) (hblock : i.iDirectTable 0 ≠ 0 →
    u.block (i.iDirectTable 0).toNat = v.block (i.iDirectTable 0).toNat) :
    FirstBlock u i := by
  refine ⟨fun hne => ?_, h.present, fun hdir => ?_⟩
  · rw [hblock hne]
    exact h.short hne
  · rw [hblock (h.present hdir)]
    exact h.packed hdir

theorem of_zero (hzero : i.iDirectTable 0 = 0) (hmode : sIsdir i.iFmode = false) : FirstBlock v i :=
  ⟨fun hne => absurd hzero hne, fun hdir => absurd hdir (by rw [hmode]; decide), fun hdir =>
    absurd hdir (by rw [hmode]; decide)⟩

theorem of_directoryBlock (hne : i.iDirectTable 0 ≠ 0) (hfnum : i.iFnum = 0) {n p : UInt32}
    (hblock : v.block (i.iDirectTable 0).toNat = directoryBlock n p) : FirstBlock v i := by
  refine ⟨fun _ j hj => ?_, fun _ => hne, fun _ j hj => ?_⟩
  · rw [hblock, dentryAt_directoryBlock _ _ hj]
    split_ifs
    · rw [dName_fill (by decide)]
      decide
    · rw [dName_fill (by decide)]
      decide
    · rw [dName_zero]
      decide
  · rw [hblock, live_directoryBlock _ _ hj, hfnum]
    rfl

theorem wroteDentry (h : FirstBlock v i) (hlow : ∀ k, k < 266 → v.blockBit k = true) {p : Nat}
    (hholds : v.Holds p i)
    (hwithin : Within dataBlocks i) (hcount : i.iFnum.toNat ≤ 8192) {d : Dentry}
    (hinum : d.dInum ≠ 0)
    (hname : d.dName.length < 64) {r : Inode × Volume} (hr : Volume.Wrote v i (i.iFnum + 2) d r) :
    FirstBlock r.2 r.1 := by
  have hslot : (i.iFnum + 2).toNat = i.iFnum.toNat + 2 := by
    simp only [UInt32.toNat_add, UInt32.reduceToNat]
    omega
  have hbound : 2 ≤ i.iFnum + 2 ∧ i.iFnum + 2 ≤ i.iFnum + 2 :=
    ⟨UInt32.le_iff_toNat_le.mpr (by rw [hslot]; simp), UInt32.le_refl _⟩
  by_cases hzero : i.iDirectTable 0 = 0
  · have hmode : sIsdir i.iFmode = false := by
      rw [← Bool.not_eq_true]
      exact fun hdir => h.present hdir hzero
    rw [← hr.iFmode] at hmode
    refine ⟨fun hne j hj => ?_, fun hdir => absurd hdir (by rw [hmode]; decide), fun hdir =>
      absurd hdir (by rw [hmode]; decide)⟩
    rw [hr.first_block_new hlow hzero hne, dentryAt_putDentry _ _ hj, dentryAt_zero]
    split_ifs
    · exact hname
    · rw [dName_zero]
      decide
  · obtain ⟨htable, hblock⟩ := hr.first_block hholds hwithin hzero hbound
    have hfnum : r.1.iFnum.toNat = i.iFnum.toNat + 1 := by
      rw [(hr.stores hbound).2]
      simp only [UInt32.toNat_add, UInt32.reduceToNat]
      omega
    rw [hslot] at hblock
    refine ⟨fun _ j hj => ?_, fun _ => htable ▸ hzero, fun hdir j hj => ?_⟩
    · rw [htable, hblock]
      split_ifs
      · rw [dentryAt_putDentry _ _ hj]
        split_ifs
        · exact hname
        · exact h.short hzero j hj
      · exact h.short hzero j hj
    · rw [hr.iFmode] at hdir
      rw [htable, hblock, hfnum]
      have hold := h.packed hdir j hj
      split_ifs with hlt
      · rw [live, dentryAt_putDentry _ _ hj]
        split_ifs with hj'
        · simp [Dentry.isEmpty, hinum, hj']
        · rw [← live, hold]
          exact decide_eq_decide.mpr (by omega)
      · rw [hold]
        exact decide_eq_decide.mpr (by omega)

end FirstBlock

structure RootCopy (v : Volume) : Prop where
  table : v.rootInode.iDirectTable 0 = 266
  bit : v.blockBit 266 = true
  named : Named (v.block 266)
  dot : dentryAt (v.block 266) 0 = Dentry.fill .zero 0 .dot
  first : ∀ q ∈ taken v, ∀ k, (v.inode q).iDirectTable k = 266 → k = 0

namespace RootCopy
variable {v u : Volume}

theorem made (h : RootCopy v) {e : Env} {fmode : UInt16} {content : Option (UInt32 → Block)}
    {q : Nat}
    (hmade : Volume.Made e v fmode content q u) : RootCopy u := by
  have hblock : u.block 266 = v.block 266 := hmade.block_of_bit h.bit
  have hsession : u.toSession = v.toSession := by cases hmade <;> rfl
  obtain ⟨hq, -, hinodeBit⟩ := hmade.inodeBit
  refine ⟨?_, hmade.low h.bit, hblock ▸ h.named, hblock ▸ h.dot, fun p hp k hk => ?_⟩
  · rw [hsession]
    exact h.table
  · by_cases hpq : p = q
    · -- a new inode has at most one block
      by_contra hk0
      have hzero : (u.inode p).iDirectTable k = 0 := by
        subst hpq
        cases hmade with
        | empty => simp [Volume.created, newInode]
        | withBlock => simp [Volume.created, Volume.allotted, newInode, Function.update_of_ne hk0]
      rw [hzero] at hk
      exact absurd hk (by decide)
    · rw [hmade.inode_of_ne hpq] at hk
      refine h.first p ⟨hp.1, ?_⟩ k hk
      rw [← hp.2, hinodeBit, Function.update_of_ne hpq]

theorem wroteDentry (h : RootCopy v) (hlow : ∀ k, k < 266 → v.blockBit k = true) {i : Inode}
    (hholds : v.Holds i.iNum.toNat i) (hwithin : Within dataBlocks i) (hi : ∀ k, i.iDirectTable
    k = 266 → k = 0) {dnum : UInt32}
    (hslot : 2 ≤ dnum ∧ dnum ≤ i.iFnum + 2) {d : Dentry} (hd : d.Terminated) {r : Inode × Volume}
    (hr : Volume.Wrote v i dnum d r) : RootCopy r.2 := by
  have hblock : Named (r.2.block 266) ∧ dentryAt (r.2.block 266) 0 = dentryAt (v.block 266) 0 := by
    by_cases hroot : i.iDirectTable 0 = 266
    · obtain ⟨-, hfirst⟩ := hr.first_block hholds hwithin (by rw [hroot]; decide) hslot
      rw [hroot, show UInt32.toNat 266 = 266 from rfl] at hfirst
      have htwo : 2 ≤ dnum.toNat := UInt32.le_iff_toNat_le.mp hslot.1
      rw [hfirst]
      split_ifs
      · exact ⟨h.named.put hd, by rw [dentryAt_putDentry _ _ (by omega), if_neg (by omega)]⟩
      · exact ⟨h.named, rfl⟩
    · have hne : ∀ k, (i.iDirectTable k).toNat ≠ 266 := fun k heq => by
        have hk : i.iDirectTable k = 266 := UInt32.toNat_inj.mp heq
        exact hroot (hi k hk ▸ hk)
      rw [hr.block_of_ne ⟨le_rfl, by omega⟩ h.bit hne]
      exact ⟨h.named, rfl⟩
  refine ⟨?_, hr.blockBit_mono h.bit, hblock.1, hblock.2.trans h.dot, fun q hq k hk => ?_⟩
  · rw [hr.toSession]
    exact h.table
  · by_cases hqi : q = i.iNum.toNat
    · rw [hqi, (hr.stores hslot).1] at hk
      obtain hsame | ⟨-, hclear, -⟩ := hr.pointer hlow k
      · exact hi k (hsame ▸ hk)
      · rw [hk, show UInt32.toNat 266 = 266 from rfl, h.bit] at hclear
        cases hclear
    · rw [hr.inode_of_ne hqi] at hk
      exact h.first q ⟨hq.1, hr.inodeBit ▸ hq.2⟩ k hk

end RootCopy

structure Packed (v : Volume) : Prop where
  readable : ∃ W, Readable (taken v) W v
  owned : v.Owned
  first : ∀ q ∈ taken v, FirstBlock v (v.inode q)
  count : ∀ q ∈ taken v, (v.inode q).iFnum.toNat ≤ (taken v).ncard
  root : RootCopy v

theorem finite_taken (v : Volume) : (taken v).Finite :=
  (Set.finite_Iio 8192).subset fun _ hq => hq.1

theorem ncard_taken_le (v : Volume) : (taken v).ncard ≤ 8192 := by
  have hcard : (Set.Iio 8192 : Set Nat).ncard = 8192 := by
    rw [Set.ncard_eq_toFinset_card', Set.toFinset_Iio, Nat.card_Iio]
  exact hcard ▸ Set.ncard_le_ncard (fun _ hq => Set.mem_Iio.mpr hq.1) (Set.finite_Iio 8192)

section Taken
variable {e : Env} {v u : Volume} {fmode : UInt16} {content : Option (UInt32 → Block)} {q : Nat}
  (h : Volume.Made e v fmode content q u)
include h

theorem Volume.Made.ncard_taken : (taken u).ncard = (taken v).ncard + 1 := by
  rw [h.taken_eq, Set.ncard_insert_of_notMem h.notMem_taken (finite_taken v)]

end Taken

namespace Packed
variable {v : Volume}

theorem well (h : Packed v) : Well (taken v) v := h.readable.elim fun _ hre => hre.2.1

theorem root_taken (h : Packed v) : 0 ∈ taken v := h.readable.elim fun _ hre => hre.2.2.1.root

theorem made (h : Packed v) {e : Env} {op : Op} (hop : op.MakesOnly) {n : UInt32} {fmode : UInt16}
    {content : Option (UInt32 → Block)} (hmakes : Volume.Makes n op fmode content) {q : Nat}
    {u : Volume}
    (hmade : Volume.Made e v fmode content q u) {p : Nat} (hp : p ∈ taken u) :
    FirstBlock u (u.inode p) ∧ (u.inode p).iFnum.toNat < (taken u).ncard := by
  rw [hmade.ncard_taken]
  by_cases hpq : p = q
  · subst hpq
    have hfnum : (u.inode p).iFnum = 0 := by
      cases hmade <;> simp [Volume.created, Volume.allotted, newInode]
    refine ⟨?_, by rw [hfnum]; simp⟩
    cases hmakes with
    | touch name mode =>
      cases hmade with
      | empty =>
        exact .of_zero (by simp [Volume.created, newInode])
          (by simp [Volume.created, newInode, sIsdir_sIfreg])
    | mkdir path mode =>
      cases hmade with
      | @withBlock _ _ b _ hb =>
        have hdata := Volume.firstClear_mem_dataBlocks h.well.low hb
        have hnat : (UInt32.ofNat b).toNat = b := toNat_of_mem_dataBlocks hdata
        have htable : ((v.created p (newInode e (sIfdir ||| mode) 4096 (UInt32.ofNat b)
          (UInt32.ofNat p))).allotted b
            (directoryBlock (UInt32.ofNat p) n)).inode p = newInode e (sIfdir ||| mode) 4096
                (UInt32.ofNat b) (UInt32.ofNat p) := by
          simp [Volume.created, Volume.allotted]
        refine .of_directoryBlock (n := UInt32.ofNat p) (p := n) (fun hzero => ?_) hfnum ?_
        · rw [htable] at hzero
          have hb0 := congrArg UInt32.toNat (show UInt32.ofNat b = 0 from hzero)
          rw [hnat] at hb0
          exact absurd hdata.1 (by rw [hb0]; decide)
        · rw [htable, show (newInode e (sIfdir ||| mode) 4096 (UInt32.ofNat b)
            (UInt32.ofNat p)).iDirectTable 0 = UInt32.ofNat b from rfl,
            hnat]
          simp [Volume.allotted]
    | symlink => exact hop.elim
  · have hpv : p ∈ taken v := (hmade.taken_eq ▸ hp).resolve_left hpq
    rw [hmade.inode_of_ne hpq]
    exact ⟨(h.first p hpv).frame fun hne => hmade.block_of_bit ((h.owned p hpv).bit 0 hne),
      Nat.lt_succ_of_le (h.count p hpv)⟩

section Create
variable (h : Packed v) {e : Env} {op : Op} (hop : op.MakesOnly) {n : UInt32} {name : Text}
  (hname : name.length < 64)
  (hn : Known (taken v) n) {i i' : Inode} (hload : v.load n = .ok i) {fmode : UInt16}
    {content : Option (UInt32 → Block)}
  {q : Nat} {v₁ v' : Volume}
include h hn hload

theorem count_loaded : i.iFnum.toNat ≤ (taken v).ncard := by
  obtain rfl | ⟨hmem, hinode⟩ := h.well.loaded hn hload
  · rw [zeroInode_eq]
    exact Nat.zero_le _
  · rw [← hinode]
    exact h.count _ hmem

theorem loaded_made (hmade : Volume.Made e v fmode content q v₁) :
    v₁.Holds i.iNum.toNat i ∧ FirstBlock v₁ i ∧ ∀ k, i.iDirectTable k = 266 → k = 0 := by
  have howned := h.owned.made h.well.low hmade
  obtain rfl | ⟨hmem, hinode⟩ := h.well.loaded hn hload
  · refine ⟨.of_zero _ _ zeroInode_iDirectTable, .of_zero (zeroInode_iDirectTable 0)
      (by rw [zeroInode_eq]; decide), fun k hk => ?_⟩
    rw [zeroInode_iDirectTable] at hk
    exact absurd hk (by decide)
  · have hsame : v₁.inode i.iNum.toNat = i := (hmade.inode_of_ne (hmade.ne_of_mem hmem)).trans
      hinode
    have hmem₁ : i.iNum.toNat ∈ taken v₁ := hmade.mem_taken.mpr (.inr hmem)
    have hholds := howned _ hmem₁
    rw [hsame] at hholds
    refine ⟨hholds, ?_, fun k hk => ?_⟩
    · have hfirst := h.first _ hmem
      rw [hinode] at hfirst
      refine hfirst.frame fun hne => hmade.block_of_bit ?_
      rw [← hinode] at hne ⊢
      exact (h.owned _ hmem).bit 0 hne
    · rw [← hinode] at hk
      exact h.root.first _ hmem k hk

theorem next_slot :
    (i.iFnum + 2).toNat = i.iFnum.toNat + 2 ∧ 2 ≤ i.iFnum + 2 ∧ i.iFnum + 2 ≤ i.iFnum + 2 := by
  have hcount := (h.count_loaded hn hload).trans (ncard_taken_le v)
  have hslot : (i.iFnum + 2).toNat = i.iFnum.toNat + 2 := by
    simp only [UInt32.toNat_add, UInt32.reduceToNat]
    omega
  exact ⟨hslot, UInt32.le_iff_toNat_le.mpr (by rw [hslot]; simp), UInt32.le_refl _⟩

omit hn hload in
theorem new_ne_zero (hmade : Volume.Made e v fmode content q v₁) : UInt32.ofNat q ≠ 0 := by
  obtain ⟨hq, hclear, -⟩ := hmade.inodeBit
  intro hzero
  have hnat := congrArg UInt32.toNat hzero
  rw [toNat_ofNat_of_lt (by omega), show UInt32.toNat 0 = 0 from rfl] at hnat
  rw [hnat, h.root_taken.2] at hclear
  cases hclear

theorem block_kept (hmade : Volume.Made e v fmode content q v₁) {dnum : UInt32} {d : Dentry}
    (hwrote : Volume.Wrote v₁ i dnum d (i', v')) {p : Nat} (hp : p ∈ taken v₁)
    (hne : p ≠ i.iNum.toNat) {k : Fin 12}
    (hk : (v₁.inode p).iDirectTable k ≠ 0) :
    v'.block ((v₁.inode p).iDirectTable k).toNat = v₁.block ((v₁.inode p).iDirectTable k).toNat :=
    by
  have hholds := (h.loaded_made hn hload hmade).1
  have howned := h.owned.made h.well.low hmade p hp
  have hdata : ((v₁.inode p).iDirectTable k).toNat ∈ dataBlocks :=
    ((h.well.made hmade).within p (hmade.taken_eq ▸ hp) k).resolve_left hk
  refine hwrote.block_of_ne hdata (howned.bit k hk) fun k' heq => ?_
  have hsame : (v₁.inode p).iDirectTable k = i.iDirectTable k' := UInt32.toNat_inj.mp heq.symm
  exact hholds.other k' (hsame ▸ hk) p hp hne k hsame

end Create

theorem create (h : Packed v) {e : Env} {op : Op} (hop : op.MakesOnly) {n : UInt32} {name : Text}
    (hname : name.length < 64)
    (hn : Known (taken v) n) {i i' : Inode} (hload : v.load n = .ok i) {fmode : UInt16}
    {content : Option (UInt32 → Block)}
    (hmakes : Volume.Makes n op fmode content) {q : Nat} {v₁ v' : Volume} (hmade : Volume.Made e v
    fmode content q v₁)
    (hwrote : Volume.Wrote v₁ i (i.iFnum + 2) (e.stack.fill (UInt32.ofNat q) name) (i', v')) :
    (∀ p ∈ taken v', FirstBlock v' (v'.inode p)) ∧
    (∀ p ∈ taken v', (v'.inode p).iFnum.toNat ≤ (taken v').ncard) ∧
      RootCopy v' := by
  obtain ⟨hholds, hfirst, hroot⟩ := h.loaded_made hn hload hmade
  obtain ⟨-, hslot⟩ := h.next_slot hn hload
  have hlow : ∀ k, k < 266 → v₁.blockBit k = true := fun k hk => hmade.low (h.well.low k hk)
  have hwithin := (h.well.of_load hn hload).2
  have htaken : taken v' = taken v₁ := hwrote.taken_eq
  have hself : v'.inode i.iNum.toNat = i' := (hwrote.stores hslot).1
  rw [htaken]
  refine ⟨fun p hp => ?_, fun p hp => ?_, h.root.made hmade |>.wroteDentry hlow hholds hwithin hroot
    hslot
    (terminated_fill (by omega)) hwrote⟩
  · by_cases hpi : p = i.iNum.toNat
    · rw [hpi, hself]
      refine hfirst.wroteDentry hlow hholds hwithin ((h.count_loaded hn hload).trans
        (ncard_taken_le v)) ?_ ?_ hwrote
      · rw [dInum_fill]
        exact h.new_ne_zero hmade
      · rw [dName_fill (by omega)]
        exact hname
    · rw [hwrote.inode_of_ne hpi]
      exact (h.made hop hmakes hmade hp).1.frame fun hne => h.block_kept hn hload hmade hwrote hp
        hpi hne
  · by_cases hpi : p = i.iNum.toNat
    · have hle := ncard_taken_le v
      have hcount := h.count_loaded hn hload
      have hnext : (i.iFnum + 1).toNat = i.iFnum.toNat + 1 := by
        simp only [UInt32.toNat_add, UInt32.reduceToNat]
        omega
      rw [hpi, hself, (hwrote.stores hslot).2, hnext, hmade.ncard_taken]
      omega
    · rw [hwrote.inode_of_ne hpi]
      exact (h.made hop hmakes hmade hp).2.le

end Packed

theorem packed_mkfs (e : Env) (s : FileSys) : Packed (Volume.mkfs e s) := by
  have htaken := taken_mkfs e s
  have hinode : (Volume.mkfs e s).inode 0 = rootOf e := by simp [Volume.mkfs]
  have hblock := Volume.mkfs_block (e := e) (s := s)
  refine ⟨⟨_, htaken ▸ readable_mkfs e s⟩, owned_mkfs e s, ?_, ?_, ?_⟩
  · rw [htaken]
    rintro q rfl
    rw [hinode]
    exact .of_directoryBlock (rootOf_direct_zero e) rfl hblock
  · rw [htaken]
    rintro q rfl
    rw [hinode]
    exact Nat.zero_le _
  · rw [block_rootOf] at hblock
    refine ⟨rfl, rfl, hblock ▸ named_directoryBlock 0 0, ?_, ?_⟩
    · rw [hblock, dentryAt_directoryBlock _ _ (by omega), if_neg (by omega), if_pos rfl]
    · rw [htaken]
      rintro q rfl k hk
      rw [hinode] at hk
      by_contra hk0
      rw [rootOf_direct_of_ne e hk0] at hk
      exact absurd hk (by decide)

theorem Packed.of_change {s : FileSys} {v v' : Volume} {e : Env} {op : Op} (h : Packed v)
    (hs : Shows s v) (hop : op.MakesOnly)
    (hc : Volume.Change (taken v) e v op v') (hsub : taken v ⊆ taken v')
    (hrest : (∀ p ∈ taken v', FirstBlock v' (v'.inode p)) ∧
    (∀ p ∈ taken v', (v'.inode p).iFnum.toNat ≤ (taken v').ncard) ∧
      RootCopy v') : Packed v' := by
  obtain ⟨W, htaken, hw, hsound, hlegible⟩ := h.readable
  have hspells := hop.spells
  obtain ⟨W', hsound'⟩ := hsound.change hw htaken hspells.writesThrough hc
  have hunion : taken v ∪ taken v' = taken v' := Set.union_eq_self_of_subset_left hsub
  have hw' := hw.change htaken hc
  have hlegible' := hlegible.change hs hw htaken hspells hc
  rw [hunion] at hw' hsound' hlegible'
  exact ⟨⟨W', subset_rfl, hw', hsound', hlegible'⟩, h.owned.change hw hc, hrest.1, hrest.2.1,
    hrest.2.2⟩

theorem Packed.creates {s : FileSys} {v v' : Volume} {e : Env} {op : Op} (h : Packed v)
    (hs : Shows s v) (hop : op.MakesOnly)
    (hc : Volume.Creates (taken v) e v op v') : Packed v' := by
  cases hc with
  | present => exact h
  | made habsent hadds =>
    obtain ⟨hn, htarget, hload, hmakes, hmade, hwrote⟩ := hadds
    have hname := FileSys.length_of_target (eq_ok_of_refines (hs.target _) htarget)
    refine h.of_change hs hop (.create ⟨hn, htarget, hload, hmakes, hmade, hwrote⟩) (fun p hp => ?_)
      (h.create hop hname hn hload hmakes hmade hwrote)
    rw [hwrote.taken_eq]
    exact hmade.mem_taken.mpr (.inr hp)

theorem FileSys.rootInode_doCd {s t : FileSys} {name : Text} (h : s.doCd name = .ok t) :
    t.rootInode = s.rootInode := by
  obtain ⟨names, -, h⟩ := exists_of_bind_ok h
  cases names with
  | none => exact congrArg (·.rootInode) (Except.ok.inj h).symm
  | some names =>
    obtain ⟨x, -, h⟩ := exists_of_bind_ok h
    exact congrArg (·.rootInode) (Except.ok.inj h).symm

theorem Reach.packed {t : FileSys} (h : Reach (fun op _ => op.MakesOnly) t) :
    ∃ v, Shows t v ∧ Packed v :=
  h.invariant packed_mkfs fun {s t v e op} hs hv hop hexec => by
    obtain ⟨W, htaken, hw, hsound, hlegible⟩ := hv.readable
    obtain ⟨v', hv', hdoes⟩ := hsound.does hs hw e op hop.spells.writesThrough hexec
    refine ⟨v', hv', ?_⟩
    cases op with
    | mkdir path mode => exact hv.creates hs hop hdoes
    | touch name mode => exact hv.creates hs hop hdoes
    | cd name =>
      have hchange : Volume.Change (taken v) e v (.cd name) v' := hdoes
      have hroot : v'.rootInode = v.rootInode := by
        have hsame := FileSys.rootInode_doCd hexec
        rwa [hv'.session, hs.session] at hsame
      obtain ⟨f, rfl⟩ := hchange.exists_inSession (.inr ⟨name, rfl⟩)
      refine hv.of_change hs hop hchange subset_rfl ⟨fun p hp => (hv.first p hp).frame fun _ => rfl,
        hv.count, ?_⟩
      exact ⟨(congrArg (·.iDirectTable 0) hroot).trans hv.root.table, hv.root.bit, hv.root.named,
        hv.root.dot, hv.root.first⟩
    | _ => exact hop.elim

end Ucas.Fs

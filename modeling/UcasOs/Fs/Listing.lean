import UcasOs.Fs.Entries

/-! A directory as a list of names with inode numbers, 32 of them to a block. An entry is appended
with `i_fnum + 2` as its slot, and a lookup looks at the first block only. -/

namespace Ucas.Fs
open Ucas.Lib

structure Dentry.Reads (d : Dentry) (x : Text × UInt32) : Prop where
  terminated : d.Terminated
  dName : d.dName = x.1
  dInum : d.dInum = x.2

theorem reads_fill {d : Dentry} {n : UInt32} {name : Text} (h : name.length < 124) :
    (d.fill n name).Reads (name, n) :=
  ⟨terminated_fill h, dName_fill h, dInum_fill _ _ _⟩

theorem reads_putBytes {n : UInt32} {name : Text} (h : name.length < 124) :
    Dentry.Reads ((Buffer.zero.setWord 0 n).putBytes 4 name.bytes) (name, n) :=
  ⟨terminated_putBytes h, dName_putBytes (by omega), dInum_renamed⟩

theorem reads_zero : Dentry.Reads .zero (.empty, 0) := ⟨terminated_zero, dName_zero, dInum_zero⟩

/-- The directory of inode `i` has these entries, from slot 0 on, and no others. -/
structure Lists (v : Volume) (i : Inode) (L : List (Text × UInt32)) : Prop where
  count : i.iFnum.toNat + 2 = L.length
  fits : L.length ≤ 384
  block : ∀ k : Fin 12, 32 * k.val < L.length → (i.iDirectTable k).toNat ∈ dataBlocks
  noBlock : ∀ k : Fin 12, L.length ≤ 32 * k.val → i.iDirectTable k = 0
  entry : ∀ k : Fin 12, 32 * k.val < L.length → ∀ j < 32,
    (dentryAt (v.block (i.iDirectTable k).toNat) j).Reads (L.getD (32 * k.val + j) (.empty, 0))

namespace Lists
variable {v u : Volume} {i : Inode} {L : List (Text × UInt32)}

theorem frame (h : Lists v i L)
    (hblock : ∀ k : Fin 12, 32 * k.val < L.length → u.block (i.iDirectTable k).toNat = v.block
    (i.iDirectTable k).toNat) :
    Lists u i L := by
  refine ⟨h.count, h.fits, h.block, h.noBlock, fun k hk j hj => ?_⟩
  rw [hblock k hk]
  exact h.entry k hk j hj

section Lookup
variable (h : Lists v i L) {name : Text}
include h

theorem named : Named (v.block (i.iDirectTable 0).toNat) :=
  fun j hj => (h.entry 0 (by have := h.count; simp; omega) j hj).terminated

theorem first_mem : (i.iDirectTable 0).toNat ∈ dataBlocks :=
  h.block 0 (by have := h.count; simp; omega)

theorem reads_first {j : Nat} (hj : j < 32) :
    (dentryAt (v.block (i.iDirectTable 0).toNat) j).Reads (L.getD j (.empty, 0)) := by
  have hentry := h.entry 0 (by have := h.count; simp; omega) j hj
  simpa using hentry

theorem find {j : Nat} {x : Text × UInt32} (hx : L[j]? = some x) (hj : j < 32)
    (hnew : ∀ m < j, (L.getD m (.empty, 0)).1 ≠ x.1) :
    v.findFile i x.1 = .ok x.2 ∧ v.findDentry i x.1 = .ok (UInt32.ofNat j) := by
  have hget : L.getD j (.empty, 0) = x := by rw [List.getD_eq_getElem?_getD, hx, Option.getD_some]
  have hslot : slotOf (v.block (i.iDirectTable 0).toNat) x.1 = some j := by
    refine slotOf_eq_some.mpr ⟨hj, ?_, fun m hm => ?_⟩
    · rw [(h.reads_first hj).dName, hget]
    · rw [(h.reads_first (by omega)).dName]
      exact hnew m hm
  rw [Volume.findFile_eq h.first_mem h.named, Volume.findDentry_eq h.first_mem h.named, hslot]
  refine ⟨?_, rfl⟩
  rw [Option.elim_some, (h.reads_first hj).dInum, hget]

theorem find_none (hname : name.bytes ≠ []) (hnot : ∀ j < 32, ∀ x, L[j]? = some x → x.1 ≠ name) :
    v.findFile i name = .ok notFound ∧ v.findDentry i name = .ok notFound := by
  have hslot : slotOf (v.block (i.iDirectTable 0).toNat) name = none := by
    refine slotOf_eq_none.mpr fun j hj => ?_
    rw [(h.reads_first hj).dName, List.getD_eq_getElem?_getD]
    cases hx : L[j]? with
    | none => exact fun heq => hname (congrArg Text.bytes heq.symm)
    | some x => exact hnot j hj x hx
  rw [Volume.findFile_eq h.first_mem h.named, Volume.findDentry_eq h.first_mem h.named, hslot]
  exact ⟨rfl, rfl⟩

end Lookup

theorem getD_concat (L : List (Text × UInt32)) (x : Text × UInt32) (m : Nat) :
    (L ++ [x]).getD m (.empty, 0) = if m = L.length then x else L.getD m (.empty, 0) := by
  split_ifs with hm
  · rw [hm, List.getD_append_right _ _ _ _ le_rfl, Nat.sub_self, List.getD_cons_zero]
  · obtain hlt | hge := Nat.lt_or_ge m L.length
    · rw [List.getD_append _ _ _ _ hlt]
    · rw [List.getD_eq_default _ _ (by simp; omega), List.getD_eq_default _ _ hge]

section Append
variable (h : Lists v i L) {d : Dentry} {x : Text × UInt32} {r : Inode × Volume}

theorem slot_toNat (h : Lists v i L) : (i.iFnum + 2).toNat = L.length := by
  have hcount := h.count
  have hfits := h.fits
  simp only [UInt32.toNat_add, UInt32.reduceToNat]
  omega

theorem slot_major (h : Lists v i L) : ((i.iFnum + 2) / 32).toNat = L.length / 32 := by
  simp only [UInt32.toNat_div, h.slot_toNat, UInt32.reduceToNat]

theorem slot_minor (h : Lists v i L) : ((i.iFnum + 2) % 32).toNat = L.length % 32 := by
  simp only [UInt32.toNat_mod, h.slot_toNat, UInt32.reduceToNat]

include h

theorem count_addEntry (x : Text × UInt32) : (i.iFnum + 1).toNat + 2 = (L ++ [x]).length := by
  have hcount := h.count
  have hfits := h.fits
  simp only [UInt32.toNat_add, UInt32.reduceToNat, List.length_append, List.length_singleton]
  omega

theorem append (hd : d.Reads x) (hlen : L.length < 384) (hr : Volume.Wrote v i (i.iFnum + 2) d r)
    (hlow : ∀ k, k < 266 → v.blockBit k = true)
    (hbit : ∀ k : Fin 12, 32 * k.val < L.length → v.blockBit (i.iDirectTable k).toNat = true)
    (hinj : ∀ k l : Fin 12, 32 * k.val < L.length → 32 * l.val < L.length →
      (i.iDirectTable k).toNat = (i.iDirectTable l).toNat → k = l) : Lists r.2 r.1 (L ++ [x]) := by
  have hmajor := h.slot_major
  have hminor := h.slot_minor
  have hlength : (L ++ [x]).length = L.length + 1 := by simp
  cases hr with
  | refused hrefuse =>
    have hcount := h.count
    simp only [UInt32.lt_iff_toNat_lt, h.slot_toNat, UInt32.reduceToNat] at hrefuse
    omega
  | @grown b i' hslot h12 hzero hb hi' =>
    -- the last block is full
    have hfull : L.length = 32 * (L.length / 32) := by
      by_contra hne
      exact ne_zero_of_mem_dataBlocks (h.block ⟨_, h12⟩ (by simp only [hmajor]; omega)) hzero
    have hnat : (UInt32.ofNat b).toNat = b :=
      toNat_of_mem_dataBlocks (Volume.firstClear_mem_dataBlocks hlow hb)
    have htable : ∀ k : Fin 12, i'.iDirectTable k = if k = ⟨_, h12⟩ then UInt32.ofNat b else
        i.iDirectTable k := by
      intro k
      rw [hi', Inode.addEntry_iDirectTable, Inode.addSize_iDirectTable, Inode.point_iDirectTable,
        Function.update_apply]
    refine ⟨?_, by omega, fun k hk => ?_, fun k hk => ?_, fun k hk j hj => ?_⟩
    · rw [← h.count_addEntry x, hi']
      simp only [Inode.addEntry, Inode.addSize, Inode.point]
    · rw [htable]
      split_ifs with hkk
      · rw [hnat]
        exact Volume.firstClear_mem_dataBlocks hlow hb
      · exact h.block k (by rw [Fin.ext_iff] at hkk; simp only [hmajor] at hkk; omega)
    · rw [htable, if_neg (by rw [Fin.ext_iff]; simp only [hmajor]; omega)]
      exact h.noBlock k (by omega)
    · rw [htable]
      split_ifs with hkk
      · subst hkk
        simp only [Volume.allotted, hnat, Function.update_self, hmajor, hminor]
        rw [dentryAt_putDentry _ _ hj, getD_concat]
        split_ifs with hj0 hlast hlast
        · exact hd
        · omega
        · omega
        · rw [dentryAt_zero, List.getD_eq_default _ _ (by omega)]
          exact reads_zero
      · rw [Fin.ext_iff] at hkk
        simp only [hmajor] at hkk
        have hused : 32 * k.val < L.length := by omega
        have hne : (i.iDirectTable k).toNat ≠ b := fun heq => by
          have hset := hbit k hused
          rw [heq, (Volume.firstClear_lt hb).2] at hset
          cases hset
        simp only [Volume.allotted, Volume.stored]
        rw [Function.update_of_ne hne, getD_concat, if_neg (by omega)]
        exact h.entry k hused j hj
  | filled hslot h12 hne =>
    have hpart : 32 * (L.length / 32) < L.length := by
      by_contra hge
      exact hne (h.noBlock ⟨_, h12⟩ (by simp only [hmajor]; omega))
    have hused : ∀ k : Fin 12, 32 * k.val < L.length + 1 → 32 * k.val < L.length := fun k hk => by
      omega
    refine ⟨h.count_addEntry x, by omega, fun k hk => h.block k (hused k (by omega)), fun k hk =>
      h.noBlock k (by omega),
      fun k hk j hj => ?_⟩
    have hk := hused k (by omega)
    simp only [Volume.wrote, Volume.stored, Inode.addEntry_iDirectTable, hminor]
    rw [getD_concat]
    by_cases hkk : k = ⟨_, h12⟩
    · subst hkk
      simp only [hmajor] at hk ⊢
      rw [Function.update_self, dentryAt_putDentry _ _ hj]
      have hold := h.entry ⟨_, h12⟩ (by simp only [hmajor]; omega) j hj
      simp only [hmajor] at hold
      split_ifs with hjj hlast hlast
      · exact hd
      · omega
      · omega
      · exact hold
    · have hother : (i.iDirectTable k).toNat ≠ (i.iDirectTable ⟨_, h12⟩).toNat := fun heq =>
        hkk (hinj k ⟨_, h12⟩ hk (by simp only [hmajor]; omega) heq)
      rw [Fin.ext_iff] at hkk
      simp only [hmajor] at hkk
      rw [Function.update_of_ne hother, if_neg (by omega)]
      exact h.entry k hk j hj
  | lost hslot h12 => omega

end Append

end Lists

end Ucas.Fs

import UcasOs.Fs.Owned
import UcasOs.Fs.Lookup
import UcasOs.Fs.Nested

/-! The entries of one directory. A rename raises `i_fnum` and a removal leaves a hole, but no call
makes `i_fnum` fall behind the entries: every slot from `i_fnum + 2` on stays empty, and an entry is
appended to an empty slot. -/

namespace Ucas.Fs
open Ucas.Lib Relation

/-- An entry with a name stands for that name and a number, one without for nothing. -/
def Text.entry (name : Text) (n : UInt32) : Option (Text × UInt32) :=
  if name = .empty then none else some (name, n)

def Dentry.entry (d : Dentry) : Option (Text × UInt32) := d.dName.entry d.dInum

namespace FileSys
variable (s : FileSys)

/-- The entry in slot `k` of the direct blocks of directory `n`; a block that is missing has none.
-/
def entry (n : UInt32) (k : Nat) : Option (Text × UInt32) :=
  if h : k / 32 < 12 then
    if (s.syncFromDiskInode n).iDirectTable ⟨_, h⟩ = 0 then none else
      (s.entryAt n ⟨_, h⟩ (k % 32)).entry
  else none

/-- Directory `n` has empty slots from `i_fnum + 2` on, and no two inodes in use share a block. -/
structure OneDirectory (n : UInt32) : Prop extends s.Mounted where
  lt : n.toNat < 8192
  allocated : s.inodebmp.bit n.toNat = true
  num : ∀ q : UInt32, q.toNat < 8192 → s.inodebmp.bit q.toNat = true →
    (s.syncFromDiskInode q).iNum = q
  data : ∀ (q : UInt32) k, q.toNat < 8192 → s.inodebmp.bit q.toNat = true →
    (s.syncFromDiskInode q).iDirectTable k ≠ 0 →
    ((s.syncFromDiskInode q).iDirectTable k).toNat ∈ dataBlocks ∧
      s.blockbmp.bit ((s.syncFromDiskInode q).iDirectTable k).toNat = true
  distinct : ∀ (q : UInt32) k (q' : UInt32) k', q.toNat < 8192 → s.inodebmp.bit q.toNat = true →
    q'.toNat < 8192 →
    s.inodebmp.bit q'.toNat = true → (s.syncFromDiskInode q).iDirectTable k ≠ 0 →
    (s.syncFromDiskInode q').iDirectTable k' = (s.syncFromDiskInode q).iDirectTable k → q' = q ∧
      k' = k
  indirect : ∀ q : UInt32, q.toNat < 8192 → s.inodebmp.bit q.toNat = true →
    (s.syncFromDiskInode q).iIndirectBlock1Ptr = 0
  current : Within dataBlocks s.currentDir
  dot : ∃ c, s.entry n 0 = some (.dot, c)
  dotdot : ∃ c, s.entry n 1 = some (.dotdot, c)
  free : ∀ k, (s.syncFromDiskInode n).iFnum.toNat + 2 ≤ k → k < 384 → s.entry n k = none

def Succeeds (n : UInt32) (name : Text) : Op → Prop
  | .mkdir _ _ | .touch _ _ => s.findDentry (s.syncFromDiskInode n) name = .ok notFound
  | .link srcPath _ =>
    ∀ m, s.parsePath srcPath s.currentDir = .ok m → m ≠ notFound ∧
      sIsdir (s.syncFromDiskInode m).iFmode = false
  | .rename oldName _ => oldName = name ∧ name ≠ .dot ∧ name ≠ .dotdot ∧
      ∀ c, s.findFile (s.syncFromDiskInode n) name = .ok c → c ≠ notFound
  | .rmdir _ => name ≠ .dot ∧ name ≠ .dotdot ∧
      ∀ c, s.findFile (s.syncFromDiskInode n) name = .ok c → c ≠ notFound ∧ c ≠ n
  | _ => False

/-- One slot of directory `n` changes, from `before` to `after`. -/
def ChangesSlot (s t : FileSys) (n : UInt32) (before after : Option (Text × UInt32)) : Prop :=
  ∃ k < 384, s.entry n k = before ∧ t.entry n k = after ∧ ∀ m < 384, m ≠ k →
    t.entry n m = s.entry n m

end FileSys

def Op.Effect (name : Text) (before after : Option (Text × UInt32)) : Op → Prop
  | .mkdir _ _ | .touch _ _ | .link _ _ => before = none ∧ ∃ q, after = some (name, q)
  | .rename _ newName => ∃ q, before = some (name, q) ∧ after = newName.entry q
  | .rmdir _ => ∃ q, before = some (name, q) ∧ after = none
  | _ => False

/-- A successful call in directory `n`, while there is a slot left in the direct blocks, that meets
only inodes in use. -/
def Op.Keeps (n : UInt32) (op : Op) (s : FileSys) : Prop :=
  s.Meets (fun q => q = notFound ∨ s.Allocated q) op ∧ (s.syncFromDiskInode n).iFnum.toNat + 2 < 384
    ∧
    ∃ name, s.target op = .ok (n, name) ∧ name.bytes ≠ [] ∧ s.Succeeds n name op

section Entry
variable {name : Text}

theorem Text.entry_eq_some (h : name.bytes ≠ []) (n : UInt32) : name.entry n = some (name, n) :=
  if_neg fun heq => h (congrArg Text.bytes heq)

theorem entry_zero : Dentry.entry .zero = none := by
  rw [Dentry.entry, dName_zero]
  rfl

theorem entry_fill (h : name.bytes ≠ []) (hlen : name.length < 124) (d : Dentry) (n : UInt32) :
    (d.fill n name).entry = some (name, n) := by
  rw [Dentry.entry, dName_fill hlen, dInum_fill, Text.entry_eq_some h]

theorem entry_renamed (hlen : name.length < 125) (c : UInt32) :
    Dentry.entry ((Buffer.zero.setWord 0 c).putBytes 4 name.bytes) = name.entry c := by
  rw [Dentry.entry, dName_putBytes hlen, dInum_renamed]

end Entry

namespace Volume

def entry (v : Volume) (i : Inode) (k : Nat) : Option (Text × UInt32) :=
  if h : k / 32 < 12 then
    if i.iDirectTable ⟨_, h⟩ = 0 then none else (dentryAt (v.block (i.iDirectTable ⟨_, h⟩).toNat)
      (k % 32)).entry
  else none

section Slot
variable {v u : Volume} {i j : Inode} {k : Nat}

theorem entry_missing (h : k / 32 < 12) (hzero : i.iDirectTable ⟨_, h⟩ = 0) :
    v.entry i k = none := by
  rw [entry, dif_pos h, if_pos hzero]

theorem entry_present (h : k / 32 < 12) (hne : i.iDirectTable ⟨_, h⟩ ≠ 0) :
    v.entry i k = (dentryAt (v.block (i.iDirectTable ⟨_, h⟩).toNat) (k % 32)).entry := by
  rw [entry, dif_pos h, if_neg hne]

theorem entry_congr (htable : j.iDirectTable = i.iDirectTable)
    (hblock : ∀ m, i.iDirectTable m ≠ 0 → u.block (i.iDirectTable m).toNat = v.block
    (i.iDirectTable m).toNat) :
    u.entry j k = v.entry i k := by
  unfold entry
  split_ifs with h hj hi hi
  · rfl
  · exact absurd (htable ▸ hj) hi
  · exact absurd (htable ▸ hi) hj
  · rw [htable, hblock _ hi]
  · rfl

end Slot

theorem Wrote.entry {v : Volume} {p : Nat} {i : Inode} {dnum : UInt32} {d : Dentry}
    {r : Inode × Volume}
    (h : Wrote v i dnum d r) (hlow : ∀ k, k < 266 → v.blockBit k = true) (hholds : v.Holds p i)
    (hslot : 2 ≤ dnum ∧ dnum ≤ i.iFnum + 2) (hdnum : dnum.toNat < 384) {k : Nat} (hk : k < 384) :
    r.2.entry r.1 k = if k = dnum.toNat then d.entry else v.entry i k := by
  have hmajor : (dnum / 32).toNat = dnum.toNat / 32 := UInt32.toNat_div ..
  have hminor : (dnum % 32).toNat = dnum.toNat % 32 := UInt32.toNat_mod ..
  have hk12 : k / 32 < 12 := by omega
  cases h with
  | refused hrefuse =>
    simp only [← UInt32.not_le] at hrefuse
    exact absurd hslot (by tauto)
  | @grown b i' _ h12 hzero hb hi' =>
    obtain ⟨hge, hlt⟩ := firstClear_mem_dataBlocks hlow hb
    have hnat : (UInt32.ofNat b).toNat = b := toNat_ofNat_of_lt (by omega)
    have htable : i'.iDirectTable = Function.update i.iDirectTable ⟨_, h12⟩ (UInt32.ofNat b) := by
      simp [hi']
    by_cases hsame : k / 32 = dnum.toNat / 32
    · -- the new block has the new entry and no other, the missing one had none
      have hindex : (⟨_, hk12⟩ : Fin 12) = ⟨_, h12⟩ := Fin.ext (hsame.trans hmajor.symm)
      have hptr : i'.iDirectTable ⟨_, hk12⟩ = UInt32.ofNat b := by
        rw [htable, hindex, Function.update_self]
      have hne : i'.iDirectTable ⟨_, hk12⟩ ≠ 0 :=
        ne_zero_of_mem_dataBlocks (by rw [hptr, hnat]; exact ⟨hge, hlt⟩)
      rw [entry_present hk12 hne, hptr, hnat, entry_missing (i := i) hk12 (hindex ▸ hzero)]
      simp only [Volume.allotted, Function.update_self]
      rw [dentryAt_putDentry _ _ (by omega), hminor, dentryAt_zero]
      split_ifs with h1 h2 h2
      · rfl
      · omega
      · omega
      · exact entry_zero
    · have hindex : (⟨_, hk12⟩ : Fin 12) ≠ ⟨_, h12⟩ :=
        fun heq => hsame ((Fin.mk.inj heq).trans hmajor)
      have hptr : i'.iDirectTable ⟨_, hk12⟩ = i.iDirectTable ⟨_, hk12⟩ := by
        rw [htable, Function.update_of_ne hindex]
      rw [if_neg fun heq => hsame (by rw [heq])]
      by_cases hk0 : i.iDirectTable ⟨_, hk12⟩ = 0
      · rw [entry_missing hk12 (hptr.trans hk0), entry_missing hk12 hk0]
      · have hfresh : (i.iDirectTable ⟨_, hk12⟩).toNat ≠ b := fun heq => by
          have hset := hholds.bit _ hk0
          rw [heq, (firstClear_lt hb).2] at hset
          cases hset
        rw [entry_present hk12 (hptr.symm ▸ hk0), hptr, entry_present hk12 hk0]
        simp only [Volume.allotted, Volume.stored, Function.update_of_ne hfresh]
  | filled _ h12 hne =>
    by_cases hk0 : i.iDirectTable ⟨_, hk12⟩ = 0
    · have hother : k ≠ dnum.toNat := fun heq => hne (by simpa only [hmajor, heq] using hk0)
      rw [if_neg hother, entry_missing (i := i.addEntry) hk12 hk0, entry_missing hk12 hk0]
    rw [entry_present (i := i.addEntry) hk12 hk0, entry_present hk12 hk0]
    simp only [Volume.wrote, Volume.stored, Inode.addEntry_iDirectTable, Function.update_apply]
    split_ifs with hblock hkd hkd
    · rw [dentryAt_putDentry _ _ (by omega), hminor, hkd, if_pos rfl]
    · -- another place in the same block
      have hindex := hholds.apart _ hne _ (UInt32.toNat_inj.mp hblock)
      have hdiv := (Fin.mk.inj hindex).trans hmajor
      rw [dentryAt_putDentry _ _ (by omega), hminor, if_neg (by omega), ← hindex]
    · exact absurd (by simp only [hmajor, hkd]) hblock
    · rfl
  | lost _ h12 => omega

end Volume

theorem FileSys.textFrom_of_sameName {b : Block} {n o : Nat} {l : List UInt8} (hl : 0 ∉ l)
    (hlen : l.length < n)
    (h : FileSys.sameName b l o = .ok true) : textFrom b n o = l := by
  induction l generalizing n o with
  | nil =>
    obtain ⟨n, rfl⟩ := Nat.exists_eq_succ_of_ne_zero (Nat.ne_zero_of_lt hlen)
    unfold FileSys.sameName at h
    split_ifs at h
    have hzero : b.get o = 0 := by simpa using Except.ok.inj h
    rw [Nat.succ_eq_add_one, textFrom_succ, if_pos hzero]
  | cons c cs ih =>
    obtain ⟨n, rfl⟩ := Nat.exists_eq_succ_of_ne_zero (Nat.ne_zero_of_lt hlen)
    rw [List.mem_cons, not_or] at hl
    unfold FileSys.sameName at h
    split_ifs at h with ho hc
    · rw [Nat.succ_eq_add_one, textFrom_succ, if_neg (hc ▸ Ne.symm hl.1), hc, ih hl.2
        (by simpa using hlen) h]
    · cases h

namespace Volume
variable {v v' u : Volume} {n : Nat}

theorem entry_of_findFile {i : Inode} {name : Text} {c : UInt32} (hi : Within dataBlocks i)
    (hname : name.bytes ≠ [])
    (hlen : name.length < 124) (h : v.findFile i name = .ok c) (hc : c ≠ notFound) :
    ∃ j < 32, v.findDentry i name = .ok (UInt32.ofNat j) ∧ v.entry i j = some (name, c) := by
  obtain rfl | ⟨j, hj, hne, hdnum, rfl, hsame⟩ | ⟨hempty, -⟩ := of_findFile hi h
  · exact absurd rfl hc
  · refine ⟨j, hj, hdnum, ?_⟩
    have hdName : (dentryAt (v.block (i.iDirectTable 0).toNat) j).dName = name :=
      Text.ext_bytes (textFrom_dentryAt.trans (FileSys.textFrom_of_sameName name.zero_notMem hlen
        hsame))
    have hindex : ∀ h : j / 32 < 12, (⟨_, h⟩ : Fin 12) = 0 :=
      fun _ => Fin.ext (show j / 32 = 0 by omega)
    rw [entry_present (k := j) (by omega) (by rwa [hindex]), hindex, show j % 32 = j by omega,
      Dentry.entry, hdName,
      Text.entry_eq_some hname]
  · exact absurd hempty hname

structure Kept (v : Volume) (n : Nat) : Prop where
  well : Well (taken v) v
  owned : v.Owned
  straight : v.Straight 0
  mem : n ∈ taken v
  dot : ∃ c, v.entry (v.inode n) 0 = some (.dot, c)
  dotdot : ∃ c, v.entry (v.inode n) 1 = some (.dotdot, c)
  free : ∀ k, (v.inode n).iFnum.toNat + 2 ≤ k → k < 384 → v.entry (v.inode n) k = none

def Puts (n : Nat) (v v' : Volume) (k : Nat) (x : Option (Text × UInt32)) : Prop :=
  ∀ m < 384, v'.entry (v'.inode n) m = if m = k then x else v.entry (v.inode n) m

theorem add_two_toNat {x : UInt32} (h : x.toNat + 2 < 4294967296) :
    (x + 2).toNat = x.toNat + 2 := by
  rw [UInt32.toNat_add, Nat.mod_eq_of_lt (by simp only [UInt32.reduceToNat]; omega)]
  rfl

namespace Kept

theorem num (h : Kept v n) : (v.inode n).iNum.toNat = n := h.well.num n h.mem

theorem holds (h : Kept v n) : v.Holds n (v.inode n) := h.owned n h.mem

theorem puts (h : Kept v n) (hwell : Well (taken v') v') (howned : v'.Owned)
    (hstraight : v'.Straight 0) (hmem : n ∈ taken v')
    {k : Nat} {x : Option (Text × UInt32)} (hputs : Puts n v v' k x) (hk : 2 ≤ k)
    (hlt : k < (v'.inode n).iFnum.toNat + 2)
    (hle : (v.inode n).iFnum.toNat ≤ (v'.inode n).iFnum.toNat) :
    Kept v' n := by
  refine ⟨hwell, howned, hstraight, hmem, ?_, ?_, fun m hm hm' => ?_⟩
  · rw [hputs 0 (by omega), if_neg (by omega)]
    exact h.dot
  · rw [hputs 1 (by omega), if_neg (by omega)]
    exact h.dotdot
  · rw [hputs m hm', if_neg (by omega)]
    exact h.free m (by omega) hm'

theorem slot_bounds (h : Kept v n) {k : Nat} {name : Text} {c : UInt32} (hk : k < 384)
    (hentry : v.entry (v.inode n) k = some (name, c)) (hdot : name ≠ .dot)
    (hdotdot : name ≠ .dotdot) :
    2 ≤ k ∧ k < (v.inode n).iFnum.toNat + 2 := by
  obtain ⟨c₀, h₀⟩ := h.dot
  obtain ⟨c₁, h₁⟩ := h.dotdot
  have hne₀ : k ≠ 0 := fun hk0 => by
    rw [hk0, h₀] at hentry
    exact hdot (Prod.mk.inj (Option.some.inj hentry)).1.symm
  have hne₁ : k ≠ 1 := fun hk1 => by
    rw [hk1, h₁] at hentry
    exact hdotdot (Prod.mk.inj (Option.some.inj hentry)).1.symm
  refine ⟨by omega, ?_⟩
  by_contra hge
  rw [h.free k (by omega) hk] at hentry
  cases hentry

theorem wrote (h : Kept v n) (hlow : ∀ k, k < 266 → u.blockBit k = true)
    (hholds : u.Holds n (v.inode n))
    (hsame : ∀ k, u.entry (v.inode n) k = v.entry (v.inode n) k) {dnum : UInt32} {d : Dentry}
    {r : Inode × Volume}
    (hwrote : Wrote u (v.inode n) dnum d r) (hmax : (v.inode n).iFnum.toNat + 2 < 4294967295)
    (h2 : 2 ≤ dnum.toNat)
    (hle : dnum.toNat ≤ (v.inode n).iFnum.toNat + 2) (hdnum : dnum.toNat < 384) :
    r.2.inode n = r.1 ∧ r.1.iFnum.toNat = (v.inode n).iFnum.toNat + 1 ∧
      ∀ m < 384, r.2.entry r.1 m = if m = dnum.toNat then d.entry else v.entry (v.inode n) m := by
  have hsum : ((v.inode n).iFnum + 2).toNat = (v.inode n).iFnum.toNat + 2 :=
    add_two_toNat (by omega)
  have hslot : 2 ≤ dnum ∧ dnum ≤ (v.inode n).iFnum + 2 :=
    ⟨UInt32.le_iff_toNat_le.mpr h2, UInt32.le_iff_toNat_le.mpr (by rw [hsum]; exact hle)⟩
  obtain ⟨hstores, hfnum⟩ := hwrote.stores hslot
  rw [h.num] at hstores
  refine ⟨hstores, ?_, fun m hm => ?_⟩
  · rw [hfnum, UInt32.toNat_add, Nat.mod_eq_of_lt (by simp only [UInt32.reduceToNat]; omega)]
    rfl
  · rw [hwrote.entry hlow hholds hslot hdnum hm, hsame]

section Step
variable {n : UInt32} (h : Kept v n.toNat) (hfew : (v.inode n.toNat).iFnum.toNat + 2 < 384)
include h hfew

theorem create {e : Env} {fmode : UInt16} {content : Option (UInt32 → Block)} {q : Nat}
    {v₁ : Volume} {i' : Inode}
    {name : Text} (hname : name.bytes ≠ []) (hlen : name.length < 124) (hmade : Made e v fmode
    content q v₁)
    (hwrote : Wrote v₁ (v.inode n.toNat) ((v.inode n.toNat).iFnum + 2)
    (e.stack.fill (UInt32.ofNat q) name) (i', v')) :
    n.toNat ∈ taken v' ∧ (v'.inode n.toNat).iFnum.toNat = (v.inode n.toNat).iFnum.toNat + 1 ∧
      Puts n.toNat v v' ((v.inode n.toNat).iFnum.toNat + 2) (some (name, UInt32.ofNat q)) := by
  have hmem : n.toNat ∈ taken v₁ := hmade.mem_taken.mpr (.inr h.mem)
  have hholds := h.owned.made h.well.low hmade _ hmem
  rw [hmade.inode_of_ne (hmade.ne_of_mem h.mem)] at hholds
  have hsum : ((v.inode n.toNat).iFnum + 2).toNat = (v.inode n.toNat).iFnum.toNat + 2 :=
    add_two_toNat (by omega)
  obtain ⟨hstores, hfnum, hentry⟩ := h.wrote (fun k hk => hmade.low (h.well.low k hk)) hholds
    (fun k => entry_congr rfl fun m hm => hmade.block_of_bit (h.holds.bit m hm)) hwrote (by omega)
      (by omega) (by omega) (by omega)
  refine ⟨hwrote.taken_eq ▸ hmem, by rw [hstores]; exact hfnum, fun m hm => ?_⟩
  rw [hstores, hentry m hm, hsum, entry_fill hname hlen]

theorem link {j : Inode} (hj : j.iNum.toNat ∈ taken v → v.Holds j.iNum.toNat j) {m : UInt32}
    {d : Dentry} {i' : Inode} {name : Text}
    (hname : name.bytes ≠ []) (hlen : name.length < 124)
    (hwrote : Wrote (v.stored j) (v.inode n.toNat) ((v.inode n.toNat).iFnum + 2) (d.fill m name)
    (i', v')) :
    n.toNat ∈ taken v' ∧ (v'.inode n.toNat).iFnum.toNat = (v.inode n.toNat).iFnum.toNat + 1 ∧
      Puts n.toNat v v' ((v.inode n.toNat).iFnum.toNat + 2) (some (name, m)) := by
  have hholds := h.owned.holds_stored hj (i := v.inode n.toNat) (.inr (by rw [h.num]))
    (by rw [h.num]; exact h.mem)
  rw [h.num] at hholds
  have hsum : ((v.inode n.toNat).iFnum + 2).toNat = (v.inode n.toNat).iFnum.toNat + 2 :=
    add_two_toNat (by omega)
  obtain ⟨hstores, hfnum, hentry⟩ := h.wrote (u := v.stored j) h.well.low hholds (fun k => rfl)
    hwrote (by omega) (by omega) (by omega)
    (by omega)
  refine ⟨hwrote.taken_eq ▸ h.mem, by rw [hstores]; exact hfnum, fun m hm => ?_⟩
  rw [hstores, hentry m hm, hsum, entry_fill hname hlen]

omit hfew
variable (hmax : (v.inode n.toNat).iFnum.toNat + 2 < 4294967295) {k : Nat} (hk : 2 ≤ k)
  (hlt : k < (v.inode n.toNat).iFnum.toNat + 2) (hk384 : k < 384)
include hmax hk hlt hk384

theorem rename {c : UInt32} {i' : Inode} {newName : Text} (hfits : newName.length < 125)
    (hwrote : Wrote v (v.inode n.toNat) (UInt32.ofNat k) ((Buffer.zero.setWord 0 c).putBytes 4
    newName.bytes) (i', v')) :
    n.toNat ∈ taken v' ∧ (v'.inode n.toNat).iFnum.toNat = (v.inode n.toNat).iFnum.toNat + 1 ∧
      Puts n.toNat v v' k (newName.entry c) := by
  have hnat : (UInt32.ofNat k).toNat = k := toNat_ofNat_of_lt (by omega)
  obtain ⟨hstores, hfnum, hentry⟩ := h.wrote h.well.low h.holds (fun k => rfl) hwrote hmax
    (by omega) (by omega) (by omega)
  refine ⟨hwrote.taken_eq ▸ h.mem, by rw [hstores]; exact hfnum, fun m hm => ?_⟩
  rw [hstores, hentry m hm, hnat, entry_renamed hfits]

theorem rmdir {c : Nat} (hc : c ∈ taken v) (hne : n.toNat ≠ c) {i' : Inode} {v₁ : Volume}
    (hwrote : Wrote (v.removed c) (v.inode n.toNat) (UInt32.ofNat k) .zero (i', v₁)) :
    n.toNat ∈ taken (v₁.stored i'.dropEntry) ∧
      ((v₁.stored i'.dropEntry).inode n.toNat).iFnum.toNat = (v.inode n.toNat).iFnum.toNat ∧
      Puts n.toNat v (v₁.stored i'.dropEntry) k none := by
  have hnat : (UInt32.ofNat k).toNat = k := toNat_ofNat_of_lt (by omega)
  have hmem : n.toNat ∈ taken (v.removed c) := mem_taken_removed.mpr ⟨h.mem, hne⟩
  have hholds : (v.removed c).Holds n.toNat (v.inode n.toNat) := h.owned.removed hc _ hmem
  obtain ⟨hstores, hfnum, hentry⟩ := h.wrote (h.well.removed hc).low hholds (fun k => rfl) hwrote
    hmax (by omega) (by omega)
    (by omega)
  dsimp only at hstores hfnum hentry
  have hself : (v₁.stored i'.dropEntry).inode n.toNat = i'.dropEntry := by
    have hnum : i'.dropEntry.iNum.toNat = n.toNat := by
      rw [Inode.dropEntry_iNum, hwrote.iNum, h.num]
    rw [← hnum]
    exact Function.update_self ..
  refine ⟨(hwrote.taken_eq ▸ hmem : n.toNat ∈ taken v₁), ?_, fun m hm => ?_⟩
  · -- `write_dentry` has counted the entry it clears, `remove_dentry` takes it back
    rw [hself, Inode.dropEntry, UInt32.toNat_sub_of_le _ _ (UInt32.le_iff_toNat_le.mpr
      (by rw [hfnum]; simp)), hfnum]
    rfl
  · rw [hself, entry_congr (u := v₁.stored i'.dropEntry) (v := v₁) (i := i')
      (Inode.dropEntry_iDirectTable i') fun _ _ => rfl, hentry m hm, hnat, entry_zero]

end Step

end Kept

end Volume

theorem Shows.entry {s : FileSys} {v : Volume} (h : Shows s v) {n : UInt32} (hn : n.toNat < 8192)
    (hi : Within dataBlocks (v.inode n.toNat)) (k : Nat) :
    s.entry n k = v.entry (v.inode n.toNat) k := by
  have hinode : s.syncFromDiskInode n = v.inode n.toNat :=
    h.load (Volume.load_of_lt hn)
  unfold FileSys.entry Volume.entry FileSys.entryAt
  rw [hinode]
  split_ifs with hk hzero
  · rfl
  · have hdata := (hi ⟨_, hk⟩).resolve_left hzero
    rw [h.block _ hdata.1 (by have := hdata.2; omega), UInt32.ofNat_toNat]
  · rfl

theorem Op.Keeps.regular {s : FileSys} {n : UInt32} {op : Op} (hop : op.Keeps n s) :
    op.Regular s := by
  obtain ⟨hmeets, hfew, name, htarget, -, hsucceeds⟩ := hop
  refine ⟨hmeets, fun n' name' htarget' => .inl ?_, ?_⟩
  · obtain ⟨rfl, -⟩ := Prod.mk.inj (Except.ok.inj (htarget.symm.trans htarget'))
    rw [UInt32.toNat_div, Volume.add_two_toNat (by omega)]
    simp only [UInt32.reduceToNat]
    omega
  · cases op with
    | fwrite => exact hsucceeds.elim
    | _ => trivial

namespace Volume.Kept
variable {s t : FileSys} {v : Volume} {n : UInt32} {e : Env} {op : Op}

theorem shows_entry (h : Kept v n.toNat) (hs : Shows s v) (k : Nat) :
    s.entry n k = v.entry (v.inode n.toNat) k :=
  hs.entry h.mem.1 (h.well.within _ h.mem) k

/-- One slot changes, as it should, and the directory is as before otherwise. -/
def Steps (n : Nat) (name : Text) (op : Op) (v v' : Volume) : Prop :=
  Kept v' n ∧ ∃ k < 384, ∃ x, Puts n v v' k x ∧ op.Effect name (v.entry (v.inode n) k) x

section Call
variable (h : Kept v n.toNat) (hs : Shows s v) (hfew : (v.inode n.toNat).iFnum.toNat + 2 < 384)
  {name : Text}
  (hname : name.bytes ≠ [])
include h hs

theorem syncFromDiskInode_eq : s.syncFromDiskInode n = v.inode n.toNat :=
  hs.load (load_of_lt h.mem.1)

variable (htarget : s.target op = .ok (n, name))
include htarget

theorem of_target {n' : UInt32} {name' : Text} {i : Inode} (ht : v.target op = .ok (n', name'))
    (hl : v.load n' = .ok i) :
    n' = n ∧ name' = name ∧ i = v.inode n.toNat := by
  obtain ⟨rfl, rfl⟩ :=
    Prod.mk.inj (Except.ok.inj (htarget.symm.trans (eq_ok_of_refines (hs.target op) ht)))
  exact ⟨rfl, rfl, Except.ok.inj (hl.symm.trans (load_of_lt h.mem.1))⟩

include hfew hname
variable {v' : Volume} (hwell : Well (taken v') v') (howned : v'.Owned) (hstraight : v'.Straight 0)
include hwell howned hstraight

theorem step_create (hcreates : Creates (taken v) e v op v')
    (habsent : s.findDentry (s.syncFromDiskInode n) name = .ok notFound)
    (heffect : ∀ q, op.Effect name none (some (name, q))) : Steps n.toNat name op v v' := by
  cases hcreates with
  | present ht hl hdnum hne =>
    obtain ⟨rfl, rfl, rfl⟩ := h.of_target hs htarget ht hl
    rw [h.syncFromDiskInode_eq hs, eq_ok_of_refines (hs.findDentry _ _) hdnum] at habsent
    exact absurd (Except.ok.inj habsent) hne
  | made _ hadds =>
    obtain ⟨hn, ht, hl, hmakes, hmade, hwrote⟩ := hadds
    obtain ⟨rfl, rfl, rfl⟩ := h.of_target hs htarget ht hl
    have hlen := FileSys.length_of_target htarget
    obtain ⟨hmem, hfnum, hputs⟩ := h.create hfew hname (by omega) hmade hwrote
    refine ⟨h.puts hwell howned hstraight hmem hputs (by omega) (by omega) (by omega), _, hfew, _,
      hputs, ?_⟩
    rw [h.free _ le_rfl hfew]
    exact heffect _

end Call

section Ops
variable {v' : Volume} (h : Kept v n.toNat) (hs : Shows s v) (hfew : (v.inode n.toNat).iFnum.toNat +
  2 < 384) {name : Text}
  (hname : name.bytes ≠ []) (hwell : Well (taken v') v') (howned : v'.Owned)
    (hstraight : v'.Straight 0)
include h hs hfew hname hwell howned hstraight

theorem step_link {srcPath newPath : Text} (htarget : s.target (.link srcPath newPath) = .ok
    (n, name))
    (hlinks : Links (taken v) e v srcPath newPath v')
    (hsucceeds : s.Succeeds n name (.link srcPath newPath)) :
    Steps n.toNat name (.link srcPath newPath) v v' := by
  cases hlinks with
  | directory hsrc hsrcload hdir =>
    obtain ⟨-, hnot⟩ :=
      hsucceeds _ (by rw [hs.currentDir_eq]; exact eq_ok_of_refines (hs.parsePath _ _) hsrc)
    rw [hs.load hsrcload, hdir] at hnot
    cases hnot
  | @linked _ hlinked =>
    obtain @⟨_, m, _, _, _, j, hm, hn, hsrc, hsrcload, hfile, ht, hl, hwrote⟩ := hlinked
    obtain ⟨rfl, rfl, rfl⟩ := h.of_target hs htarget ht hl
    have hj : j.addLink.iNum.toNat ∈ taken v → v.Holds j.addLink.iNum.toNat j.addLink := fun hmem =>
      (h.owned.holds ((loaded h.well hm hsrcload).imp_right And.right) hmem).of_table rfl
    have hlen := FileSys.length_of_target htarget
    obtain ⟨hmem, hfnum, hputs⟩ := h.link hfew hj hname (by omega) hwrote
    exact ⟨h.puts hwell howned hstraight hmem hputs (by omega) (by omega) (by omega), _, hfew, _,
      hputs,
      h.free _ le_rfl hfew, m, rfl⟩

theorem step_rename {oldName newName : Text} (htarget : s.target (.rename oldName newName) = .ok
    (n, name))
    (hrenames : Renames (taken v) v oldName newName v')
    (hsucceeds : s.Succeeds n name (.rename oldName newName)) :
    Steps n.toNat name (.rename oldName newName) v v' := by
  obtain ⟨rfl, hdot, hdotdot, hfound⟩ := hsucceeds
  cases hrenames with
  | intro hn ht hl hchild hdnum hfits hwrote =>
    obtain ⟨rfl, rfl, rfl⟩ := h.of_target hs htarget ht hl
    have hlen := FileSys.length_of_target htarget
    have hc := hfound _
      (by rw [h.syncFromDiskInode_eq hs]; exact eq_ok_of_refines (hs.findFile _ _) hchild)
    obtain ⟨j, hj, hdnum', hentry⟩ := entry_of_findFile (h.well.within _ h.mem) hname (by omega)
      hchild hc
    obtain rfl := Except.ok.inj (hdnum.symm.trans hdnum')
    obtain ⟨h2, hlt⟩ := h.slot_bounds (by omega) hentry hdot hdotdot
    obtain ⟨hmem, hfnum, hputs⟩ := h.rename (by omega) h2 hlt (by omega) hfits hwrote
    exact ⟨h.puts hwell howned hstraight hmem hputs h2 (by omega) (by omega), j, by omega, _, hputs,
      _, hentry, rfl⟩

theorem step_rmdir {path : Text} (htarget : s.target (.rmdir path) = .ok (n, name))
    (hremoves : Removes (taken v) v path v')
    (hsucceeds : s.Succeeds n name (.rmdir path)) : Steps n.toNat name (.rmdir path) v v' := by
  obtain ⟨hdot, hdotdot, hfound⟩ := hsucceeds
  cases hremoves with
  | intro hn ht hl hchild hc hdnum hwrote =>
    obtain ⟨rfl, rfl, rfl⟩ := h.of_target hs htarget ht hl
    have hlen := FileSys.length_of_target htarget
    obtain ⟨hc0, hcn⟩ :=
      hfound _ (by rw [h.syncFromDiskInode_eq hs]; exact eq_ok_of_refines (hs.findFile _ _) hchild)
    obtain ⟨j, hj, hdnum', hentry⟩ := entry_of_findFile (h.well.within _ h.mem) hname (by omega)
      hchild hc0
    obtain rfl := Except.ok.inj (hdnum.symm.trans hdnum')
    obtain ⟨h2, hlt⟩ := h.slot_bounds (by omega) hentry hdot hdotdot
    obtain ⟨hmem, hfnum, hputs⟩ := h.rmdir (by omega) h2 hlt (by omega) hc (fun heq =>
      hcn (UInt32.toNat_inj.mp heq).symm) hwrote
    exact ⟨h.puts hwell howned hstraight hmem hputs h2 (by omega) (by omega), j, by omega, _, hputs,
      _, hentry, rfl⟩

end Ops

theorem step (h : Kept v n.toNat) (hs : Shows s v) (hop : op.Keeps n s)
    (hexec : Fs.exec e op s = .ok t) :
    ∃ v' name, Shows t v' ∧ s.target op = .ok (n, name) ∧ Steps n.toNat name op v v' := by
  have hregular := hop.regular
  obtain ⟨-, hfew, name, htarget, hname, hsucceeds⟩ := hop
  rw [h.syncFromDiskInode_eq hs] at hfew
  have hfile : ∀ fd data, op ≠ .fwrite fd data := by
    rintro fd data rfl
    exact hsucceeds.elim
  obtain ⟨v', hv', hdoes, hwell⟩ := hregular.does hs h.well (removable_of_straight h.straight op)
    hexec
  have howned := h.owned.change h.well hdoes.change
  have hstraight := h.straight.change h.well hfile hdoes.change
  cases op with
  | mkdir path mode =>
    exact ⟨v', name, hv', htarget, h.step_create hs hfew hname htarget hwell howned hstraight hdoes
      hsucceeds
      fun q => ⟨rfl, q, rfl⟩⟩
  | touch path mode =>
    exact ⟨v', name, hv', htarget, h.step_create hs hfew hname htarget hwell howned hstraight hdoes
      hsucceeds
      fun q => ⟨rfl, q, rfl⟩⟩
  | link srcPath newPath =>
    exact ⟨v', name, hv', htarget, h.step_link hs hfew hname hwell howned hstraight htarget hdoes
      hsucceeds⟩
  | rename oldName newName =>
    obtain ⟨v', hv', hrenames, hwell⟩ := hregular.renames hs h.well hexec
    exact ⟨v', name, hv', htarget, h.step_rename hs hfew hname hwell (h.owned.change h.well
      (.rename (e := e) hrenames))
      (h.straight.change h.well hfile (.rename (e := e) hrenames)) htarget hrenames hsucceeds⟩
  | rmdir path =>
    exact ⟨v', name, hv', htarget, h.step_rmdir hs hfew hname hwell howned hstraight htarget hdoes
      hsucceeds⟩
  | _ => exact hsucceeds.elim

end Volume.Kept

theorem FileSys.OneDirectory.kept {s : FileSys} {n : UInt32} (h : s.OneDirectory n) :
    s.volume.Kept n.toNat := by
  have hs := h.shows
  have hnat : ∀ {q : Nat}, q ∈ taken s.volume → (UInt32.ofNat q).toNat = q :=
    fun hq => toNat_ofNat_of_lt (by have := hq.1; omega)
  have huse : ∀ {q : Nat}, q ∈ taken s.volume → (UInt32.ofNat q).toNat < 8192 ∧
      s.inodebmp.bit (UInt32.ofNat q).toNat = true :=
    fun hq => by
    rw [hnat hq]
    exact hq
  have hmem : n.toNat ∈ taken s.volume := ⟨h.lt, h.allocated⟩
  have hdata : ∀ q ∈ taken s.volume, ∀ k, (s.volume.inode q).iDirectTable k ≠ 0 →
      ((s.volume.inode q).iDirectTable k).toNat ∈ dataBlocks ∧
          s.volume.blockBit ((s.volume.inode q).iDirectTable k).toNat = true :=
    fun q hq k hk => h.data _ k (huse hq).1 (huse hq).2 hk
  have hwithin : ∀ q ∈ taken s.volume, Within dataBlocks (s.volume.inode q) := fun q hq k =>
    or_iff_not_imp_left.mpr fun hk => (hdata q hq k hk).1
  have hinode : s.volume.inode n.toNat = s.syncFromDiskInode n :=
    congrArg s.syncFromDiskInode UInt32.ofNat_toNat
  refine ⟨⟨h.tables, fun q hq => hq.1, fun q hq => ?_, hwithin, h.current⟩, fun q hq =>
    ⟨fun k hk => (hdata q hq k hk).2,
    fun k hk k' hk' => ?_, fun k hk q' hq' hne k' heq => ?_⟩, fun q hq => h.indirect _ (huse hq).1
      (huse hq).2, hmem, ?_, ?_,
    fun k hk hk' => ?_⟩
  · exact (congrArg UInt32.toNat (h.num _ (huse hq).1 (huse hq).2)).trans (hnat hq)
  · exact (h.distinct _ k _ k' (huse hq).1 (huse hq).2 (huse hq).1 (huse hq).2 hk hk').2
  · have hqq := (h.distinct _ k _ k' (huse hq).1 (huse hq).2 (huse hq').1 (huse hq').2 hk heq).1
    exact hne (by rw [← hnat hq', hqq, hnat hq])
  · rw [← hs.entry h.lt (hwithin _ hmem)]
    exact h.dot
  · rw [← hs.entry h.lt (hwithin _ hmem)]
    exact h.dotdot
  · rw [← hs.entry h.lt (hwithin _ hmem)]
    exact h.free k (by rwa [hinode] at hk) hk'

theorem Volume.Kept.oneDirectory {s : FileSys} {v : Volume} {n : UInt32} (h : Kept v n.toNat)
    (hs : Shows s v) :
    s.OneDirectory n := by
  have huse : ∀ {q : UInt32}, q.toNat < 8192 → s.inodebmp.bit q.toNat = true →
      q.toNat ∈ taken v ∧ s.syncFromDiskInode q = v.inode q.toNat := fun hq hbit =>
    ⟨⟨hq, by rw [hs.inodeBit _ hq, hbit]⟩, hs.load (load_of_lt hq)⟩
  refine ⟨hs.mounted h.well.low, h.mem.1, by rw [← hs.inodeBit _ h.mem.1]; exact h.mem.2,
    fun q hq hbit => ?_,
    fun q k hq hbit hk => ?_, fun q k q' k' hq hbit hq' hbit' hk heq => ?_, fun q hq hbit => ?_, ?_,
      ?_, ?_, fun k hk hk' => ?_⟩
  · obtain ⟨hmem, hinode⟩ := huse hq hbit
    rw [hinode]
    exact UInt32.toNat_inj.mp (h.well.num _ hmem)
  · obtain ⟨hmem, hinode⟩ := huse hq hbit
    rw [hinode] at hk ⊢
    have hdata := (h.well.within _ hmem k).resolve_left hk
    rw [← hs.blockBit _ hdata.2]
    exact ⟨hdata, (h.owned _ hmem).bit k hk⟩
  · obtain ⟨hmem, hinode⟩ := huse hq hbit
    obtain ⟨hmem', hinode'⟩ := huse hq' hbit'
    rw [hinode] at hk heq
    rw [hinode'] at heq
    by_cases hqq : q' = q
    · subst hqq
      exact ⟨rfl, (h.owned _ hmem).apart k hk k' heq⟩
    · exact absurd heq ((h.owned _ hmem).other k hk _ hmem' (fun heq => hqq (UInt32.toNat_inj.mp
        heq)) k')
  · obtain ⟨hmem, hinode⟩ := huse hq hbit
    rw [hinode]
    exact h.straight _ hmem
  · rw [hs.currentDir_eq]
    exact h.well.dir
  · rw [h.shows_entry hs]
    exact h.dot
  · rw [h.shows_entry hs]
    exact h.dotdot
  · rw [h.syncFromDiskInode_eq hs] at hk
    rw [h.shows_entry hs]
    exact h.free k hk hk'

/-- In a run of successful calls in directory `n`, each changes one slot and does to it what it
should. -/
theorem entries_kept {s₀ s t : FileSys} {n : UInt32} {e : Env} {op : Op} (h : s₀.OneDirectory n)
    (hrun : ReflTransGen (Step (Op.Keeps n)) s₀ s) (hop : op.Keeps n s)
    (hexec : exec e op s = .ok t) :
    ∃ name before after, s.target op = .ok (n, name) ∧ s.ChangesSlot t n before after ∧
    op.Effect name before after := by
  obtain ⟨v, hs, hkept⟩ : ∃ v, Shows s v ∧ v.Kept n.toNat := by
    refine invariant_of_path (I := fun s => ∃ v, Shows s v ∧ v.Kept n.toNat) ?_ ⟨_, h.shows, h.kept⟩
      hrun
    rintro s t ⟨v, hs, hkept⟩ ⟨e, op, hop, hexec⟩
    obtain ⟨v', name, hv', -, hkept', -⟩ := hkept.step hs hop hexec
    exact ⟨v', hv', hkept'⟩
  obtain ⟨v', name, ht, htarget, hkept', k, hk, x, hputs, heffect⟩ := hkept.step hs hop hexec
  refine ⟨name, _, x, htarget, ⟨k, hk, hkept.shows_entry hs k, ?_, fun m hm hmk => ?_⟩, heffect⟩
  · rw [hkept'.shows_entry ht, hputs k hk, if_pos rfl]
  · rw [hkept'.shows_entry ht, hputs m hm, if_neg hmk, hkept.shows_entry hs]

theorem kept_mkfs (e : Env) (s : FileSys) : (Volume.mkfs e s).Kept 0 := by
  have htaken := taken_mkfs e s
  have hinode : (Volume.mkfs e s).inode 0 = rootOf e := by simp [Volume.mkfs]
  have hentry : ∀ k < 32, (Volume.mkfs e s).entry (rootOf e) k = (dentryAt (directoryBlock 0 0)
      k).entry := fun k hk => by
    have hindex : ∀ h : k / 32 < 12, (⟨_, h⟩ : Fin 12) = 0 :=
      fun _ => Fin.ext (show k / 32 = 0 by omega)
    have hne := rootOf_direct_zero e
    rw [Volume.entry_present (k := k) (by omega) (by rwa [hindex]), hindex, Volume.mkfs_block,
      show k % 32 = k by omega]
  refine ⟨htaken ▸ well_mkfs e s, owned_mkfs e s, straight_mkfs e s 0, by rw [htaken]; rfl, ?_, ?_,
    fun k hk hk' => ?_⟩
  · rw [hinode, hentry 0 (by omega), dentryAt_directoryBlock _ _ (by omega), if_neg (by omega),
      if_pos rfl]
    exact ⟨0, entry_fill (by decide) (by decide) _ _⟩
  · rw [hinode, hentry 1 (by omega), dentryAt_directoryBlock _ _ (by omega), if_pos rfl]
    exact ⟨0, entry_fill (by decide) (by decide) _ _⟩
  · rw [hinode] at hk ⊢
    by_cases hk32 : k < 32
    · have h2 : 2 ≤ k := by
        rw [show (rootOf e).iFnum = 0 from rfl] at hk
        exact hk
      rw [hentry k hk32, dentryAt_directoryBlock _ _ hk32, if_neg (by omega), if_neg (by omega),
        entry_zero]
    · refine Volume.entry_missing (by omega) (rootOf_direct_of_ne e fun heq => ?_)
      have := congrArg Fin.val heq
      simp only [Fin.val_zero] at this
      omega

theorem keeps_mkfs {e : Env} {s t : FileSys} (ht : Shows t (Volume.mkfs e s)) :
    (Op.mkdir (Text.dot.child .a) 0).Keeps 0 t := by
  have hrecord : t.syncFromDiskInode 0 = rootOf e := ht.load Volume.mkfs_load
  have htarget : t.target (.mkdir (Text.dot.child .a) 0) = .ok (0, .a) :=
    eq_ok_of_refines (ht.target _) mkfs_parentOf
  have hallocated : t.Allocated 0 := ⟨by decide, by
    rw [← ht.inodeBit _ (by decide)]
    rfl⟩
  refine ⟨fun n name hn => ?_, ?_, .a, htarget, by decide, ?_⟩
  · obtain ⟨rfl, -⟩ := Prod.mk.inj (Except.ok.inj (hn.symm.trans htarget))
    exact .inr hallocated
  · rw [hrecord]
    exact (by decide : (0 : UInt32).toNat + 2 < 384)
  · show t.findDentry (t.syncFromDiskInode 0) .a = .ok notFound
    rw [hrecord]
    exact eq_ok_of_refines (ht.findDentry _ _) mkfs_absent

theorem entries_kept_mkfs :
    ∃ s t name before after, FileSys.blank.doMkfs .blank = .ok s ∧ s.OneDirectory 0 ∧
    exec .blank (.mkdir (Text.dot.child .a) 0) s = .ok t ∧ s.target (.mkdir (Text.dot.child .a) 0) =
    .ok (0, name) ∧
    s.ChangesSlot t 0 before after := by
  obtain ⟨s, hs, hshows⟩ := doMkfs_shows .blank .blank
  obtain ⟨t, _, hexec, -⟩ := hshows.exists_exec (.mkdir (Text.dot.child .a) 0) (q := fun _ => true)
    (by decide +kernel)
  have hone : s.OneDirectory 0 := (kept_mkfs _ _).oneDirectory hshows
  obtain ⟨name, before, after, htarget, hchanges, -⟩ := entries_kept hone .refl (keeps_mkfs hshows)
    hexec
  exact ⟨s, t, name, before, after, hs, hone, hexec, htarget, hchanges⟩

def Volume.entryMeets (v : Volume) (n : UInt32) (k : Nat) (q : Option (Text × UInt32) → Bool) :
    Bool :=
  (v.load n).sure fun i =>
    if h : k / 32 < 12 then
      if i.iDirectTable ⟨_, h⟩ = 0 then q none else
        (v.read (i.iDirectTable ⟨_, h⟩)).sure fun b => q (dentryAt b (k % 32)).entry
    else q none

theorem Shows.of_entryMeets {s : FileSys} {v : Volume} (h : Shows s v) {n : UInt32} {k : Nat}
    {q : Option (Text × UInt32) → Bool} (hq : v.entryMeets n k q = true) :
    q (s.entry n k) = true := by
  have hq := h.of_sure_load hq
  unfold FileSys.entry
  split_ifs at hq ⊢
  · exact hq
  · exact h.of_sure_read hq
  · exact hq

/-- `mkdir ./a; rmdir ./.; touch b`. -/
theorem entry_overwritten : ∃ s₀ s₁ s₂ t, FileSys.blank.doMkfs .blank = .ok s₀ ∧
    exec .blank (.mkdir (Text.dot.child .a) 0) s₀ = .ok s₁ ∧
    exec .blank (.rmdir (Text.dot.child .dot)) s₁ = .ok s₂ ∧
    exec .blank (.touch .b 0) s₂ = .ok t ∧ (s₂.syncFromDiskInode 0).iFnum.toNat + 2 < 384 ∧
    s₂.entry 0 2 = some (.a, 1) ∧ t.entry 0 2 = some (.b, 0) := by
  obtain ⟨s₀, hs₀, hshows⟩ := doMkfs_shows .blank .blank
  obtain ⟨s₁, v₁, hs₁, hv₁, hrmdir⟩ := hshows.exists_exec (.mkdir (Text.dot.child .a) 0)
    (q := fun v : Volume =>
      (v.exec .blank (.rmdir (Text.dot.child .dot))).toOption.any fun v : Volume =>
      decide ((v.inode 0).iFnum.toNat + 2 < 384) && v.entryMeets 0 2 (· == some (.a, 1)) &&
      (v.exec .blank (.touch .b 0)).toOption.any fun v : Volume =>
      v.entryMeets 0 2 (· == some (.b, 0)))
    (by decide +kernel)
  obtain ⟨s₂, v₂, hs₂, hv₂, hp⟩ := hv₁.exists_exec _ hrmdir
  simp only [Bool.and_eq_true, decide_eq_true_eq] at hp
  obtain ⟨⟨hroom, ha⟩, htouch⟩ := hp
  obtain ⟨t, v, ht, hv, hb⟩ := hv₂.exists_exec _ htouch
  refine ⟨s₀, s₁, s₂, t, hs₀, hs₁, hs₂, ht, ?_, eq_of_beq (hv₂.of_entryMeets ha),
    eq_of_beq (hv.of_entryMeets hb)⟩
  rwa [hv₂.load (Volume.load_of_lt (by decide))]

end Ucas.Fs

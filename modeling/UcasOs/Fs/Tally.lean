import UcasOs.Fs.OwnBlocks
import UcasOs.Fs.Lookup
import UcasOs.Fs.Ls
import UcasOs.Fs.Counters
import Mathlib.Data.Fintype.Prod

/-! `i_fnum` as a count of entries. As long as entries are only appended, to directories and under
new names, each directory is a list without gaps that starts with its two dots. -/

namespace Ucas.Fs
open Ucas.Lib

def Dotted (D : Nat → Option (List (Text × UInt32))) : Prop :=
  ∀ q L, D q = some L → ∃ n L', L = (.dot, UInt32.ofNat q) :: (.dotdot, n) :: L'

section Dotted
variable {D D' : Nat → Option (List (Text × UInt32))} (h : Dotted D) {n : UInt32}
  {L : List (Text × UInt32)}
  (hn : D n.toNat = some L)
include h hn

theorem Dotted.append (x : Text × UInt32) :
    ∃ m L', L ++ [x] = (.dot, UInt32.ofNat n.toNat) :: (.dotdot, m) :: L' := by
  obtain ⟨m, L', rfl⟩ := h _ L hn
  exact ⟨m, L' ++ [x], rfl⟩

theorem Dotted.update (x : Text × UInt32) :
    Dotted (Function.update D n.toNat (some (L ++ [x]))) := by
  intro q K hq
  rw [Function.update_apply] at hq
  split_ifs at hq with hqn
  · subst hqn
    obtain rfl := Option.some.inj hq
    exact h.append hn x
  · exact h q K hq

theorem Dotted.enters {fmode : UInt16} {q : Nat} {name : Text}
    (henters : Tree.Enters D D' fmode n q L name) :
    Dotted D' := by
  intro p K hp
  by_cases hpn : p = n.toNat
  · subst hpn
    obtain rfl := Option.some.inj (henters.entries.symm.trans hp)
    exact h.append hn _
  by_cases hpq : p = q
  · subst hpq
    cases hmode : sIsdir fmode with
    | true =>
      obtain rfl := Option.some.inj ((henters.child hmode).symm.trans hp)
      exact ⟨n, [], rfl⟩
    | false =>
      rw [henters.file hmode] at hp
      cases hp
  · rw [henters.other p hpn hpq] at hp
    exact h p K hp

end Dotted

theorem dotted_mkfsTree : Dotted mkfsTree := by
  intro q L hq
  unfold mkfsTree at hq
  split_ifs at hq with hq0
  subst hq0
  exact ⟨0, [], (Option.some.inj hq).symm⟩

namespace Tree
variable {v : Volume} {D : Nat → Option (List (Text × UInt32))} (h : Tree v D)
include h

theorem stored {i : Inode} (hold : sIsdir (v.inode i.iNum.toNat).iFmode = false)
    (hnew : sIsdir i.iFmode = false) :
    Tree (v.stored i) D := by
  have hne : ∀ q L, D q = some L → q ≠ i.iNum.toNat := by
    rintro q L hq rfl
    rw [(h.dir _ L hq).mode] at hold
    cases hold
  refine h.frame (fun q L hq => Function.update_of_ne (hne q L hq) _ _) (fun _ _ _ _ _ => rfl)
    (fun _ hp => hp)
    (fun _ hk => hk) fun q hq hmode => ?_
  by_cases hqi : q = i.iNum.toNat
  · rw [hqi] at hmode
    simp only [Volume.stored, Function.update_self, hnew] at hmode
    cases hmode
  · simp only [Volume.stored, Function.update_of_ne hqi] at hmode
    exact h.all q hq hmode

theorem took {i : Inode} (hi : v.inode i.iNum.toNat = i) (hmode : sIsdir i.iFmode = false) {a : Nat}
    {bs : List Nat}
    {r : Inode × Volume} (htook : Volume.Took i v a bs r) {f : Nat → Block} (hf : ∀ q L, D q = some
    L → ∀ k : Fin 12,
      32 * k.val < L.length → f ((v.inode q).iDirectTable k).toNat = v.block
      ((v.inode q).iDirectTable k).toNat)
    (k : Fin 32) (d : FileDescriptor) : Tree { r.2.setDescriptor k d with block := f } D := by
  have hrecord : ∀ q, q ≠ i.iNum.toNat → r.2.inode q = v.inode q := fun q hq => by
    rw [htook.record, Function.update_of_ne hq]
  refine h.frame (fun q L hq => hrecord q ?_) hf (fun p hp => htook.inodeBit ▸ hp)
    (fun b hb => (htook.bit b).trans (by rw [hb, Bool.true_or])) fun q hq hdir => ?_
  · rintro rfl
    rw [← hi, (h.dir _ L hq).mode] at hmode
    cases hmode
  · have hmem : q ∈ taken v := ⟨hq.1, htook.inodeBit ▸ hq.2⟩
    by_cases hqi : q = i.iNum.toNat
    · have hself : r.2.inode q = r.1 := by rw [htook.record, hqi, Function.update_self]
      have hfile : sIsdir (r.2.inode q).iFmode = false := by rw [hself, htook.iFmode, hmode]
      exact absurd (hfile.symm.trans hdir) (by decide)
    · refine h.all q hmem ?_
      rw [← hrecord q hqi]
      exact hdir

end Tree

def Tallied (v : Volume) : Prop := ∃ D, Tree v D ∧ Dotted D

theorem tallied_mkfs (e : Env) (s : FileSys) : Tallied (Volume.mkfs e s) :=
  ⟨_, tree_mkfs e s, dotted_mkfsTree⟩

theorem Tallied.inSession {v : Volume} (h : Tallied v) (f : Session → Session) :
    Tallied (v.inSession f) := by
  obtain ⟨D, hD, hdots⟩ := h
  exact ⟨D, hD.inSession f, hdots⟩

namespace FileSys
variable (s : FileSys)

structure KeepsOff (d : FileDescriptor) (len : Nat) : Prop where
  allocated : s.Allocated d.fdInum
  mode : sIsdir (s.syncFromDiskInode d.fdInum).iFmode = false
  short : d.fdWOffset.toNat + len < 49152
  present : ∀ j : Fin 12, j.val = d.fdWOffset.toNat / 4096 → d.fdWOffset.toNat ≠ 0 →
    (s.syncFromDiskInode d.fdInum).iDirectTable j ≠ 0
  buffer : FitsBuffer d.fdWOffset.toNat len
  free : blocksFor d.fdWOffset.toNat len ≤ (clears s.blockbmp.bit 262144).length
  span : ∀ x ∈ (writeBlocks (s.syncFromDiskInode d.fdInum) s.blockbmp.bit d.fdWOffset.toNat
    len).head?,
    ∀ y ∈ (writeBlocks (s.syncFromDiskInode d.fdInum) s.blockbmp.bit d.fdWOffset.toNat
      len).getLast?,
      y + 1 - x ≤ 5 ∧ ∀ p, s.IsDirectory p → ∀ k, (s.syncFromDiskInode p).iDirectTable k ≠ 0 →
        x ≤ ((s.syncFromDiskInode p).iDirectTable k).toNat →
          y < ((s.syncFromDiskInode p).iDirectTable k).toNat

/-- A call of `do_rename` that finds the old name in slot `dnum` of directory `n` is refused by
`write_dentry`, or the slot is the next one: then an entry is appended. -/
def Appends (n : UInt32) (name newName : Text) (dnum : UInt32) : Prop :=
  (dnum < 2 ∨ (s.syncFromDiskInode n).iFnum + 2 < dnum) ∨
    dnum = (s.syncFromDiskInode n).iFnum + 2 ∧ s.Takes n newName ∧ newName.length < 124 ∧
      ∀ c, s.findFile (s.syncFromDiskInode n) name = .ok c → s.InUse c

end FileSys

/-- The calls that append entries under new names to directories that have room, and those that
change no directory. -/
def Op.Appends (op : Op) (s : FileSys) : Prop :=
  op.Regular s ∧ match op with
  | .mkdir _ _ | .touch _ _ =>
    ∀ n name, s.target op = .ok (n, name) → s.Finds n name ∨ s.Takes n name
  | .symlink _ _ => ∀ n name, s.target op = .ok (n, name) → s.Takes n name
  | .link srcPath _ =>
    ∀ m, s.parsePath srcPath s.currentDir = .ok m → sIsdir (s.syncFromDiskInode m).iFmode = true ∨
      s.InUse m ∧ ∀ n name, s.target op = .ok (n, name) → s.Takes n name
  | .rename oldName newName => ∀ n name dnum, s.target op = .ok (n, name) →
      s.findDentry (s.syncFromDiskInode n) oldName = .ok dnum → s.Appends n name newName dnum
  | .fwrite fd data =>
    ∀ k, FileSys.descriptor fd = .ok k → s.KeepsOff (s.fileDescriptorTable k) data.length
  | .rmdir _ => False
  | _ => True

section Step
variable {s t : FileSys} {v v' : Volume} {e : Env} {D : Nat → Option (List (Text × UInt32))}
  (hs : Shows s v)
include hs

theorem Tree.appends {u : Volume} (h : Tree u D) (hdots : Dotted D) {n : UInt32} {name : Text}
    (htakes : s.Takes n name)
    (hD : Tree v D) {x : UInt32} {d : Dentry} (hd : d.Reads (name, x)) (hx : x.toNat ∈ taken u)
    {r : Inode × Volume}
    (hr : Volume.Wrote u (u.inode n.toNat) ((u.inode n.toNat).iFnum + 2) d r) : Tallied r.2 := by
  obtain ⟨L, hL, hlen, hnew⟩ := hD.of_takes hs htakes
  exact ⟨_, h.append hL hd hlen hx htakes.nonempty hnew hr, hdots.update hL _⟩

variable (h : Tallied v)
include h

theorem Tallied.made {v₁ : Volume} {op : Op} {n : UInt32} {name : Text} {i i' : Inode}
    {fmode : UInt16}
    {content : Option (UInt32 → Block)} {q : Nat} (htarget : v.target op = .ok (n, name))
    (htakes : s.Takes n name)
    (hload : v.load n = .ok i) (hmakes : Volume.Makes n op fmode content) (hmade : Volume.Made e v
    fmode content q v₁)
    (hwrote : Volume.Wrote v₁ i (i.iFnum + 2) (e.stack.fill (UInt32.ofNat q) name) (i', v')) :
    Tallied v' := by
  obtain ⟨D, hD, hdots⟩ := h
  obtain ⟨L, D', hL, hD', henters⟩ :=
    hD.enters hs (eq_ok_of_refines (hs.target op) htarget) htakes hload hmakes hmade hwrote
  exact ⟨D', hD', hdots.enters hL henters⟩

theorem Tallied.creates {V : Set Nat} {op : Op}
    (hop : ∀ n name, s.target op = .ok (n, name) → s.Finds n name ∨ s.Takes n name)
    (hc : Volume.Creates V e v op v') :
    Tallied v' := by
  cases hc with
  | present => exact h
  | made habsent hadds =>
    obtain ⟨hn, htarget, hload, hmakes, hmade, hwrote⟩ := hadds
    have htarget' := eq_ok_of_refines (hs.target op) htarget
    refine h.made hs htarget ((hop _ _ htarget').resolve_left fun ⟨dnum, hdnum, hne⟩ => hne ?_)
      hload hmakes hmade hwrote
    rw [hs.load hload, eq_ok_of_refines (hs.findDentry _ _) habsent] at hdnum
    exact (Except.ok.inj hdnum).symm

theorem Tallied.links {srcPath newPath : Text} (hw : Well (taken v) v)
    (hop : (Op.link srcPath newPath).Appends s)
    (hl : Volume.Links (taken v) e v srcPath newPath v') : Tallied v' := by
  cases hl with
  | directory => exact h
  | @linked v' hlinked =>
    obtain @⟨name, m, n, i, i', j, hm, hn, hsrc, hsrcload, hfile, htarget, hload, hwrote⟩ := hlinked
    obtain ⟨D, hD, hdots⟩ := h
    have htarget := eq_ok_of_refines (hs.target _) htarget
    obtain hdir | ⟨huse, htakes⟩ := hop.2 m (by
      rw [hs.currentDir_eq]
      exact eq_ok_of_refines (hs.parsePath _ _) hsrc)
    · rw [hs.load hsrcload, hfile] at hdir
      cases hdir
    have htakes := htakes n name htarget
    have hmem := huse.shows hs
    obtain rfl : v.inode m.toNat = j :=
      Except.ok.inj ((Volume.load_of_lt huse.lt).symm.trans hsrcload)
    obtain rfl : v.inode n.toNat = i :=
      (htakes.isDirectory.shows hs).2.symm.trans (hs.load hload)
    have hnum : (v.inode m.toNat).addLink.iNum.toNat = m.toNat := hw.num _ hmem
    -- the record that gets one more link is not the directory's
    have hother : (v.stored (v.inode m.toNat).addLink).inode n.toNat = v.inode n.toNat := by
      refine Function.update_of_ne (fun heq => ?_) _ _
      have hmode := htakes.isDirectory.mode
      rw [hs.load hload, heq, hnum, hfile] at hmode
      cases hmode
    rw [← hother] at hwrote
    have hshort := FileSys.length_of_target htarget
    have hstored := hD.stored (i := (v.inode m.toNat).addLink) (by rw [hnum]; exact hfile) hfile
    exact hstored.appends hs hdots htakes hD (reads_fill (by omega)) hmem hwrote

theorem Tallied.renames {oldName newName : Text} (hop : (Op.rename oldName newName).Appends s)
    (hr : Volume.Renames (taken v) v oldName newName v') : Tallied v' := by
  cases hr with
  | @intro name n c dnum i i' hn htarget hload hchild hdnum hfits hwrote =>
    obtain ⟨D, hD, hdots⟩ := h
    have hinode := hs.load hload
    have hfound : s.findDentry (s.syncFromDiskInode n) oldName = .ok dnum := by
      rw [hinode]
      exact eq_ok_of_refines (hs.findDentry _ _) hdnum
    obtain hrefused | ⟨hslot, htakes, hshort, hc⟩ :=
      hop.2 n name dnum (eq_ok_of_refines (hs.target _) htarget) hfound
    · rw [hinode] at hrefused
      obtain rfl : v' = v := hwrote.eq_of_refused hrefused
      exact ⟨D, hD, hdots⟩
    · have huse := (hc c (by rw [hinode]; exact eq_ok_of_refines (hs.findFile _ _) hchild)).shows hs
      rw [hinode] at hslot
      subst hslot
      obtain rfl : v.inode n.toNat = i := (htakes.isDirectory.shows hs).2.symm.trans hinode
      exact hD.appends hs hdots htakes hD (reads_putBytes hshort) huse hwrote

theorem Tallied.fwrite {fd : UInt32} {data : List UInt8} (hw : Well (taken v) v) (ho : v.Owned)
    (hop : (Op.fwrite fd data).Appends s) (hexec : exec e (.fwrite fd data) s = .ok t) :
    ∃ v', Shows t v' ∧ Well (taken v') v' ∧ v'.Owned ∧ Tallied v' := by
  obtain ⟨D, hD, hdots⟩ := h
  obtain ⟨⟨x, t'⟩, hok, rfl⟩ := exists_of_map_ok hexec
  obtain ⟨k, hk, -⟩ := exists_of_bind_ok hok
  have hkeeps := hop.2 k hk
  have hd : v.fileDescriptorTable k = s.fileDescriptorTable k := (hs.descriptor_eq k).symm
  generalize hdd : s.fileDescriptorTable k = d at hkeeps hd
  have hq := hkeeps.allocated.shows hs
  obtain ⟨hload, hnum⟩ := hw.load_of_mem hq
  have hinode : s.syncFromDiskInode d.fdInum = v.inode (inodeKey d.fdInum) :=
    hs.load hload
  obtain ⟨-, hmode, hshort, hpresent, hbuffer, hfree, hspan⟩ := hkeeps
  rw [clears_congr fun b hb => (hs.blockBit b hb).symm] at hfree
  rw [hs.writeBlocks_eq hload] at hspan
  rw [hinode] at hpresent hmode
  obtain ⟨r, f, hrun, htook, hf⟩ := Volume.fwrite_took hk hd hload (hnum.symm ▸ hq.1) (by rw [hnum])
    hw.low (hw.within _ hq)
    hshort hpresent hbuffer hfree fun x hx y hy => (hspan x hx y hy).1
  have hchange : Volume.Change (taken v) e v (.fwrite fd data) _ :=
    (Volume.fwrite_ensures hw e fd data (fun k' hk' => by
      obtain rfl : k' = k := Except.ok.inj (hk'.symm.trans hk)
      rw [hd]
      refine ⟨.inr hq, by omega, fun hne i hi j hj => ?_⟩
      obtain rfl := Except.ok.inj (hload.symm.trans hi)
      exact hpresent j (hj.trans (UInt32.toNat_div ..)) fun hzero => hne (UInt32.toNat_inj.mp
        hzero))).of_ok hrun
  obtain ⟨⟨x', t''⟩, ht, -, hshows⟩ := (hs.doFwrite fd data).exists_ok hrun
  obtain ⟨-, rfl⟩ := Prod.mk.inj (Except.ok.inj (hok.symm.trans ht))
  refine ⟨_, hshows, (hw.change subset_rfl hchange).mono Set.subset_union_right, ho.change hw
    hchange, D, ?_, hdots⟩
  refine hD.took (by rw [hnum]) hmode htook (fun q L hL j hj => ?_) k _
  have hdir := hD.dir q L hL
  have hdata := hdir.block j hj
  have hqnat : (UInt32.ofNat q).toNat = q := toNat_ofNat_of_lt (by have := hdir.lt; omega)
  have hentry : s.IsDirectory (UInt32.ofNat q) := Dir.isDirectory (L := L) hs (hqnat.symm ▸ hdir)
  have hrecord := (hentry.shows hs).2
  rw [hqnat] at hrecord
  refine hf _ (fun hmem => ?_) fun x hx y hy hle => ?_
  · -- a block of the file, or a free one, is no block of a directory
    refine ho.not_has_writeBlocks hq ⟨hdir.lt, hdir.inodeBit⟩ (fun heq => ?_) hpresent hdata hmem j
      (UInt32.ofNat_toNat).symm
    rw [← heq, hdir.mode] at hmode
    cases hmode
  · have hout := (hspan x hx y hy).2 _ hentry j
    rw [hrecord] at hout
    exact hout (ne_zero_of_mem_dataBlocks hdata) hle

theorem Tallied.step {op : Op} (hw : Well (taken v) v) (ho : v.Owned) (hop : op.Appends s)
    (hexec : exec e op s = .ok t) :
    ∃ v', Shows t v' ∧ Well (taken v') v' ∧ v'.Owned ∧ Tallied v' := by
  have hrmdir : ∀ path, op ≠ .rmdir path := by
    rintro path rfl
    exact hop.2
  obtain ⟨v', hv', hdoes, hw'⟩ := hop.1.does hs hw (fun path _ _ _ _ hpath => absurd hpath
    (hrmdir path)) hexec
  have hquiet : op.Quiet ∨ (∃ name, op = .cd name) → Tallied v' := fun hq => by
    obtain ⟨f, rfl⟩ := hdoes.change.exists_inSession hq
    exact h.inSession f
  have ho' := ho.change hw hdoes.change
  cases op with
  | mkdir path mode => exact ⟨v', hv', hw', ho', h.creates hs hop.2 hdoes⟩
  | touch name mode => exact ⟨v', hv', hw', ho', h.creates hs hop.2 hdoes⟩
  | symlink srcPath newPath =>
    refine ⟨v', hv', hw', ho', ?_⟩
    cases hdoes with
    | session f => exact h.inSession f
    | create hadds =>
      obtain ⟨hn, htarget, hload, hmakes, hmade, hwrote⟩ := hadds
      exact h.made hs htarget (hop.2 _ _ (eq_ok_of_refines (hs.target _) htarget)) hload hmakes
        hmade hwrote
  | link srcPath newPath => exact ⟨v', hv', hw', ho', h.links hs hw hop hdoes⟩
  | rename oldName newName =>
    obtain ⟨v', hv', hrenames, hw'⟩ := hop.1.renames hs hw hexec
    exact ⟨v', hv', hw', ho.change hw (.rename (e := e) hrenames), h.renames hs hop hrenames⟩
  | fwrite fd data => exact h.fwrite hs hw ho hop hexec
  | rmdir path => exact absurd rfl (hrmdir path)
  | cd name => exact ⟨v', hv', hw', ho', hquiet (.inr ⟨name, rfl⟩)⟩
  | _ => exact ⟨v', hv', hw', ho', hquiet (.inl trivial)⟩

end Step

theorem Reach.tallied {t : FileSys} (h : Reach Op.Appends t) : ∃ v, Shows t v ∧ Tallied v := by
  obtain ⟨v, hv, -, -, htallied⟩ := h.invariant (I := fun v => Well (taken v) v ∧ v.Owned ∧
    Tallied v)
    (fun e s => ⟨taken_mkfs e s ▸ well_mkfs e s, owned_mkfs e s, tallied_mkfs e s⟩)
    fun {s t v e op} hs ⟨hw, ho, htallied⟩ hop hexec => htallied.step hs hw ho hop hexec
  exact ⟨v, hv, htallied⟩

namespace FileSys
variable (s : FileSys) (n : UInt32)

def Filled (k : Fin 12) (j : Fin 32) : Prop :=
  (s.syncFromDiskInode n).iDirectTable k ≠ 0 ∧ (s.entryAt n k j).isEmpty = false

instance (k : Fin 12) (j : Fin 32) : Decidable (s.Filled n k j) :=
  inferInstanceAs (Decidable (_ ∧ _))

def Listed (k : Fin 12) (j : Fin 32) : Prop :=
  s.Filled n k j ∧ (s.entryAt n k j).dName ≠ .dot ∧ (s.entryAt n k j).dName ≠ .dotdot

instance (k : Fin 12) (j : Fin 32) : Decidable (s.Listed n k j) :=
  inferInstanceAs (Decidable (_ ∧ _))

/-- `i_fnum` is the number of entries other than `.` and `..`, no entry stands behind them, and no
two have one name. -/
structure CountsEntries : Prop where
  count : (s.syncFromDiskInode n).iFnum.toNat = (Finset.univ.filter fun x : Fin 12 × Fin 32 =>
    s.Listed n x.1 x.2).card
  below : ∀ k j, s.Filled n k j → 32 * k.val + j.val < (s.syncFromDiskInode n).iFnum.toNat + 2
  distinct : ∀ k j k' j', s.Filled n k j → s.Filled n k' j' →
    (s.entryAt n k j).dName = (s.entryAt n k' j').dName →
    k = k' ∧ j = j'

end FileSys

theorem Dentry.Reads.isEmpty_iff {d : Dentry} {x : Text × UInt32} (h : d.Reads x) :
    d.isEmpty = true ↔ x.2 = 0 ∧ x.1.bytes = [] := by
  have hname : x.1.bytes = textFrom d (123 + 1) 4 := congrArg Text.bytes h.dName.symm
  rw [Dentry.isEmpty, Bool.and_eq_true, beq_iff_eq, beq_iff_eq, h.dInum, hname, textFrom_succ]
  refine and_congr_right fun _ => ⟨fun hzero => if_pos hzero, fun hnil => ?_⟩
  split_ifs at hnil with hzero
  exact hzero

section Entries
variable {s : FileSys} {v : Volume} (h : Shows s v) {n : UInt32} {L : List (Text × UInt32)}
  (hdir : Dir v n.toNat L)
  (hinode : s.syncFromDiskInode n = v.inode n.toNat) {k k' : Fin 12} {j j' : Fin 32}
include h hdir hinode

theorem Dir.filled_iff : s.Filled n k j ↔ 32 * k.val + j.val < L.length := by
  rw [FileSys.Filled, hinode]
  by_cases hused : 32 * k.val < L.length
  swap
  · simp only [hdir.noBlock k (by omega), ne_eq, not_true_eq_false, false_and, false_iff]
    omega
  have hdata := hdir.block k hused
  have hne := ne_zero_of_mem_dataBlocks hdata
  have hreads : (s.entryAt n k j).Reads (L.getD (32 * k.val + j.val) (.empty, 0)) := by
    rw [FileSys.entryAt, hinode, ← UInt32.ofNat_toNat (x := (v.inode n.toNat).iDirectTable k),
      ← h.block _ hdata.1 (by have := hdata.2; omega)]
    exact hdir.entry k hused j.val j.isLt
  rw [← Bool.not_eq_true, hreads.isEmpty_iff, and_iff_right hne]
  constructor
  · intro hfull
    by_contra hge
    rw [List.getD_eq_default _ _ (by omega)] at hfull
    exact hfull ⟨rfl, rfl⟩
  · rintro hlt ⟨-, hname⟩
    rw [List.getD_eq_getElem _ _ hlt] at hname
    exact hdir.name _ (List.getElem_mem hlt) hname

theorem Dir.reads (hfilled : s.Filled n k j) :
    ∃ x, L[32 * k.val + j.val]? = some x ∧ (s.entryAt n k j).dName = x.1 := by
  obtain ⟨x, hx, hreads⟩ := hdir.entryAt h hinode ((hdir.counts hinode).mpr ⟨j.isLt,
    (hdir.filled_iff h hinode).mp hfilled⟩)
  exact ⟨x, hx, hreads.dName⟩

theorem Dir.slot_eq (hfilled : s.Filled n k j) (hfilled' : s.Filled n k' j')
    (hname : (s.entryAt n k j).dName = (s.entryAt n k' j').dName) : k = k' ∧ j = j' := by
  obtain ⟨x, hx, hdName⟩ := hdir.reads h hinode hfilled
  obtain ⟨x', hx', hdName'⟩ := hdir.reads h hinode hfilled'
  have hslot := hdir.slot_unique hx' hx (by rw [← hdName, ← hdName', hname])
  exact ⟨Fin.ext (by omega), Fin.ext (by omega)⟩

variable {m : UInt32} {L' : List (Text × UInt32)} (hdots : L = (.dot, n) :: (.dotdot, m) :: L')
include hdots

theorem Dir.listed_iff :
    s.Listed n k j ↔ 2 ≤ 32 * k.val + j.val ∧ 32 * k.val + j.val < L.length := by
  rw [FileSys.Listed, hdir.filled_iff h hinode, and_comm]
  refine and_congr_left fun hlt => ?_
  obtain ⟨x, hx, hdName⟩ := hdir.reads h hinode ((hdir.filled_iff h hinode).mpr hlt)
  have hdot : L[0]? = some (.dot, n) := by rw [hdots]; rfl
  have hdotdot : L[1]? = some (.dotdot, m) := by rw [hdots]; rfl
  rw [hdName]
  constructor
  · rintro ⟨hne, hne'⟩
    by_contra hlow
    obtain hslot | hslot : 32 * k.val + j.val = 0 ∨ 32 * k.val + j.val = 1 := by omega
    · rw [hslot, hdot] at hx
      exact hne (congrArg Prod.fst (Option.some.inj hx)).symm
    · rw [hslot, hdotdot] at hx
      exact hne' (congrArg Prod.fst (Option.some.inj hx)).symm
  · refine fun hle => ⟨fun heq => ?_, fun heq => ?_⟩
    · have := hdir.slot_unique hdot hx heq
      omega
    · have := hdir.slot_unique hdotdot hx heq
      omega

theorem Dir.card_named :
    (Finset.univ.filter fun x : Fin 12 × Fin 32 => s.Listed n x.1 x.2).card = L.length - 2 := by
  have hfits := hdir.fits
  rw [← Nat.card_Ico]
  refine Finset.card_bij (fun x _ => 32 * x.1.val + x.2.val) (fun x hx => ?_) (fun x _ y _ heq =>
    ?_) fun m hm => ?_
  · rw [Finset.mem_Ico]
    exact (hdir.listed_iff h hinode hdots).mp (Finset.mem_filter.mp hx).2
  · exact Prod.ext (Fin.ext (by omega)) (Fin.ext (by omega))
  · rw [Finset.mem_Ico] at hm
    refine ⟨(⟨m / 32, by omega⟩, ⟨m % 32, by omega⟩), Finset.mem_filter.mpr ⟨Finset.mem_univ _,
      ?_⟩, by simp only; omega⟩
    rw [hdir.listed_iff h hinode hdots]
    simp only
    omega

theorem Dir.countsEntries : s.CountsEntries n := by
  have hcount := hdir.count
  refine ⟨?_, fun k j hfilled => ?_, fun k j k' j' => hdir.slot_eq h hinode⟩
  · rw [hdir.card_named h hinode hdots, hinode]
    omega
  · rw [hinode, hcount]
    exact (hdir.filled_iff h hinode).mp hfilled

end Entries

/-- In every run of calls that append entries or change no directory each directory counts its
entries. -/
theorem directories_count_entries {t : FileSys} (h : Reach Op.Appends t) {n : UInt32}
    (hn : t.IsDirectory n) :
    t.CountsEntries n := by
  obtain ⟨v, hv, D, hD, hdots⟩ := h.tallied
  obtain ⟨L, hL⟩ := hD.of_isDirectory hv hn
  obtain ⟨m, L', hlist⟩ := hdots _ L hL
  rw [UInt32.ofNat_toNat] at hlist
  exact (hD.dir _ L hL).countsEntries hv (hn.shows hv).2 hlist

theorem Op.Builds.appends {op : Op} {s : FileSys} (h : op.Builds s) (hop : op.Regular s) :
    op.Appends s := by
  refine ⟨hop, ?_⟩
  cases op with
  | mkdir | touch => exact fun n name htarget => .inr (h n name htarget)
  | rmdir | rename | link | symlink | fwrite => exact h.elim
  | _ => trivial

theorem directories_count_one : ∃ s t, FileSys.blank.doMkfs .blank = .ok s ∧
    exec .blank (.mkdir (Text.dot.child .a) 0) s = .ok t ∧ t.IsDirectory 0 ∧ t.CountsEntries 0 := by
  obtain ⟨s, t, v, hs, ht, hreach, hv, hp⟩ := exists_run_checked (C := Op.Appends)
    (c := fun op v => v.builds op && v.regular op)
    (fun s v op hv hop => (hv.of_builds (Bool.and_eq_true_iff.mp hop).1).appends
      (hv.of_regular (Bool.and_eq_true_iff.mp hop).2))
    [.mkdir (Text.dot.child .a) 0] (p := fun v => v.isDirectory 0) (by decide +kernel)
  rw [runOps_singleton] at ht
  have hdir := hv.of_isDirectory hp
  exact ⟨s, t, hs, ht, hdir, directories_count_entries hreach hdir⟩

/-- `mkdir ./a; rmdir ./a`. -/
theorem rmdir_leaves_count : ∃ s₀ s t, FileSys.blank.doMkfs .blank = .ok s₀ ∧
    exec .blank (.mkdir (Text.dot.child .a) 0) s₀ = .ok s ∧ exec .blank (.rmdir (Text.dot.child .a))
    s = .ok t ∧
    t.IsDirectory 0 ∧ (t.syncFromDiskInode 0).iFnum = 1 ∧ (∀ k j, ¬ t.Listed 0 k j) ∧
    ¬ t.CountsEntries 0 := by
  obtain ⟨s₀, hs₀, hshows⟩ := doMkfs_shows .blank .blank
  obtain ⟨s, v₁, hs, hv₁, hrmdir⟩ := hshows.exists_exec (.mkdir (Text.dot.child .a) 0)
    (q := fun v : Volume =>
      (v.exec .blank (.rmdir (Text.dot.child .a))).toOption.any fun v : Volume =>
      v.isDirectory 0 && (v.inode 0).iFnum == 1 && (List.finRange 12).all fun k =>
        (List.finRange 32).all fun j => (v.inode 0).iDirectTable k == 0 ||
          (v.read ((v.inode 0).iDirectTable k)).sure fun b => (dentryAt b j).isEmpty ||
            (dentryAt b j).dName == .dot || (dentryAt b j).dName == .dotdot)
    (by decide +kernel)
  obtain ⟨t, v, ht, hv, hp⟩ := hv₁.exists_exec _ hrmdir
  rw [show v.inode 0 = t.syncFromDiskInode 0 from hv.inode 0 (by omega)] at hp
  simp only [Bool.and_eq_true, beq_iff_eq] at hp
  obtain ⟨⟨hdir, hfnum⟩, hall⟩ := hp
  have hnone : ∀ k j, ¬ t.Listed 0 k j := by
    rintro k j ⟨⟨hne, hempty⟩, hdot, hdotdot⟩
    have hslots := List.all_eq_true.mp hall k (List.mem_finRange k)
    have hslot := List.all_eq_true.mp hslots j (List.mem_finRange j)
    rw [beq_false_of_ne hne, Bool.false_or] at hslot
    have hslot := hv.of_sure_read hslot
    rw [Bool.or_eq_true_iff, Bool.or_eq_true_iff, beq_iff_eq, beq_iff_eq] at hslot
    obtain (hslot | hslot) | hslot := hslot
    · exact absurd (hslot.symm.trans hempty) (by decide)
    · exact hdot hslot
    · exact hdotdot hslot
  refine ⟨s₀, s, t, hs₀, hs, ht, hv.of_isDirectory hdir, hfnum, hnone, fun hcounts => ?_⟩
  have hcard := hcounts.count
  rw [hfnum, Finset.card_eq_zero.mpr (Finset.filter_eq_empty_iff.mpr fun x _ =>
    hnone x.1 x.2)] at hcard
  exact absurd hcard (by decide)

end Ucas.Fs

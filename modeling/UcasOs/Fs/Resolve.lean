import UcasOs.Fs.Paths
import UcasOs.Fs.Lookup

/-! Path resolution. `parse_path` does not stop at a component that is missing: it goes on from the
inode of number `-1`, which reads as a cleared record, and there from the superblock, where no entry
has a name. So it ends with `-1`. -/

namespace Ucas.Fs
open Ucas.Lib

def Lettered (v : Volume) (i : Inode) : Prop :=
  ∀ k, i.iDirectTable k ≠ 0 → Named (v.block (i.iDirectTable k).toNat)

structure Legible (V : Set Nat) (v : Volume) : Prop where
  inode : ∀ q ∈ V, Lettered v (v.inode q)
  dir : Lettered v v.currentDir

namespace Lettered
variable {v u : Volume} {i : Inode}

theorem zero : Lettered v zeroInode := fun k hk => absurd (zeroInode_iDirectTable k) hk

theorem put (h : Lettered v i) {b : Nat} {c : Block} (hc : Named c)
    (hblock : u.block = Function.update v.block b c) :
    Lettered u i := by
  intro k hk
  rw [hblock, Function.update_apply]
  split_ifs
  · exact hc
  · exact h k hk

theorem putLost (h : Lettered v i) (hi : Within dataBlocks i) {c : Block}
    (hblock : u.block = Function.update v.block 1048575 c) : Lettered u i := by
  intro k hk
  have hdata := (hi k).resolve_left hk
  rw [hblock, Function.update_of_ne (by have := hdata.2; omega)]
  exact h k hk

theorem made (h : Lettered v i) {e : Env} {fmode : UInt16} {content : Option (UInt32 → Block)}
    {q : Nat}
    (hcontent : ∀ c, content = some c → ∀ n, Named (c n))
    (hmade : Volume.Made e v fmode content q u) :
    Lettered u i := by
  cases hmade with
  | empty => exact h
  | withBlock => exact h.put (hcontent _ rfl _) rfl

end Lettered

namespace Legible
variable {V : Set Nat} {v : Volume} (h : Legible V v)
include h

theorem stored {i : Inode} (hi : Lettered v i) : Legible V (v.stored i) := by
  refine ⟨fun q hq => ?_, h.dir⟩
  simp only [Volume.stored, Function.update_apply]
  split_ifs
  · exact hi
  · exact h.inode q hq

theorem created {q : Nat} {i : Inode} (hi : Lettered v i) :
    Legible (insert q V) (v.created q i) := by
  refine ⟨fun p hp => ?_, h.dir⟩
  simp only [Volume.created, Function.update_apply]
  split_ifs with hpq
  · exact hi
  · exact h.inode p (hp.resolve_left hpq)

theorem put {b : Nat} {c : Block} (hc : Named c) {u : Volume}
    (hblock : u.block = Function.update v.block b c)
    (hinode : u.inode = v.inode) (hdir : u.currentDir = v.currentDir) : Legible V u :=
  ⟨fun q hq => hinode ▸ (h.inode q hq).put hc hblock, hdir ▸ h.dir.put hc hblock⟩

theorem of_load (hw : Well V v) {n : UInt32} {i : Inode} (hn : Known V n)
    (hload : v.load n = .ok i) :
    Lettered v i := by
  obtain rfl | hq := hn
  · rw [v.load_notFound] at hload
    obtain rfl := Except.ok.inj hload
    exact Lettered.zero
  · exact (hw.of_mem hq hload).1 ▸ h.inode _ hq

theorem wroteDentry (hw : Well V v) {i : Inode} (hwithin : Within dataBlocks i) (hi : Lettered v i)
    {dnum : UInt32}
    {d : Dentry} (hd : d.Terminated) {r : Inode × Volume} (hr : Volume.Wrote v i dnum d r) :
    Legible V r.2 ∧ Lettered r.2 r.1 := by
  cases hr with
  | refused => exact ⟨h, hi⟩
  | @grown b i' hslot hlt hzero hb hi' =>
    have hdata := Volume.firstClear_mem_dataBlocks hw.low hb
    have hnat : (UInt32.ofNat b).toNat = b := toNat_of_mem_dataBlocks hdata
    have hnamed : Named (putDentry .zero (dnum % 32).toNat d) := named_zero.put hd
    set u := v.allotted b (putDentry .zero (dnum % 32).toNat d) with hu
    have hlettered : Lettered u i' := by
      intro k hk
      rw [hi', Inode.addEntry_iDirectTable, Inode.addSize_iDirectTable, Inode.point_iDirectTable,
        Function.update_apply] at hk ⊢
      split_ifs at hk ⊢ with hkd
      · rw [hnat, hu]
        simpa [Volume.allotted] using hnamed
      · exact hi.put hnamed rfl k hk
    rw [Volume.allotted_stored]
    exact ⟨(h.put hnamed (u := u) rfl rfl rfl).stored hlettered, hlettered⟩
  | @filled hslot hlt hne =>
    have hnamed : Named (putDentry (v.block (i.iDirectTable ⟨_, hlt⟩).toNat) (dnum % 32).toNat d) :=
      (hi _ hne).put hd
    rw [Volume.wrote_stored]
    have hlettered := hi.put (u := v.wrote (i.iDirectTable ⟨_, hlt⟩).toNat _) hnamed rfl
    exact ⟨(h.put hnamed (u := Volume.wrote _ _ _) rfl rfl rfl).stored (i := i.addEntry) hlettered,
      hlettered⟩
  | lost hslot h12 =>
    rw [Volume.wrote_stored]
    set u := v.wrote 1048575 (putDentry (v.block 1048575) (dnum % 32).toNat d)
    have hlettered : Lettered u i := hi.putLost hwithin rfl
    have hlegible : Legible V u := ⟨fun q hq => (h.inode q hq).putLost (hw.within q hq) rfl,
      h.dir.putLost hw.dir rfl⟩
    exact ⟨hlegible.stored (i := i.addEntry) hlettered, hlettered⟩

theorem made (hw : Well V v) {e : Env} {fmode : UInt16} {content : Option (UInt32 → Block)}
    {q : Nat} {v₁ : Volume}
    (hcontent : ∀ c, content = some c → ∀ n, Named (c n))
    (hmade : Volume.Made e v fmode content q v₁) :
    Legible (insert q V) v₁ := by
  have hfirst : ∀ {u : Volume} {fsize b n : UInt32}, (b ≠ 0 → Named (u.block b.toNat)) →
      Lettered u (newInode e fmode fsize b n) := fun hb k hk => by
    by_cases hk0 : k = 0
    · subst hk0
      exact hb hk
    · exact absurd (by simp [newInode, Function.update_of_ne hk0]) hk
  cases hmade with
  | empty => exact h.created (hfirst fun hb => absurd rfl hb)
  | @withBlock c _ b hq hb =>
    have hdata := Volume.firstClear_mem_dataBlocks hw.low hb
    have hnat : (UInt32.ofNat b).toNat = b := toNat_of_mem_dataBlocks hdata
    have hnamed := hcontent c rfl (UInt32.ofNat q)
    have hnew := h.put hnamed (u := v.allotted b (c (UInt32.ofNat q))) rfl rfl rfl
    refine hnew.created (q := q) (hfirst fun _ => ?_)
    rw [hnat]
    simpa [Volume.allotted] using hnamed

end Legible

/-- The calls that leave entries with names: those that leave entries, but for `do_rename` to a name
that fills the entry to its last byte. -/
def Op.Spells : Op → Prop
  | .rename _ newName => newName.length < 124
  | op => op.WritesThrough

theorem Op.Spells.writesThrough {op : Op} (h : op.Spells) : op.WritesThrough := by
  cases op with
  | rename => trivial
  | _ => exact h

theorem Legible.change {s : FileSys} {V : Set Nat} {v v' : Volume} {e : Env} {op : Op}
    (h : Legible V v) (hs : Shows s v)
    (hw : Well V v) (htaken : taken v ⊆ V) (hop : op.Spells) (hc : Volume.Change V e v op v') :
    Legible (V ∪ taken v') v' := by
  have hshort : ∀ {n : UInt32} {name : Text}, v.target op = .ok (n, name) → name.length < 124 :=
      fun htarget =>
    Nat.lt_trans (FileSys.length_of_target (eq_ok_of_refines (hs.target _) htarget)) (by omega)
  cases hc with
  | session f hdir =>
    rw [union_taken_of_eq htaken (u := v.inSession f) rfl]
    exact ⟨h.inode, hdir ▸ h.dir⟩
  | @create op name i v' hadds =>
    obtain @⟨n, i', fmode, content, q, v₁, hn, htarget, hload, hmakes, hmade, hwrote⟩ := hadds
    obtain ⟨hq, -, hbit⟩ := hmade.inodeBit
    rw [union_taken_of_set htaken hq (hwrote.inodeBit.trans hbit)]
    have hcontent : ∀ c, content = some c → ∀ m, Named (c m) := by
      rintro c rfl m
      cases hmakes with
      | mkdir path mode => exact named_directoryBlock _ _
      | symlink => exact hop.elim
    have hi : Lettered v₁ i := (h.of_load hw hn hload).made hcontent hmade
    exact ((h.made hw hcontent hmade).wroteDentry (hw.made hmade) (hw.of_load hn hload).2 hi
      (terminated_fill (hshort htarget)) hwrote).1
  | @link srcPath newPath v' hlinked =>
    obtain @⟨name, m, n, i, i', j, hm, hn, hsrc, hsrcload, hfile, htarget, hload, hwrote⟩ := hlinked
    rw [union_taken_of_eq htaken hwrote.inodeBit]
    have hj := h.of_load hw hm hsrcload
    have hi := h.of_load hw hn hload
    exact ((h.stored (i := j.addLink) hj).wroteDentry (hw.stored (i := j.addLink)
      (hw.of_load hm hsrcload).2)
      (hw.of_load hn hload).2 hi (terminated_fill (hshort htarget)) hwrote).1
  | @rename oldName newName v' hrenames =>
    obtain @⟨name, n, c, dnum, i, i', hn, htarget, hload, hchild, hdnum, hfits, hwrote⟩ := hrenames
    rw [union_taken_of_eq htaken hwrote.inodeBit]
    exact (h.wroteDentry hw (hw.of_load hn hload).2 (h.of_load hw hn hload) (terminated_putBytes
      hop) hwrote).1
  | @rmdir path _ hremoves =>
    obtain @⟨name, n, c, dnum, i, i', v₁, hn, htarget, hload, hchild, hcV, hdnum, hwrote⟩ :=
      hremoves
    rw [union_taken_of_clear htaken (u := v₁.stored i'.dropEntry) hwrote.inodeBit]
    have hremoved : Legible V (v.removed c.toNat) := ⟨h.inode, h.dir⟩
    obtain ⟨hv₁, hi'⟩ := hremoved.wroteDentry (hw.removed hcV) (hw.of_load hn hload).2
      (h.of_load hw hn hload) terminated_zero
      hwrote
    exact hv₁.stored (i := i'.dropEntry) hi'
  | @cd name i hi =>
    rw [union_taken_of_eq htaken (u := v.inSession _) rfl]
    refine ⟨h.inode, ?_⟩
    obtain rfl | ⟨q, hq, rfl⟩ := hi
    · exact h.dir
    · exact h.inode q hq
  | fwrite => exact hop.elim

def Readable (V W : Set Nat) (v : Volume) : Prop :=
  taken v ⊆ V ∧ Well V v ∧ Sound V W v ∧ Legible V v

theorem readable_mkfs (e : Env) (s : FileSys) : Readable {0} {266} (Volume.mkfs e s) := by
  have hroot : Lettered (Volume.mkfs e s) (rootOf e) := by
    intro k hk
    by_cases hk0 : k = 0
    · rw [hk0, Volume.mkfs_block]
      exact named_directoryBlock 0 0
    · exact absurd (by simp [rootOf, newInode, Function.update_of_ne hk0]) hk
  have hlegible : Legible {0} (Volume.mkfs e s) := by
    refine ⟨?_, hroot⟩
    rintro q rfl
    exact hroot
  exact ⟨(taken_mkfs e s).subset, well_mkfs e s, sound_mkfs e s, hlegible⟩

theorem Reach.readable {t : FileSys} (h : Reach (fun op _ => op.Spells) t) :
    ∃ v, Shows t v ∧ ∃ V W, Readable V W v :=
  h.invariant (fun e s => ⟨_, _, readable_mkfs e s⟩) fun {s t v e op} hs ⟨V, W, htaken, hw, hsound,
      hlegible⟩ hop hexec => by
    obtain ⟨v', hv', hdoes⟩ := hsound.does hs hw e op hop.writesThrough hexec
    obtain ⟨W', hsound'⟩ := hsound.change hw htaken hop.writesThrough hdoes.change
    exact ⟨v', hv', _, W', Set.subset_union_right, hw.change htaken hdoes.change, hsound',
      hlegible.change hs hw htaken hop hdoes.change⟩

section Walk
variable {s : FileSys} {v : Volume} {V W : Set Nat} (h : Shows s v)
include h

theorem findFile_zeroInode {name : Text} (hname : name.bytes ≠ []) :
    s.findFile zeroInode name = .ok notFound := by
  refine eq_ok_of_refines (h.findFile _ _) ?_
  rw [Volume.findFile, Volume.lookup_of_zero (zeroInode_iDirectTable 0) hname]
  rfl

theorem walk_zeroInode {names : List Text} (hnames : ∀ name ∈ names, name.bytes ≠ []) :
    names.foldlM s.walk (notFound, zeroInode) = .ok (notFound, zeroInode) := by
  induction names with
  | nil => rfl
  | cons name rest ih =>
    have hload : s.syncFromDiskInode notFound = zeroInode :=
      h.load v.load_notFound
    rw [List.foldlM_cons, FileSys.walk, findFile_zeroInode h (hnames name List.mem_cons_self),
      ok_bind, hload, pure_bind]
    exact ih fun name' hname' => hnames name' (List.mem_cons_of_mem _ hname')

variable (hre : Readable V W v)
include hre

theorem Readable.findFile {i : Inode} (hi : Within W i) (hletters : Lettered v i) {name : Text}
    (hname : name.bytes ≠ []) :
    ∃ n, s.findFile i name = .ok n ∧ Known V n := by
  obtain ⟨-, -, hsound, -⟩ := hre
  by_cases hzero : i.iDirectTable 0 = 0
  · refine ⟨notFound, eq_ok_of_refines (h.findFile _ _) ?_, .inl rfl⟩
    rw [Volume.findFile, Volume.lookup_of_zero hzero hname]
    rfl
  · obtain ⟨n, hfound⟩ : ∃ n, v.findFile i name = .ok n :=
      ⟨_, Volume.findFile_eq (hsound.blocks ((hi 0).resolve_left hzero)) (hletters 0 hzero)⟩
    exact ⟨n, eq_ok_of_refines (h.findFile _ _) hfound, hsound.known_of_findFile hi hfound⟩

theorem Readable.walk {names : List Text} (hnames : ∀ name ∈ names, name.bytes ≠ []) {i : Inode}
    (hi : Within W i)
    (hletters : Lettered v i) (m : UInt32) :
    ∃ r, names.foldlM s.walk (m, i) = .ok r ∧ s.lookUp names m i = .ok r.1 := by
  induction names generalizing i m with
  | nil => exact ⟨(m, i), rfl, rfl⟩
  | cons name rest ih =>
    obtain ⟨n, hn, hknown⟩ := hre.findFile h hi hletters (hnames name List.mem_cons_self)
    have hrest : ∀ name' ∈ rest, name'.bytes ≠ [] :=
      fun name' hname' => hnames name' (List.mem_cons_of_mem _ hname')
    rw [List.foldlM_cons, FileSys.walk, FileSys.lookUp_cons, hn, ok_bind, ok_bind, pure_bind]
    split_ifs with hmiss
    · subst hmiss
      rw [h.load v.load_notFound, walk_zeroInode h hrest]
      exact ⟨_, rfl, rfl⟩
    · obtain ⟨-, hw, hsound, hlegible⟩ := id hre
      obtain ⟨j, hload, -⟩ := hw.load hknown
      rw [h.load hload]
      exact ih hrest (hsound.of_load hw hknown hload).1 (hlegible.of_load hw hknown hload) n

end Walk

/-- `parse_path` returns what looking up the components one after the other gives, `-1` if one of
them is missing. -/
theorem parse_path_resolves {t : FileSys} (h : Reach (fun op _ => op.Spells) t) {i : Inode}
    (hi : i = t.currentDir ∨ ∃ n, t.Allocated n ∧ i = t.syncFromDiskInode n) {path : Text}
    (hpath : path.length ≤ 510)
    (hnames : ∀ name ∈ path.components, name.bytes ≠ []) :
    ∃ n, t.parsePath path i = .ok n ∧ t.lookUp path.components 0 i = .ok n := by
  obtain ⟨v, hv, V, W, hre⟩ := h.readable
  obtain ⟨htaken, hw, hsound, hlegible⟩ := id hre
  have hgood : Within W i ∧ Lettered v i := by
    obtain rfl | ⟨n, hn, rfl⟩ := hi
    · rw [hv.currentDir_eq]
      exact ⟨hsound.dir, hlegible.dir⟩
    · have hknown : Known V n := .inr (htaken ⟨hn.1, by rw [hv.inodeBit _ hn.1, hn.2]⟩)
      obtain ⟨j, hload, -⟩ := hw.load hknown
      rw [hv.load hload]
      exact ⟨(hsound.of_load hw hknown hload).1, hlegible.of_load hw hknown hload⟩
  obtain ⟨r, hr, hlook⟩ := hre.walk hv hnames hgood.1 hgood.2 0
  refine ⟨r.1, ?_, hlook⟩
  rw [FileSys.parsePath, fits, if_pos (by omega), ok_bind, hr]
  rfl

theorem parse_path_resolves_mkfs : ∃ t, FileSys.blank.doMkfs .blank = .ok t ∧
    ∃ n, t.parsePath (Text.a.child .dot) t.currentDir = .ok n ∧
    t.lookUp (Text.a.child .dot).components 0 t.currentDir = .ok n := by
  obtain ⟨t, ht, -⟩ := doMkfs_shows .blank .blank
  exact ⟨t, ht, parse_path_resolves ⟨_, _, t, ht, .refl⟩ (.inl rfl) (by decide) (by decide)⟩

/-! `do_find` with a path without a slash looks the name up in the current directory, and with a
slash it looks the path up and not the name. -/

namespace FileSys

/-- Slot `j` of block `k` of directory `n` holds an entry. -/
def Holds (s : FileSys) (n : UInt32) (k : Fin 12) (j : Nat) : Prop :=
  j < 32 ∧ (s.syncFromDiskInode n).iDirectTable k ≠ 0 ∧ (s.entryAt n k j).dName.bytes ≠ []

/-- Every directory is a number of blocks of entries, with empty slots among them. -/
structure DirectoryTree (s : FileSys) : Prop where
  first : ∀ n, s.IsDirectory n → (s.syncFromDiskInode n).iDirectTable 0 ≠ 0
  named : ∀ n, s.IsDirectory n → ∀ k, (s.syncFromDiskInode n).iDirectTable k ≠ 0 →
    Named (s.readBlock ((s.syncFromDiskInode n).iDirectTable k))
  number : ∀ n, s.IsDirectory n → ∀ k j, s.Holds n k j → (s.entryAt n k j).dInum.toNat < 8192
  distinct : ∀ n, s.IsDirectory n → ∀ k j, s.Holds n k j → ∀ k' j', s.Holds n k' j' →
    (s.entryAt n k' j').dName = (s.entryAt n k j).dName → k' = k ∧ j' = j

/-- `current_dir` is a copy of directory `n`, possibly an old one. -/
structure InDirectory (s : FileSys) (n : UInt32) : Prop where
  isDirectory : s.IsDirectory n
  block : s.currentDir.iDirectTable 0 = (s.syncFromDiskInode n).iDirectTable 0

/-- Directory `n` has an entry with the name, in one of the blocks `K`. -/
def HasEntry (s : FileSys) (K : Set (Fin 12)) (n : UInt32) (name : Text) : Prop :=
  ∃ k ∈ K, ∃ j, s.Holds n k j ∧ (s.entryAt n k j).dName = name

/-- The names lead from directory `n` to directory `d`, by entries in the blocks `K`. -/
def Leads (s : FileSys) (K : Set (Fin 12)) (d : UInt32) : List Text → UInt32 → Prop
  | [], n => n = d
  | name :: rest, n => ∃ k ∈ K, ∃ j, s.Holds n k j ∧ (s.entryAt n k j).dName = name ∧
      s.IsDirectory (s.entryAt n k j).dInum ∧ s.Leads K d rest (s.entryAt n k j).dInum

/-- `do_find` says whether directory `d` has an entry with the name, and changes nothing. -/
def FindsExactly (s : FileSys) (path name : Text) (d : UInt32) : Prop :=
  ∃ r, s.doFind path name = .ok r ∧ (r = some 1 ↔ s.HasEntry Set.univ d name) ∧
    ∀ e, exec e (.find path name) s = .ok s

theorem findFile2_eq (s : FileSys) : s.findFile2 = s.findFile := by
  funext i name
  rw [findFile2, findFile, lookupInum, lookupInum, s.lookup_eq i name 1 (by decide),
    show maxBlockIndex = 1074791435 + 1 from rfl, s.lookup_eq i name 1074791435 le_rfl]

end FileSys

namespace FileSys.DirectoryTree
variable {s : FileSys} (h : s.DirectoryTree) {n : UInt32} (hn : s.IsDirectory n) {i : Inode}
  (hi : i.iDirectTable 0 = (s.syncFromDiskInode n).iDirectTable 0)
include h hn

theorem entry_number {k : Fin 12} {j : Nat} (hkj : s.Holds n k j) :
    (s.entryAt n k j).dInum ≠ notFound :=
  fun heq => absurd (heq ▸ h.number n hn k j hkj) (by decide)

include hi

theorem findFile_eq (name : Text) : s.findFile i name =
    .ok ((slotOf (s.readBlock ((s.syncFromDiskInode n).iDirectTable 0)) name).elim notFound
      fun j => (s.entryAt n 0 j).dInum) := by
  rw [FileSys.findFile, lookupInum, show maxBlockIndex = 1074791435 + 1 from rfl,
    s.lookup_eq i name 1074791435 le_rfl, hi, scan_eq_slotOf (h.named n hn 0 (h.first n hn))]
  cases slotOf (s.readBlock ((s.syncFromDiskInode n).iDirectTable 0)) name <;> rfl

theorem findFile_entry {j : Nat} (hj : s.Holds n 0 j) :
    s.findFile i (s.entryAt n 0 j).dName = .ok (s.entryAt n 0 j).dInum := by
  have hslot : slotOf (s.readBlock ((s.syncFromDiskInode n).iDirectTable 0))
      (s.entryAt n 0 j).dName = some j := by
    refine slotOf_eq_some.mpr ⟨hj.1, rfl, fun j' hj' heq => ?_⟩
    have hsame : (s.entryAt n 0 j').dName = (s.entryAt n 0 j).dName := heq
    have hholds : s.Holds n 0 j' := ⟨by have := hj.1; omega, hj.2.1, hsame ▸ hj.2.2⟩
    have := (h.distinct n hn 0 j hj 0 j' hholds hsame).2
    omega
  rw [h.findFile_eq hn hi, hslot, Option.elim_some]

theorem findFile_none {name : Text} (hname : name.bytes ≠ []) (hnot : ¬ s.HasEntry {0} n name) :
    s.findFile i name = .ok notFound := by
  have hslot : slotOf (s.readBlock ((s.syncFromDiskInode n).iDirectTable 0)) name = none := by
    refine slotOf_eq_none.mpr fun j hj heq => hnot ⟨0, rfl, j, ⟨hj, h.first n hn, ?_⟩, heq⟩
    exact (show (s.entryAt n 0 j).dName = name from heq) ▸ hname
  rw [h.findFile_eq hn hi, hslot, Option.elim_none]

theorem descend {names : List Text} {d : UInt32} (hleads : s.Leads Set.univ d names n) :
    ∃ r, s.descend s.findFile names i = .ok r ∧ (r.1 = true ↔ s.Leads {0} d names n) := by
  induction names generalizing n i with
  | nil => exact ⟨(true, i), rfl, iff_of_true rfl hleads⟩
  | cons name rest ih =>
    obtain ⟨k, -, j, hkj, rfl, hsub, hrest⟩ := hleads
    rw [FileSys.descend]
    by_cases hk : k = 0
    · subst hk
      rw [h.findFile_entry hn hi hkj, ok_bind, if_neg (h.entry_number hn hkj)]
      obtain ⟨r, hr, hfirst⟩ := ih hsub rfl hrest
      refine ⟨r, hr, hfirst.trans ⟨fun hl => ⟨0, rfl, j, hkj, rfl, hsub, hl⟩, ?_⟩⟩
      rintro ⟨k', rfl, j', hkj', heq, -, hl⟩
      obtain ⟨-, rfl⟩ := h.distinct n hn 0 j hkj 0 j' hkj' heq
      exact hl
    · have hnot : ¬ s.HasEntry {0} n (s.entryAt n k j).dName := by
        rintro ⟨k', rfl, j', hkj', heq⟩
        exact hk (h.distinct n hn k j hkj 0 j' hkj' heq).1.symm
      rw [h.findFile_none hn hi hkj.2.2 hnot, ok_bind, if_pos rfl]
      refine ⟨(false, i), rfl, iff_of_false (by simp) ?_⟩
      rintro ⟨k', rfl, j', hkj', heq, -⟩
      exact hnot ⟨0, rfl, j', hkj', heq⟩

end FileSys.DirectoryTree

section FindsExactly
variable {s : FileSys} {path name : Text} {names : List Text} {d : UInt32} {x : Bool × Inode}

theorem FileSys.doFind_eq (hsteps : pathSteps path name = .ok (some names))
    (hx : s.descend s.findFile names s.currentDir = .ok x) :
    s.doFind path name = .ok (some (if x.1 = true then 1 else 0)) := by
  rw [doFind, hsteps, ok_bind, findFile2_eq]
  dsimp only
  rw [hx, ok_bind]
  rfl

theorem FileSys.findsExactly_iff
    (hsteps : ∀ {r}, pathSteps path name = .ok r ↔ path.Fits ∧ r = some names)
    (hx : s.descend s.findFile names s.currentDir = .ok x) :
    s.FindsExactly path name d ↔ path.Fits ∧ (x.1 = true ↔ s.HasEntry Set.univ d name) := by
  have hanswer : some (if x.1 = true then (1 : UInt32) else 0) = some 1 ↔ x.1 = true := by
    cases x.1 <;> decide
  constructor
  · rintro ⟨r, hr, hright, -⟩
    obtain ⟨steps, hsteps', -⟩ := exists_of_bind_ok hr
    obtain ⟨hfits, rfl⟩ := hsteps.mp hsteps'
    obtain rfl := Except.ok.inj (hr.symm.trans (doFind_eq hsteps' hx))
    exact ⟨hfits, hanswer.symm.trans hright⟩
  · rintro ⟨hfits, hright⟩
    have hr := doFind_eq (hsteps.mpr ⟨hfits, rfl⟩) hx
    refine ⟨_, hr, hanswer.trans hright, fun e => ?_⟩
    rw [exec, hr]
    rfl

end FindsExactly

/-- `do_find` is right if and only if the answer to the question it asks happens to be the one to
the question it should ask. -/
theorem find_exact_iff {s : FileSys} (h : s.DirectoryTree) {c d : UInt32} (hc : s.InDirectory c)
    {path : Text}
    (hslash : path.countSlash ≤ 2) (hpath : s.Leads Set.univ d path.names c) {name : Text}
    (hname : name.bytes ≠ []) :
    s.FindsExactly path name d ↔ path.Fits ∧
      (Text.slash ∉ path.bytes → (s.HasEntry {0} c name ↔ s.HasEntry Set.univ d name)) ∧
      (Text.slash ∈ path.bytes → (s.Leads {0} d path.names c ↔ s.HasEntry Set.univ d name)) := by
  by_cases hs : Text.slash ∈ path.bytes
  · -- the path is looked up
    obtain ⟨x, hx, hfound⟩ := h.descend hc.isDirectory hc.block hpath
    rw [FileSys.findsExactly_iff (pathSteps_eq_ok hs hslash) hx, hfound]
    exact and_congr_right fun _ => ⟨fun h => ⟨fun hns => absurd hs hns, fun _ => h⟩, fun h =>
      h.2 hs⟩
  · -- the name is looked up in the current directory
    obtain ⟨x, hx, hfound⟩ : ∃ x, s.descend s.findFile [name] s.currentDir = .ok x ∧
        (x.1 = true ↔ s.HasEntry {0} c name) := by
      rw [FileSys.descend]
      by_cases hentry : s.HasEntry {0} c name
      · obtain ⟨k, rfl, j, hkj, rfl⟩ := id hentry
        have hnum := h.entry_number hc.isDirectory hkj
        rw [h.findFile_entry hc.isDirectory hc.block hkj, ok_bind, if_neg hnum]
        exact ⟨_, rfl, iff_of_true rfl hentry⟩
      · rw [h.findFile_none hc.isDirectory hc.block hname hentry, ok_bind, if_pos rfl]
        exact ⟨_, rfl, iff_of_false (by simp) hentry⟩
    rw [FileSys.findsExactly_iff (pathSteps_of_plain hs) hx, hfound]
    exact and_congr_right fun _ => ⟨fun h => ⟨fun _ => h, fun hs' => absurd hs' hs⟩, fun h =>
      h.1 hs⟩

/-! A tree with an empty slot: `b` was removed from the root between `a` and `c`, and `a` has a
directory `b`. -/

namespace Volume
variable (v : Volume)

def wellFormed (i : Inode) : Bool :=
  decide (i.iDirectTable 0 ≠ 0) && (List.finRange 12).all fun k => decide (i.iDirectTable k = 0) ||
    (v.read (i.iDirectTable k)).sure fun b => (List.range 32).all fun j =>
      ((List.range 124).any fun m => (dentryAt b j).get (4 + m) == 0) &&
      ((dentryAt b j).get 4 == 0 || decide ((dentryAt b j).dInum.toNat < 8192) &&
        (List.finRange 12).all fun k' => decide (i.iDirectTable k' = 0) ||
          (v.read (i.iDirectTable k')).sure fun b' => (List.range 32).all fun j' =>
            decide (k' = k ∧ j' = j) || (dentryAt b' j').get 4 == 0 ||
              decide ((dentryAt b' j').dName ≠ (dentryAt b j).dName))

def isTree : Bool := (List.range' 0 8192).all fun q => !v.inodeBit q ||
  !sIsdir (v.inode q).iFmode || v.wellFormed (v.inode q)

end Volume

theorem Dentry.get_ne_zero {d : Dentry} (h : d.dName.bytes ≠ []) : d.get 4 ≠ 0 :=
  fun h0 => h ((textFrom_succ d 123 4).trans (if_pos h0))

namespace Shows
variable {s : FileSys} {v : Volume} (h : Shows s v)
include h

theorem of_isTree (htree : v.isTree = true) : s.DirectoryTree := by
  have hgood : ∀ n, s.IsDirectory n → v.wellFormed (s.syncFromDiskInode n) = true := by
    intro n hn
    obtain ⟨⟨-, hbit⟩, hinode⟩ := hn.shows h
    have hall := List.all_eq_true.mp htree n.toNat (List.mem_range'_1.mpr ⟨by omega, hn.lt⟩)
    rw [← hinode, hbit, hn.mode] at hall
    exact hall
  have hslot : ∀ n, s.IsDirectory n → ∀ k, (s.syncFromDiskInode n).iDirectTable k ≠ 0 → ∀ j < 32,
      (s.entryAt n k j).Terminated ∧ ((s.entryAt n k j).get 4 ≠ 0 →
        (s.entryAt n k j).dInum.toNat < 8192 ∧ ∀ k' j', s.Holds n k' j' →
          (s.entryAt n k' j').dName = (s.entryAt n k j).dName → k' = k ∧ j' = j) := by
    intro n hn k hk j hj
    have hblocks := List.all_eq_true.mp (Bool.and_eq_true_iff.mp (hgood n hn)).2 k
      (List.mem_finRange k)
    rw [decide_eq_false hk, Bool.false_or] at hblocks
    have hslots := h.of_sure_read hblocks
    obtain ⟨hnul, hrest⟩ :=
      Bool.and_eq_true_iff.mp (List.all_eq_true.mp hslots j (List.mem_range.mpr hj))
    obtain ⟨m, hm, hzero⟩ := List.any_eq_true.mp hnul
    refine ⟨⟨m, List.mem_range.mp hm, eq_of_beq hzero⟩, fun hne => ?_⟩
    obtain ⟨hlt, hothers⟩ := Bool.and_eq_true_iff.mp
      ((Bool.or_eq_true_iff.mp hrest).resolve_left fun h0 => hne (eq_of_beq h0))
    refine ⟨of_decide_eq_true hlt, fun k' j' hholds hsame => ?_⟩
    have hother := List.all_eq_true.mp hothers k' (List.mem_finRange k')
    rw [decide_eq_false hholds.2.1, Bool.false_or] at hother
    have hslots' := h.of_sure_read hother
    have hpair := List.all_eq_true.mp hslots' j' (List.mem_range.mpr hholds.1)
    obtain hboth | hdiffer := Bool.or_eq_true_iff.mp hpair
    · obtain hpos | hempty := Bool.or_eq_true_iff.mp hboth
      · exact of_decide_eq_true hpos
      · exact absurd (eq_of_beq hempty) (Dentry.get_ne_zero hholds.2.2)
    · exact absurd hsame (of_decide_eq_true hdiffer)
  refine ⟨fun n hn => ?_, fun n hn k hk j hj => (hslot n hn k hk j hj).1, fun n hn k j hkj => ?_,
    fun n hn k j hkj => ?_⟩
  · exact of_decide_eq_true (Bool.and_eq_true_iff.mp (hgood n hn)).1
  · exact ((hslot n hn k hkj.2.1 j hkj.1).2 (Dentry.get_ne_zero hkj.2.2)).1
  · exact ((hslot n hn k hkj.2.1 j hkj.1).2 (Dentry.get_ne_zero hkj.2.2)).2

end Shows

def treeOps : List Op :=
  [.mkdir (Text.dot.child .a) 0, .touch .b 0, .touch (.letter 2) 0, .rmdir (Text.dot.child .b),
    .mkdir (Text.a.child .b) 0]

structure FileSys.HasGap (t : FileSys) : Prop where
  tree : t.DirectoryTree
  here : t.InDirectory 0
  a : t.IsDirectory 1
  b : t.IsDirectory 2
  gap : (t.entryAt 0 0 3).dName = .empty
  dotAt : (t.entryAt 0 0 0).dName = .dot ∧ (t.entryAt 0 0 0).dInum = 0
  aAt : (t.entryAt 0 0 2).dName = .a ∧ (t.entryAt 0 0 2).dInum = 1
  cAt : (t.entryAt 0 0 4).dName = .letter 2
  bAt : (t.entryAt 1 0 2).dName = .b ∧ (t.entryAt 1 0 2).dInum = 2
  notB : ¬ t.HasEntry Set.univ 0 .b
  notA : ¬ t.HasEntry Set.univ 1 .a

def Volume.lacks (v : Volume) (n : UInt32) (name : Text) : Bool := (v.load n).sure fun i =>
  (List.finRange 12).all fun k => decide (i.iDirectTable k = 0) ||
    (v.read (i.iDirectTable k)).sure fun b =>
      (List.range 32).all fun j => decide ((dentryAt b j).dName ≠ name)

theorem Shows.of_lacks {s : FileSys} {v : Volume} (h : Shows s v) {n : UInt32} {name : Text}
    (hlacks : v.lacks n name = true) : ¬ s.HasEntry Set.univ n name := by
  rintro ⟨k, -, j, ⟨hj, hk, -⟩, hname⟩
  have hblocks := List.all_eq_true.mp (h.of_sure_load hlacks :) k (List.mem_finRange k)
  rw [decide_eq_false hk, Bool.false_or] at hblocks
  have hslots := List.all_eq_true.mp (h.of_sure_read hblocks :) j (List.mem_range.mpr hj)
  exact of_decide_eq_true hslots hname

theorem exists_hasGap :
    ∃ s t, FileSys.blank.doMkfs .blank = .ok s ∧ runOps treeOps s = .ok t ∧ t.HasGap := by
  obtain ⟨s, t, v, hs, ht, -, hv, hp⟩ := exists_run_writesThrough treeOps
    (p := fun v => v.isTree && (v.isDirectory 0 && v.isDirectory 1 && v.isDirectory 2) &&
      v.currentDir.iDirectTable 0 == (v.inode 0).iDirectTable 0 &&
      (v.hasAt 0 0 3 .empty 0 && v.hasAt 0 0 0 .dot 0 && v.hasAt 0 0 2 .a 1 &&
        v.hasAt 0 0 4 (.letter 2) 3 && v.hasAt 1 0 2 .b 2) &&
      (v.lacks 0 .b && v.lacks 1 .a)) (by decide +kernel)
  simp only [Bool.and_eq_true, beq_iff_eq] at hp
  obtain ⟨⟨⟨⟨htree, ⟨hzero, hone⟩, htwo⟩, hhere⟩, ⟨⟨⟨hgap, hdot⟩, ha⟩, hc⟩, hb⟩, hnotB, hnotA⟩ := hp
  have hcur : t.currentDir.iDirectTable 0 = (t.syncFromDiskInode 0).iDirectTable 0 := by
    rw [hv.currentDir_eq, hhere, hv.load (n := 0) (Volume.load_of_lt (by decide))]
    rfl
  exact ⟨s, t, hs, ht, hv.of_isTree htree, ⟨hv.of_isDirectory hzero, hcur⟩, hv.of_isDirectory hone,
    hv.of_isDirectory htwo, (hv.of_hasAt hgap).1, hv.of_hasAt hdot, hv.of_hasAt ha,
    (hv.of_hasAt hc).1, hv.of_hasAt hb, hv.of_lacks hnotB, hv.of_lacks hnotA⟩

namespace FileSys.HasGap
variable {t : FileSys} (h : t.HasGap) {K : Set (Fin 12)} (hK : 0 ∈ K)
include h hK

theorem leads_a : t.Leads K 1 [.a] 0 := by
  obtain ⟨hname, hnum⟩ := h.aAt
  refine ⟨0, hK, 2, ⟨by omega, h.tree.first 0 h.here.isDirectory, ?_⟩, hname, ?_, ?_⟩
  · rw [hname]
    decide
  · rw [hnum]
    exact h.a
  · exact hnum

theorem leads_dot_a : t.Leads K 1 (Text.dot.child .a).names 0 := by
  obtain ⟨hname, hnum⟩ := h.dotAt
  rw [show (Text.dot.child .a).names = [.dot, .a] by decide]
  refine ⟨0, hK, 0, ⟨by omega, h.tree.first 0 h.here.isDirectory, ?_⟩, hname, ?_, ?_⟩
  · rw [hname]
    decide
  · rw [hnum]
    exact h.here.isDirectory
  · rw [hnum]
    exact h.leads_a hK

theorem hasEntry_b : t.HasEntry K 1 .b := by
  refine ⟨0, hK, 2, ⟨by omega, h.tree.first 1 h.a, ?_⟩, h.bAt.1⟩
  rw [h.bAt.1]
  decide

end FileSys.HasGap

theorem find_exact_iff_gap : ∃ s t, FileSys.blank.doMkfs .blank = .ok s ∧
    runOps treeOps s = .ok t ∧ t.HasGap ∧ t.FindsExactly (Text.dot.child .a) .b 1 ∧
    ¬ t.FindsExactly (Text.dot.child .a) .a 1 ∧ ¬ t.FindsExactly .a .b 1 := by
  obtain ⟨s, t, hs, ht, h⟩ := exists_hasGap
  have hfits : (Text.dot.child .a).Fits := (Text.fits_child (by decide)).mpr (by decide)
  have huniv := h.leads_dot_a (Set.mem_univ 0)
  have hleads : t.Leads Set.univ 1 Text.a.names 0 :=
    show Text.a.names = [.a] by decide ▸ h.leads_a (Set.mem_univ 0)
  refine ⟨s, t, hs, ht, h, (find_exact_iff h.tree h.here (by decide) huniv (by decide)).mpr
    ⟨hfits, fun hplain => absurd (by decide) hplain,
      fun _ => iff_of_true (h.leads_dot_a rfl) (h.hasEntry_b (Set.mem_univ 0))⟩, fun hfinds => ?_,
    fun hfinds => ?_⟩
  · obtain ⟨-, -, hright⟩ := (find_exact_iff h.tree h.here (by decide) huniv (by decide)).mp hfinds
    exact h.notA ((hright (by decide)).mp (h.leads_dot_a rfl))
  · obtain ⟨-, hright, -⟩ := (find_exact_iff h.tree h.here (by decide) hleads (by decide)).mp hfinds
    obtain ⟨k, -, hentry⟩ := (hright (by decide)).mpr (h.hasEntry_b (Set.mem_univ 0))
    exact h.notB ⟨k, trivial, hentry⟩

theorem find_ignores_name : ∃ s t, FileSys.blank.doMkfs .blank = .ok s ∧
    runOps treeOps s = .ok t ∧ t.DirectoryTree ∧ t.InDirectory 0 ∧
    t.Leads Set.univ 1 (Text.dot.child .a).names 0 ∧ ¬ t.HasEntry Set.univ 1 .a ∧
    t.doFind (Text.dot.child .a) .a = .ok (some 1) ∧
    ¬ t.FindsExactly (Text.dot.child .a) .a 1 := by
  obtain ⟨s, t, hs, ht, h⟩ := exists_hasGap
  have hfits : (Text.dot.child .a).Fits := (Text.fits_child (by decide)).mpr (by decide)
  obtain ⟨r, hr, hfound⟩ :=
    h.tree.descend h.here.isDirectory h.here.block (h.leads_dot_a (Set.mem_univ 0))
  have hone : t.doFind (Text.dot.child .a) .a = .ok (some 1) := by
    rw [FileSys.doFind_eq ((pathSteps_eq_ok (by decide) (by decide)).mpr ⟨hfits, rfl⟩) hr,
      if_pos (hfound.mpr (h.leads_dot_a rfl))]
  refine ⟨s, t, hs, ht, h.tree, h.here, h.leads_dot_a (Set.mem_univ 0), h.notA, hone, ?_⟩
  rintro ⟨r, hr, hright, -⟩
  obtain rfl := Except.ok.inj (hr.symm.trans hone)
  exact h.notA (hright.mp rfl)

end Ucas.Fs

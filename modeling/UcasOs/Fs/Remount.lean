import UcasOs.Fs.Directory
import UcasOs.Fs.Runs

/-! Write-through. The file system keeps the buffers of the superblock and of the bitmaps equal to
their blocks on the card as long as every number it looks up leads to an inode. Without `do_fwrite`
and `do_symlink` the blocks of directories hold entries and nothing else, so every lookup does lead
to an inode, or to `-1`, which reads as a cleared inode. -/

namespace Ucas.Fs
open Ucas.Lib Relation

structure Sound (V W : Set Nat) (v : Volume) : Prop where
  root : 0 ∈ V
  blocks : W ⊆ dataBlocks
  within : ∀ q ∈ V, Within W (v.inode q)
  straight : ∀ q ∈ V, (v.inode q).iIndirectBlock1Ptr = 0
  dir : Within W v.currentDir
  entries : ∀ b ∈ W, ∀ j < 32, Known V (dentryAt (v.block b) j).dInum

theorem Known.mono {V V' : Set Nat} {n : UInt32} (h : Known V n) (hV : V ⊆ V') : Known V' n :=
  h.imp_right fun hn => hV hn

namespace Sound
variable {V W : Set Nat} {v : Volume}

theorem of_load (h : Sound V W v) (hw : Well V v) {n : UInt32} {i : Inode} (hn : Known V n)
    (hload : v.load n = .ok i) : Within W i ∧ i.iIndirectBlock1Ptr = 0 := by
  obtain rfl | hq := hn
  · rw [v.load_notFound] at hload
    obtain rfl := Except.ok.inj hload
    exact ⟨within_zeroInode _, zeroInode_iIndirectBlock1Ptr⟩
  · rw [Volume.load, if_pos (hw.lt _ hq)] at hload
    obtain rfl := Except.ok.inj hload
    exact ⟨h.within _ hq, h.straight _ hq⟩

theorem known_of_findFile (h : Sound V W v) {i : Inode} (hi : Within W i) {name : Text} {n : UInt32}
    (hn : v.findFile i name = .ok n) : Known V n := by
  obtain rfl | ⟨j, hj, hne, -, rfl, -⟩ | ⟨-, rfl⟩ := Volume.of_findFile (hi.mono h.blocks) hn
  · exact .inl rfl
  · exact h.entries _ ((hi 0).resolve_left hne) j hj
  · exact .inr h.root

section Parts
variable (h : Sound V W v) {i : Inode}
include h

theorem stored (hi : Within W i) (hind : i.iIndirectBlock1Ptr = 0) : Sound V W (v.stored i) := by
  refine ⟨h.root, h.blocks, fun q hq => ?_, fun q hq => ?_, h.dir, h.entries⟩
  all_goals
    simp only [Volume.stored, Function.update_apply]
    split_ifs
  · exact hi
  · exact h.within q hq
  · exact hind
  · exact h.straight q hq

theorem created {q : Nat} (hi : Within W i) (hind : i.iIndirectBlock1Ptr = 0) :
    Sound (insert q V) W (v.created q i) := by
  refine ⟨.inr h.root, h.blocks, fun p hp => ?_, fun p hp => ?_, h.dir,
    fun b hb j hj => (h.entries b hb j hj).mono (Set.subset_insert _ _)⟩
  all_goals
    simp only [Volume.created, Function.update_apply]
    split_ifs with hpq
  · exact hi
  · exact h.within p (hp.resolve_left hpq)
  · exact hind
  · exact h.straight p (hp.resolve_left hpq)

theorem withBlock {b : Nat} {c : Block} (hb : b ∈ dataBlocks)
    (hc : ∀ j < 32, Known V (dentryAt c j).dInum) {u : Volume}
    (hblock : u.block = Function.update v.block b c) (hinode : u.inode = v.inode)
    (hdir : u.currentDir = v.currentDir) : Sound V (insert b W) u := by
  refine ⟨h.root, Set.insert_subset hb h.blocks, fun q hq => ?_, fun q hq => ?_, ?_, fun a ha j
    hj => ?_⟩
  · rw [hinode]
    exact (h.within q hq).mono (Set.subset_insert _ _)
  · rw [hinode]
    exact h.straight q hq
  · rw [hdir]
    exact h.dir.mono (Set.subset_insert _ _)
  · rw [hblock, Function.update_apply]
    split_ifs with hab
    · exact hc j hj
    · exact h.entries a (ha.resolve_left hab) j hj

theorem wroteDentry (hw : Well V v) (hi : Within W i) (hind : i.iIndirectBlock1Ptr = 0)
    {dnum : UInt32} {d : Dentry}
    {r : Inode × Volume} (hd : Known V d.dInum) (hr : Volume.Wrote v i dnum d r) :
    ∃ W', Sound V W' r.2 ∧ Within W' r.1 ∧ r.1.iIndirectBlock1Ptr = 0 := by
  have hput : ∀ {c : Block}, (∀ j < 32, Known V (dentryAt c j).dInum) → ∀ {k : Nat}, ∀ j < 32,
      Known V (dentryAt (putDentry c k d) j).dInum := fun hc k j hj => by
    rw [dentryAt_putDentry _ _ hj]
    split_ifs
    · exact hd
    · exact hc j hj
  cases hr with
  | refused => exact ⟨W, h, hi, hind⟩
  | @grown b i' hslot hlt hzero hb hi' =>
    have hdata := Volume.firstClear_mem_dataBlocks hw.low hb
    have hnat : (UInt32.ofNat b).toNat = b := toNat_of_mem_dataBlocks hdata
    have hwithin : Within (insert b W) i' := by
      intro k
      rw [hi', Inode.addEntry_iDirectTable, Inode.addSize_iDirectTable, Inode.point_iDirectTable,
        Function.update_apply]
      split_ifs
      · exact .inr (.inl hnat)
      · exact (hi k).imp_right .inr
    have hind' : i'.iIndirectBlock1Ptr = 0 := by simp [hi', hind]
    have hentries : ∀ j < 32, Known V (dentryAt (putDentry .zero (dnum % 32).toNat d) j).dInum :=
        hput fun j hj => by
      rw [dentryAt_zero, dInum_zero]
      exact .inr h.root
    have hv := h.withBlock hdata hentries (u := v.allotted b (putDentry .zero (dnum % 32).toNat d))
      rfl rfl rfl
    refine ⟨insert b W, ?_, hwithin, hind'⟩
    rw [Volume.allotted_stored]
    exact hv.stored hwithin hind'
  | @filled hslot hlt hne =>
    have hb := (hi ⟨_, hlt⟩).resolve_left hne
    have hW : insert (i.iDirectTable ⟨_, hlt⟩).toNat W = W := Set.insert_eq_of_mem hb
    have hv := h.withBlock (h.blocks hb) (hput (h.entries _ hb)) (u := v.wrote (i.iDirectTable
      ⟨_, hlt⟩).toNat
      (putDentry (v.block (i.iDirectTable ⟨_, hlt⟩).toNat) (dnum % 32).toNat d)) rfl rfl rfl
    rw [hW] at hv
    refine ⟨W, ?_, hi, hind⟩
    rw [Volume.wrote_stored]
    exact hv.stored (i := i.addEntry) hi hind
  | lost =>
    refine ⟨W, ?_, hi, hind⟩
    have hv := h.stored (i := i.addEntry) hi hind
    refine ⟨hv.root, hv.blocks, hv.within, hv.straight, hv.dir, fun b hb j hj => ?_⟩
    -- the entry goes to a block number outside the data blocks
    have hne : b ≠ 1048575 := by have := (h.blocks hb).2; omega
    simp only [Volume.wrote, Volume.stored, Function.update_of_ne hne]
    exact h.entries b hb j hj

end Parts

end Sound

/-- The calls after which the buffers are still the blocks of the card: every one but `do_symlink`
and `do_fwrite`. -/
def Op.WritesThrough : Op → Prop
  | .symlink _ _ | .fwrite _ _ => False
  | _ => True

def Op.writesThrough : Op → Bool
  | .symlink _ _ | .fwrite _ _ => false
  | _ => true

theorem Op.WritesThrough.of_bool {op : Op} (h : op.writesThrough = true) : op.WritesThrough := by
  cases op with
  | symlink | fwrite => cases h
  | _ => trivial

theorem Sound.change {V W : Set Nat} {v v' : Volume} {e : Env} {op : Op} (h : Sound V W v)
    (hw : Well V v)
    (htaken : taken v ⊆ V) (hop : op.WritesThrough) (hc : Volume.Change V e v op v') :
    ∃ W', Sound (V ∪ taken v') W' v' := by
  cases hc with
  | session f hdir =>
    rw [union_taken_of_eq htaken (u := v.inSession f) rfl]
    exact ⟨W, h.root, h.blocks, h.within, h.straight, hdir ▸ h.dir, h.entries⟩
  | @create op name i v' hadds =>
    obtain @⟨n, i', fmode, content, q, v₁, hn, htarget, hload, hmakes, hmade, hwrote⟩ := hadds
    obtain ⟨hi, hind⟩ := h.of_load hw hn hload
    obtain ⟨hq, -, hbit⟩ := hmade.inodeBit
    have hwell := hw.made hmade
    have hd : Known (insert q V) (e.stack.fill (UInt32.ofNat q) name).dInum := by
      rw [dInum_fill]
      exact .inr (.inl (inodeKey_ofNat (by omega)))
    rw [union_taken_of_set htaken hq (hwrote.inodeBit.trans hbit)]
    obtain ⟨W₁, hW₁, hv₁⟩ : ∃ W₁, W ⊆ W₁ ∧ Sound (insert q V) W₁ v₁ := by
      cases hmade with
      | empty hq => exact ⟨W, subset_rfl, h.created (within_newInode _ _ _ _ _ (.inl rfl)) rfl⟩
      | @withBlock content _ b hq' hb =>
        cases hmakes with
        | symlink => exact hop.elim
        | mkdir path mode =>
          have hdata := Volume.firstClear_mem_dataBlocks hw.low hb
          have hnat : (UInt32.ofNat b).toNat = b := toNat_of_mem_dataBlocks hdata
          have hentries : ∀ j < 32, Known (insert q V) (dentryAt (directoryBlock (UInt32.ofNat q) n)
              j).dInum := by
            intro j hj
            rw [dentryAt_directoryBlock _ _ hj]
            split_ifs
            · rw [dInum_fill]
              exact hn.mono (Set.subset_insert _ _)
            · rw [dInum_fill]
              exact .inr (.inl (inodeKey_ofNat (by omega)))
            · rw [dInum_zero]
              exact .inr (.inr h.root)
          -- first an inode that points nowhere, then its block, then the inode as it is
          have hempty := h.created (q := q) (i := newInode e (sIfdir ||| mode) 4096 0
            (UInt32.ofNat q))
            (within_newInode _ _ _ _ _ (.inl rfl)) rfl
          have hblock := hempty.withBlock hdata hentries (u := Volume.allotted _ b _) rfl rfl rfl
          have hfull := hblock.stored (i := newInode e (sIfdir ||| mode) 4096 (UInt32.ofNat b)
            (UInt32.ofNat q))
            (within_newInode _ _ _ _ _ (.inr (.inl hnat))) rfl
          rw [Volume.stored_created _ _ _ _ _ (toNat_ofNat_of_lt (by omega))] at hfull
          exact ⟨insert b W, Set.subset_insert _ _, hfull⟩
    obtain ⟨W', hv', -⟩ := hv₁.wroteDentry hwell (hi.mono hW₁) hind hd hwrote
    exact ⟨W', hv'⟩
  | @link srcPath newPath v' hlinked =>
    obtain @⟨name, m, n, i, i', j, hm, hn, hsrc, hsrcload, hfile, htarget, hload, hwrote⟩ := hlinked
    obtain ⟨hi, hind⟩ := h.of_load hw hn hload
    obtain ⟨hj, hjind⟩ := h.of_load hw hm hsrcload
    have hv := h.stored (i := j.addLink) hj hjind
    have hwell := hw.stored (i := j.addLink) (hj.mono h.blocks)
    rw [union_taken_of_eq htaken hwrote.inodeBit]
    obtain ⟨W', hv', -⟩ := hv.wroteDentry hwell hi hind (by rwa [dInum_fill]) hwrote
    exact ⟨W', hv'⟩
  | @rename oldName newName v' hrenames =>
    obtain @⟨name, n, c, dnum, i, i', hn, htarget, hload, hchild, hdnum, hfits, hwrote⟩ := hrenames
    obtain ⟨hi, hind⟩ := h.of_load hw hn hload
    rw [union_taken_of_eq htaken hwrote.inodeBit]
    have hd : Known V (Dentry.dInum ((Buffer.zero.setWord 0 c).putBytes 4 newName.bytes)) := by
      rw [dInum_putBytes, Dentry.dInum, Buffer.word_setWord _ _ (by omega)]
      exact h.known_of_findFile hi hchild
    obtain ⟨W', hv', -⟩ := h.wroteDentry hw hi hind hd hwrote
    exact ⟨W', hv'⟩
  | @rmdir path _ hremoves =>
    obtain @⟨name, n, c, dnum, i, i', v₁, hn, htarget, hload, hchild, hcV, hdnum, hwrote⟩ :=
      hremoves
    rw [union_taken_of_clear htaken (u := v₁.stored i'.dropEntry) hwrote.inodeBit]
    obtain ⟨hi, hind⟩ := h.of_load hw hn hload
    have hv : Sound V W (v.removed c.toNat) :=
      ⟨h.root, h.blocks, h.within, h.straight, h.dir, h.entries⟩
    obtain ⟨W', hv', hi', hind'⟩ := hv.wroteDentry (hw.removed hcV) hi hind
      (.inr (by rw [dInum_zero]; exact h.root)) hwrote
    exact ⟨W', hv'.stored (i := i'.dropEntry) hi' hind'⟩
  | @cd name i hi =>
    rw [union_taken_of_eq htaken (u := v.inSession _) rfl]
    refine ⟨W, h.root, h.blocks, h.within, h.straight, ?_, h.entries⟩
    obtain rfl | ⟨q, hq, rfl⟩ := hi
    · exact h.dir
    · exact h.within q hq
  | fwrite => exact hop.elim

section Met
variable {s : FileSys} {v : Volume} {V W : Set Nat} (h : Shows s v) (hw : Well V v)
  (hs : Sound V W v)
include h hs

theorem Sound.findFile {i : Inode} (hi : Within W i) {name : Text} {n : UInt32}
    (hn : s.findFile i name = .ok n) :
    Known V n := by
  obtain ⟨m, hm, rfl, -⟩ :=
    (Volume.findFile_ensures (hi.mono hs.blocks) name).exists_of_refines (h.findFile i name) hn
  exact hs.known_of_findFile hi hm

theorem Sound.parentOf {path name : Text} {n : UInt32} (hn : s.parentOf path = .ok (n, name)) :
    Known V n := by
  obtain ⟨⟨parent, name'⟩, hsep, hn⟩ := exists_of_bind_ok hn
  obtain ⟨m, hm, hn⟩ := exists_of_bind_ok hn
  obtain ⟨rfl, -⟩ := Prod.mk.inj (Except.ok.inj hn)
  rw [h.currentDir_eq] at hm
  exact hs.findFile h hs.dir hm

include hw

theorem Sound.syncFromDiskInode {n : UInt32} (hn : Known V n) :
    Within W (s.syncFromDiskInode n) ∧ (s.syncFromDiskInode n).iIndirectBlock1Ptr = 0 := by
  obtain ⟨i, hload, -⟩ := hw.load hn
  rw [h.load hload]
  exact hs.of_load hw hn hload

theorem Sound.allMet {names : List Text} {i : Inode} (hi : Within W i) :
    s.AllMet (Known V) names i := by
  induction names generalizing i with
  | nil => trivial
  | cons name rest ih =>
    intro n hn
    have hknown := hs.findFile h hi hn
    exact ⟨hknown, ih (hs.syncFromDiskInode h hw hknown).1⟩

theorem Sound.meets {op : Op} (hop : op.WritesThrough) : s.Meets (Known V) op := by
  have hdir : Within W s.currentDir := h.currentDir_eq ▸ hs.dir
  cases op with
  | mkdir path mode => exact fun n name hn => hs.parentOf h hn
  | rmdir path =>
    intro n name hn
    have hknown := hs.parentOf h hn
    exact ⟨hknown, fun c hc _ => hs.findFile h (hs.syncFromDiskInode h hw hknown).1 hc⟩
  | touch name mode => exact fun n name' hn => hs.parentOf h hn
  | rename oldName newName => exact fun n name' hn => hs.parentOf h hn
  | link srcPath newPath => exact ⟨hs.allMet h hw hdir, fun _ _ _ => hs.allMet h hw hdir⟩
  | cd name => exact fun names _ => hs.allMet h hw hdir
  | symlink | fwrite => exact hop.elim
  | _ => trivial

end Met

theorem FileSys.Meets.target {s : FileSys} {P : UInt32 → Prop} {op : Op} (h : s.Meets P op)
    {n : UInt32} {name : Text}
    (hn : s.target op = .ok (n, name)) : P n := by
  cases op with
  | mkdir path mode => exact h n name hn
  | rmdir path => exact (h n name hn).1
  | touch name' mode => exact h n name hn
  | rename oldName newName => exact h n name hn
  | link srcPath newPath =>
    obtain ⟨x, hsep, hn⟩ := exists_of_bind_ok hn
    obtain ⟨m, hm, hn⟩ := exists_of_bind_ok hn
    obtain ⟨rfl, -⟩ := Prod.mk.inj (Except.ok.inj hn)
    exact (h.2 x.1 x.2 hsep).parsePath hm
  | symlink srcPath newPath =>
    obtain ⟨x, -, hn⟩ := exists_of_bind_ok hn
    obtain ⟨m, hm, hn⟩ := exists_of_bind_ok hn
    obtain ⟨rfl, -⟩ := Prod.mk.inj (Except.ok.inj hn)
    exact FileSys.AllMet.parsePath h hm
  | _ => cases hn

def Remountable (v : Volume) : Prop := ∃ V W, taken v ⊆ V ∧ Well V v ∧ Sound V W v

theorem sound_mkfs (e : Env) (s : FileSys) : Sound {0} {266} (Volume.mkfs e s) := by
  have hroot : Within {266} (rootOf e) := within_newInode _ _ _ _ _ (.inr rfl)
  have hinode : (Volume.mkfs e s).inode 0 = rootOf e := by simp [Volume.mkfs]
  refine ⟨rfl, ?_, ?_, ?_, hroot, ?_⟩
  · rintro b rfl
    exact ⟨by omega, by omega⟩
  · rintro q rfl
    rw [hinode]
    exact hroot
  · rintro q rfl
    rw [hinode]
    rfl
  · rintro b rfl j hj
    have hblock : (Volume.mkfs e s).block 266 = directoryBlock 0 0 := by simp [Volume.mkfs]
    rw [hblock, dentryAt_directoryBlock _ _ hj]
    split_ifs <;> simp [Known, inodeKey]

theorem remountable_mkfs (e : Env) (s : FileSys) : Remountable (Volume.mkfs e s) :=
  ⟨{0}, {266}, (taken_mkfs e s).subset, well_mkfs e s, sound_mkfs e s⟩

theorem Sound.does {s t : FileSys} {v : Volume} {V W : Set Nat} (hs : Sound V W v) (h : Shows s v)
    (hw : Well V v) (e : Env) (op : Op) (hop : op.WritesThrough) (hexec : exec e op s = .ok t) :
    ∃ v', Shows t v' ∧ Volume.Does V e v op v' := by
  have hmeets := hs.meets h hw hop
  have hroom : s.Room op := fun n name hn => .inr (hs.syncFromDiskInode h hw (hmeets.target hn)).2
  have hfits : s.Fits op := by
    cases op with
    | fwrite => exact hop.elim
    | _ => trivial
  exact exec_does h hw hmeets hroom hfits (Volume.removable_of_straight hs.straight op) hexec

theorem Remountable.does {s t : FileSys} {v : Volume} {e : Env} {op : Op} (hv : Remountable v)
    (h : Shows s v)
    (hop : op.WritesThrough) (hexec : exec e op s = .ok t) :
    ∃ V v', Shows t v' ∧ Volume.Does V e v op v' ∧ Well V v ∧ Remountable v' := by
  obtain ⟨V, W, htaken, hw, hs⟩ := hv
  obtain ⟨v', hv', hdoes⟩ := hs.does h hw e op hop hexec
  obtain ⟨W', hs'⟩ := hs.change hw htaken hop hdoes.change
  exact ⟨V, v', hv', hdoes, hw, _, W', Set.subset_union_right, hw.change htaken hdoes.change, hs'⟩

theorem Reach.remountable {t : FileSys} (h : Reach (fun op _ => op.WritesThrough) t) :
    ∃ v, Shows t v ∧ Remountable v :=
  h.invariant remountable_mkfs fun hs hv hop hexec =>
    let ⟨_, v', hv', _, _, hre⟩ := hv.does hs hop hexec
    ⟨v', hv', hre⟩

/-- After every call the buffers are the blocks of the card, so `init_fs` finds the magic number and
leaves them as they are. -/
theorem remount_keeps_buffers {t : FileSys} (h : Reach (fun op _ => op.WritesThrough) t) :
    t.superblock = t.readBlock 0 ∧
    (∀ k, k < 8 → t.blockbmp.slice (4096 * k) 4096 = t.readBlock (UInt32.ofNat (1 + k))) ∧
    t.inodebmp = t.readBlock 9 ∧ (t.readBlock 0).word 8 = fsMagicNumber ∧
    ∀ e, ∃ u, t.initFs e = .ok u ∧ u.superblock = t.superblock ∧ u.blockbmp = t.blockbmp ∧
    u.inodebmp = t.inodebmp := by
  obtain ⟨v, hv, -⟩ := h.remountable
  have hmagic : t.sMagic = fsMagicNumber := by
    rw [FileSys.sMagic, hv.counters, superblockOf_word_magic]
  refine ⟨hv.superblock.symm, fun k hk => (hv.blockbmp k hk).symm, hv.inodebmp.symm, ?_, fun e =>
    ?_⟩
  · rw [hv.superblock]
    exact hmagic
  · refine ⟨t.inSession fun x => { x with
      rootInode := t.syncFromDiskInode 0
      currentDir := t.syncFromDiskInode 0 }, ?_, rfl, rfl, rfl⟩
    rw [FileSys.initFs, hv.toSynced.reload_superblock_eq, if_pos hmagic, hv.toSynced.reload_eq]

theorem exists_run_writesThrough (ops : List Op) {p : Volume → Bool}
    (h : (Volume.checked (fun op _ => op.writesThrough) ops (Volume.mkfs .blank .blank)).any p =
      true) :
    ∃ s t v, FileSys.blank.doMkfs .blank = .ok s ∧ runOps ops s = .ok t ∧
      Reach (fun op _ => op.WritesThrough) t ∧ Shows t v ∧ p v = true :=
  exists_run_checked (fun _ _ _ _ => .of_bool) ops h

/-- `b` is linked into the directory `a`, which is removed, and then renamed. -/
def remountOps : List Op :=
  [.mkdir (Text.dot.child .a) 0, .touch .b 0, .link .b (Text.a.child .b),
    .rmdir (Text.dot.child .a), .rename .b .a, .cd .dot, .ls, .find .dot .b, .statfs]

theorem remount_keeps_buffers_changed : ∃ s t, FileSys.blank.doMkfs .blank = .ok s ∧
    runOps remountOps s = .ok t ∧ t.inodebmp.bit 2 = true ∧ t.blockbmp.bit 267 = false ∧
    t.superblock = t.readBlock 0 ∧ t.inodebmp = t.readBlock 9 ∧
    ∃ u, t.initFs .blank = .ok u ∧ u.superblock = t.superblock ∧ u.blockbmp = t.blockbmp ∧
      u.inodebmp = t.inodebmp := by
  obtain ⟨s, t, v, hs, ht, hreach, hv, hp⟩ := exists_run_writesThrough
    remountOps (p := fun v => v.inodeBit 2 && !v.blockBit 267) (by decide +kernel)
  obtain ⟨hinode, hblock⟩ := Bool.and_eq_true_iff.mp hp
  obtain ⟨hsuper, -, hinodes, -, hremount⟩ := remount_keeps_buffers hreach
  refine ⟨s, t, hs, ht, (hv.inodeBit 2 (by omega)).symm.trans hinode, ?_, hsuper, hinodes,
    hremount .blank⟩
  rw [← hv.blockBit 267 (by omega)]
  simpa using hblock

end Ucas.Fs

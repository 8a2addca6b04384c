import UcasOs.Fs.Entries

/-! Calls that should fail. `do_rmdir` and `do_link` do not look at what the lookups return: with
`-1`, or with the number behind `.` and `..`, they run on to their last statement, which writes to
the card. -/

namespace Ucas.Fs
open Ucas.Lib

structure SameCard (s t : FileSys) : Prop where
  card : ∀ p, t.readBlock p = s.readBlock p
  blockbmp : t.blockbmp = s.blockbmp
  inodebmp : t.inodebmp = s.inodebmp

namespace SameCard
variable {s t : FileSys} {v v' : Volume} (h : SameCard s t) (hv : Shows s v) (hv' : Shows t v')
include h hv hv'

theorem inode_eq {q : Nat} (hq : q < 8192) : v'.inode q = v.inode q := by
  rw [hv.inode q hq, hv'.inode q hq]
  exact FileSys.syncFromDiskInode_congr (h.card _)

theorem block_eq {k : Nat} (hk : k ∈ dataBlocks) : v'.block k = v.block k := by
  obtain ⟨hge, hlt⟩ := hk
  rw [hv.block k hge (by omega), hv'.block k hge (by omega), h.card]

theorem blockBit_eq {k : Nat} (hk : k < 262144) : v'.blockBit k = v.blockBit k := by
  rw [hv.blockBit k hk, hv'.blockBit k hk, h.blockbmp]

theorem inodeBit_eq {q : Nat} (hq : q < 8192) : v'.inodeBit q = v.inodeBit q := by
  rw [hv.inodeBit q hq, hv'.inodeBit q hq, h.inodebmp]

end SameCard

theorem Synced.sameCard {s t : FileSys} (hs : Synced s) (ht : Synced t)
    (h : ∀ p, t.readBlock p = s.readBlock p) : SameCard s t := by
  refine ⟨h, Buffer.ext_slices (m := 4096) (by omega) fun k hk => ?_, ?_⟩
  · rw [← hs.blockbmp _ (by omega), ← ht.blockbmp _ (by omega), h]
  · rw [← hs.inodebmp, ← ht.inodebmp, h]

theorem FileSys.slice_readBlock (s : FileSys) {m k : Nat} (hm : m < 256) (hk : k < 32) :
    (s.readBlock (UInt32.ofNat (10 + m))).slice (128 * k) 128 =
      (s.syncFromDiskInode (UInt32.ofNat (32 * m + k))).toBuffer := by
  have hnat : (UInt32.ofNat (32 * m + k)).toNat = 32 * m + k := toNat_ofNat_of_lt (by omega)
  have hblock : blockKey (UInt32.ofNat (10 + m)) =
      blockKey (FileSys.inodeBlock (UInt32.ofNat (32 * m + k))) := by
    rw [blockKey_ofNat (by omega), blockKey_inodeBlock (by omega), hnat]
    omega
  have hslot : (UInt32.ofNat (32 * m + k) % 32).toNat = k := by
    simp only [UInt32.toNat_mod, hnat, UInt32.reduceToNat]
    omega
  rw [FileSys.syncFromDiskInode, Inode.toBuffer_ofBuffer, hslot, s.readBlock_congr hblock]

/-- A volume says what every block of the card holds. -/
theorem Shows.sameCard {s t : FileSys} {v : Volume} (hs : Shows s v) (ht : Shows t v) :
    SameCard s t := by
  have hblockbmp : t.blockbmp = s.blockbmp := Buffer.ext_bits fun k hk => by
    rw [← ht.blockBit k (by omega), hs.blockBit k (by omega)]
  have hinodebmp : t.inodebmp = s.inodebmp := Buffer.ext_bits fun k hk => by
    by_cases hlt : k < 8192
    · rw [← ht.inodeBit k hlt, hs.inodeBit k hlt]
    · rw [Buffer.bit, Buffer.bit, ht.tail _ (by omega), hs.tail _ (by omega)]
  refine ⟨fun p => ?_, hblockbmp, hinodebmp⟩
  have hlt := blockKey_lt p
  rw [t.readBlock_eq_ofNat, s.readBlock_eq_ofNat]
  generalize blockKey p = k at hlt ⊢
  obtain rfl | ⟨m, rfl, hm⟩ | rfl | ⟨m, rfl, hm⟩ | hge : k = 0 ∨ (∃ m, k = 1 + m ∧ m < 8) ∨ k = 9 ∨
      (∃ m, k = 10 + m ∧ m < 256) ∨ 266 ≤ k := by
    by_cases h8 : k < 9
    · by_cases h0 : k = 0
      · exact .inl h0
      · exact .inr (.inl ⟨k - 1, by omega, by omega⟩)
    · by_cases h266 : k < 266
      · by_cases h9 : k = 9
        · exact .inr (.inr (.inl h9))
        · exact .inr (.inr (.inr (.inl ⟨k - 10, by omega, by omega⟩)))
      · exact .inr (.inr (.inr (.inr (by omega))))
  · exact (ht.superblock.trans (ht.counters.trans hs.counters.symm)).trans hs.superblock.symm
  · rw [ht.blockbmp m hm, hs.blockbmp m hm, hblockbmp]
  · exact (ht.inodebmp.trans hinodebmp).trans hs.inodebmp.symm
  · refine Buffer.ext_slices (m := 128) (by omega) fun j hj => ?_
    rw [t.slice_readBlock hm (by omega), s.slice_readBlock hm (by omega),
      ← ht.inode _ (by omega), hs.inode _ (by omega)]
  · rw [← ht.block k hge hlt, hs.block k hge hlt]

namespace Inode
variable (i : Inode)

theorem dropEntry_ne : i.dropEntry ≠ i := fun h => by
  have hnum := congrArg (fun j => j.iFnum.toNat) h
  have hlt := i.iFnum.toNat_lt
  simp only [dropEntry, UInt32.toNat_sub, UInt32.reduceToNat] at hnum
  omega

theorem dropEntry_addEntry : i.addEntry.dropEntry = i := by
  simp only [dropEntry, addEntry, UInt32.add_sub_cancel]

end Inode

namespace Volume
variable {V : Set Nat} {v v' : Volume}

/-- A removal that leaves the records as they were clears the entry in slot `j` of the first block
and the bits of the inode it names. -/
structure Clears (v : Volume) (i : Inode) (name : Text) (j : Nat) (v' : Volume) : Prop where
  lt : j < 32
  block : i.iDirectTable 0 ≠ 0
  slot : v.findDentry i name = .ok (UInt32.ofNat j)
  accepted : 2 ≤ UInt32.ofNat j ∧ UInt32.ofNat j ≤ i.iFnum + 2
  same : FileSys.sameName (v.block (i.iDirectTable 0).toNat) name.bytes (128 * j + 4) = .ok true
  entry : v'.block (i.iDirectTable 0).toNat = putDentry (v.block (i.iDirectTable 0).toNat) j .zero
  inodeBit : v'.inodeBit =
    (v.removed (dentryAt (v.block (i.iDirectTable 0).toNat) j).dInum.toNat).inodeBit
  blockBit : v'.blockBit =
    (v.removed (dentryAt (v.block (i.iDirectTable 0).toNat) j).dInum.toNat).blockBit

theorem Removes.clears {path : Text} (h : Removes V v path v') (hw : Well V v)
    (hsame : ∀ q < 8192, v'.inode q = v.inode q) :
    ∃ n name i j, Known V n ∧ v.target (.rmdir path) = .ok (n, name) ∧ v.load n = .ok i ∧
      Clears v i name j v' := by
  cases h with
  | @intro name n c dnum i i' v₁ hn htarget hload hchild hc hdnum hwrote =>
  have hi := (hw.of_load hn hload).2
  obtain rfl | ⟨j, hj, hne, hslot, rfl, hname⟩ | ⟨-, rfl⟩ := of_findFile hi hchild
  · exact absurd (hw.lt _ hc) (by decide)
  · obtain rfl := Except.ok.inj (hslot.symm.trans hdnum)
    have hq : inodeKey n ∈ V := hn.resolve_left fun hn => by
      rw [hn, v.load_notFound] at hload
      exact hne (Except.ok.inj hload ▸ zeroInode_iDirectTable 0)
    obtain ⟨hinode, hnum⟩ := hw.of_mem hq hload
    cases hwrote with
    | refused =>
      refine absurd (hsame (inodeKey n) (hw.lt _ hq)) ?_
      simp only [stored, removed, Inode.dropEntry_iNum, hnum, Function.update_self, hinode]
      exact i.dropEntry_ne
    | grown hin h12 hzero =>
      exact absurd hzero (present_of_findFile hi hchild (hw.lt _ hc) hdnum h12)
    | filled hin h12 =>
      refine ⟨n, name, i, j, hn, htarget, hload, hj, hne, hdnum, hin, hname, ?_, rfl, rfl⟩
      simp only [major_of_lt hj, minor_of_lt hj, stored, wrote, removed, Fin.zero_eta,
        Function.update_self]
    | lost hin h12 =>
      rw [major_of_lt hj] at h12
      omega
  · exact absurd (hw.lt _ hc) (by decide)

/-- The slot was cleared before: then the name was empty, and the bits are those of inode 0. -/
theorem Clears.of_block_eq {i : Inode} {name : Text} {j : Nat} (h : Clears v i name j v')
    (heq : v'.block (i.iDirectTable 0).toNat = v.block (i.iDirectTable 0).toNat) :
    dentryAt (v.block (i.iDirectTable 0).toNat) j = .zero ∧ name = .empty := by
  have hzero : dentryAt (v.block (i.iDirectTable 0).toNat) j = .zero := by
    rw [← heq, h.entry, dentryAt_putDentry _ _ h.lt, if_pos rfl]
  refine ⟨hzero, ?_⟩
  have hsame : FileSys.sameName (v.block (i.iDirectTable 0).toNat) name.bytes (128 * j + 4) = _ :=
    FileSys.sameName_dentryAt h.lt (hzero ▸ terminated_zero)
  rw [hzero, dName_zero] at hsame
  exact (of_decide_eq_true (Except.ok.inj (hsame.symm.trans h.same))).symm

theorem removed_zero (hbit : v.inodeBit 0 = false)
    (hbits : ∀ p ∈ leading (v.inode 0), v.blockBit p.toNat = false) : v.removed 0 = v := by
  have hinode : Function.update v.inodeBit 0 false = v.inodeBit := by rw [← hbit]; simp
  have hblock : (fun k => v.blockBit k && decide (∀ p ∈ leading (v.inode 0), p.toNat ≠ k)) =
      v.blockBit := by
    funext k
    cases hk : v.blockBit k with
    | false => rfl
    | true =>
      refine decide_eq_true fun p hp hpk => ?_
      rw [← hpk, hbits p hp] at hk
      cases hk
  rw [removed, hinode, hblock]

theorem refilled_eq {i : Inode} {b j : Nat} (hi : v.inode i.iNum.toNat = i)
    (hzero : dentryAt (v.block b) j = .zero) :
    ((v.stored i.addEntry).wrote b (putDentry (v.block b) j .zero)).stored i.addEntry.dropEntry =
      v := by
  have hblock : putDentry (v.block b) j .zero = v.block b := by
    rw [← hzero]
    exact Buffer.blit_slice _ _ _
  rw [i.dropEntry_addEntry, stored, wrote, stored, hblock]
  simp only [Inode.addEntry_iNum, Function.update_idem, Function.update_eq_self]
  nth_rewrite 2 [← hi]
  rw [Function.update_eq_self]

end Volume

/-- `do_rmdir` of a path of one byte looks for the empty name in what that byte names, and clears
the first slot without a name. Here that slot is clear already, and so are the bits of the inode
with its number, 0, and of the blocks of that inode. -/
structure FileSys.NothingLeft (s : FileSys) (path : Text) (n j : UInt32) : Prop where
  oneByte : path.bytes.length = 1
  parent : s.findFile s.currentDir path = .ok n
  slot : s.findDentry (s.syncFromDiskInode n) .empty = .ok j
  accepted : 2 ≤ j ∧ j ≤ (s.syncFromDiskInode n).iFnum + 2
  entry : j.toNat < 32 ∧
    dentryAt (s.readBlock ((s.syncFromDiskInode n).iDirectTable 0)) j.toNat = .zero
  inodeBit : s.inodebmp.bit 0 = false
  blockBits : ∀ p ∈ Volume.leading (s.syncFromDiskInode 0), s.blockbmp.bit p.toNat = false

section NothingLeft
variable {s : FileSys} {v v' : Volume} {V W : Set Nat} (hv : Shows s v) (hw : Well V v)
  (hs : Sound V W v) {path : Text}
include hv hw hs

theorem FileSys.NothingLeft.of_removes {parent name : Text} (hsplit : Splits path parent name)
    (hname : name.bytes ≠ []) (h : Volume.Removes V v path v')
    (hinode : ∀ q < 8192, v'.inode q = v.inode q)
    (hblock : ∀ b ∈ dataBlocks, v'.block b = v.block b)
    (hinodeBit : ∀ q < 8192, v'.inodeBit q = v.inodeBit q)
    (hblockBit : ∀ b < 262144, v'.blockBit b = v.blockBit b) : ∃ n j, s.NothingLeft path n j := by
  obtain ⟨n, rest, i, j, hn, htarget, hload, hclears⟩ := h.clears hw hinode
  have hdata := ((hw.of_load hn hload).2 0).resolve_left hclears.block
  obtain ⟨hzero, rfl⟩ := hclears.of_block_eq (hblock _ hdata)
  obtain ⟨⟨dir, rest⟩, hsep, htarget⟩ :=
    exists_of_bind_ok (eq_ok_of_refines (hv.parentOf path) htarget)
  obtain ⟨m, hm, htarget⟩ := exists_of_bind_ok htarget
  obtain ⟨rfl, rfl⟩ := Prod.mk.inj (Except.ok.inj htarget)
  obtain ⟨hone, rfl⟩ := hsplit.one_byte hname hsep
  have hbit := hclears.inodeBit
  have hbits := hclears.blockBit
  rw [hzero, dInum_zero] at hbit hbits
  refine ⟨m, UInt32.ofNat j, hone, hm, ?_, ?_, ?_, ?_, fun p hp => ?_⟩
  · rw [hv.load hload]
    exact eq_ok_of_refines (hv.findDentry _ _) hclears.slot
  · rw [hv.load hload]
    exact hclears.accepted
  · rw [hv.load hload, toNat_ofNat_of_lt (by have := hclears.lt; omega), ← hzero,
      hv.block _ hdata.1 (by have := hdata.2; omega), UInt32.ofNat_toNat]
    exact ⟨hclears.lt, rfl⟩
  · rw [← hv.inodeBit 0 (by omega), ← hinodeBit 0 (by omega), hbit]
    simp [Volume.removed]
  · rw [hv.load (Volume.load_of_lt (by decide))] at hp
    have hlt := (Volume.mem_leading hw hs.root hp).2
    rw [← hv.blockBit _ hlt, ← hblockBit _ hlt, hbits]
    exact Bool.and_eq_false_iff.mpr (.inr (decide_eq_false fun hall => hall _ hp rfl))

/-- With nothing left to clear every write of `do_rmdir` writes what is there. -/
theorem FileSys.NothingLeft.rmdir {n j : UInt32} (h : s.NothingLeft path n j)
    (hsep : separatePath path 64 = .ok (path, .empty)) : v.rmdir path = .ok v := by
  obtain ⟨_, hn, rfl, -⟩ := (Volume.findFile_ensures hw.dir path).exists_of_refines
    (hv.findFile _ path) (hv.currentDir_eq ▸ h.parent)
  have hknown := hs.known_of_findFile hs.dir hn
  obtain ⟨i, hload, hnum, hwithin⟩ := hw.load hknown
  obtain ⟨h32, hentry⟩ := h.entry
  have hslot := h.accepted
  have hdentry := h.slot
  rw [hv.load hload] at hentry hslot hdentry
  obtain ⟨_, hdnum, rfl, -⟩ := (Volume.findDentry_ensures hwithin .empty).exists_of_refines
    (hv.findDentry _ _) hdentry
  obtain ⟨r, hr, hj⟩ := exists_of_bind_ok hdnum
  obtain rfl | ⟨k, hk, hne, rfl, -⟩ | ⟨-, rfl⟩ := Volume.lookup_cases hwithin hr
  · rw [← Except.ok.inj hj] at h32
    exact absurd h32 (by decide)
  · have hjk : UInt32.ofNat k = j := Except.ok.inj hj
    have hnat : k = j.toNat := by rw [← hjk, toNat_ofNat_of_lt (by omega)]
    have hdata := (hwithin 0).resolve_left hne
    have hzero : dentryAt (v.block (i.iDirectTable 0).toNat) j.toNat = .zero := by
      rw [hv.block _ hdata.1 (by have := hdata.2; omega), UInt32.ofNat_toNat]
      exact hentry
    have hchild : v.findFile i .empty = .ok 0 := by
      rw [Volume.findFile, hr, ok_bind, Option.elim_some]
      dsimp only
      rw [hnat, hzero, dInum_zero, pure_eq_ok]
    have hremoved : v.removed (0 : UInt32).toNat = v :=
      Volume.removed_zero (hv.inodeBit 0 (by omega) ▸ h.inodeBit) fun p hp => by
        rw [hv.blockBit _ (Volume.mem_leading hw hs.root hp).2]
        exact h.blockBits p (by rwa [hv.load (Volume.load_of_lt (by decide))])
    have hrelease := Volume.free_release hw (c := 0) hs.root (.inr (hs.straight 0 hs.root))
    have hstored : v.inode i.iNum.toNat = i := by
      obtain rfl | ⟨-, hinode⟩ := hw.loaded hknown hload
      · exact absurd (zeroInode_iDirectTable 0) hne
      · exact hinode
    rw [Volume.rmdir, hsep, exactly_ok, ok_bind]
    dsimp only
    rw [hn, ok_bind, hload, ok_bind, hchild, ok_bind, Volume.load_of_lt (by decide), ok_bind,
      ← bind_assoc, hrelease, ok_bind, hremoved, hdnum, ok_bind,
      Volume.removeDentry_first hnum hslot h32 hdata, ok_bind]
    exact congrArg Except.ok (Volume.refilled_eq hstored hzero)
  · have hfirst : (0 : UInt32) = j := Except.ok.inj hj
    exact absurd hslot.1 (by rw [← hfirst]; decide)

end NothingLeft

theorem rmdir_harmless_iff {s : FileSys} (h : Reach (fun op _ => op.WritesThrough) s)
    {path parent name : Text} (hsplit : Splits path parent name) (hname : name.bytes ≠ []) :
    (∃ t, s.doRmdir path = .ok t ∧ SameCard s t) ↔ ∃ n j, s.NothingLeft path n j := by
  obtain ⟨v, hv, V, W, -, hw, hs⟩ := h.remountable
  constructor
  · rintro ⟨t, ht, hsame⟩
    obtain ⟨v', hv', hdoes⟩ := hs.does hv hw .blank (.rmdir path) trivial ht
    exact FileSys.NothingLeft.of_removes hv hw hs hsplit hname hdoes
      (fun _ => hsame.inode_eq hv hv') (fun _ => hsame.block_eq hv hv')
      (fun _ => hsame.inodeBit_eq hv hv') fun _ => hsame.blockBit_eq hv hv'
  · rintro ⟨n, j, hnothing⟩
    have hsep := hsplit.separatePath_one_byte hname hnothing.oneByte
    obtain ⟨t, ht, hv'⟩ := (hv.doRmdir path).exists_ok (hnothing.rmdir hv hw hs hsep)
    exact ⟨t, ht, hv.sameCard hv'⟩

def Volume.nothingLeft (v : Volume) (path : Text) (n j : UInt32) : Bool :=
  decide (path.bytes.length = 1) && (v.findFile v.currentDir path).toOption == some n &&
    !v.inodeBit 0 && (Volume.leading (v.inode 0)).all
      (fun p => decide (p.toNat < 262144) && !v.blockBit p.toNat) &&
    (v.load n).sure fun i => (v.findDentry i .empty).toOption == some j &&
      decide (2 ≤ j ∧ j ≤ i.iFnum + 2) && decide (j.toNat < 32) &&
      (v.read (i.iDirectTable 0)).sure fun b =>
        (List.range 128).all fun k => (dentryAt b j.toNat).get k == 0

theorem Shows.of_nothingLeft {s : FileSys} {v : Volume} (h : Shows s v) {path : Text}
    {n j : UInt32} (hnothing : v.nothingLeft path n j = true) : s.NothingLeft path n j := by
  simp only [Volume.nothingLeft, Bool.and_eq_true, decide_eq_true_eq, beq_iff_eq,
    Bool.not_eq_true'] at hnothing
  obtain ⟨⟨⟨⟨hone, hparent⟩, hbit⟩, hbits⟩, hload⟩ := hnothing
  have hrest := h.of_sure_load hload
  simp only [Bool.and_eq_true, decide_eq_true_eq, beq_iff_eq] at hrest
  obtain ⟨⟨⟨hslot, haccepted⟩, h32⟩, hread⟩ := hrest
  have hbytes := h.of_sure_read hread
  refine ⟨hone, ?_, ?_, haccepted, ⟨h32, Buffer.ext fun k hk => ?_⟩, ?_, fun p hp => ?_⟩
  · rw [h.currentDir_eq]
    exact eq_ok_of_refines (h.findFile _ _) (eq_ok_of_toOption hparent)
  · exact eq_ok_of_refines (h.findDentry _ _) (eq_ok_of_toOption hslot)
  · rw [Buffer.get_zero]
    exact eq_of_beq (List.all_eq_true.mp hbytes k (List.mem_range.mpr hk))
  · rw [← h.inodeBit 0 (by omega), hbit]
  · rw [h.load (Volume.load_of_lt (by decide))] at hp
    have hclear := List.all_eq_true.mp hbits p hp
    simp only [Bool.and_eq_true, decide_eq_true_eq, Bool.not_eq_true'] at hclear
    rw [← h.blockBit _ hclear.1, hclear.2]

/-- `rmdir ./.` and `rmdir a` without an `a` in a new file system, and `rmdir .` twice. -/
theorem rmdir_harmless_iff_dot_twice : ∃ s t, FileSys.blank.doMkfs .blank = .ok s ∧
    (¬ ∃ u, s.doRmdir (Text.dot.child .dot) = .ok u ∧ SameCard s u) ∧
    (¬ ∃ u, s.doRmdir .a = .ok u ∧ SameCard s u) ∧
    s.doRmdir .dot = .ok t ∧ (¬ SameCard s t) ∧
    ∃ u, t.doRmdir .dot = .ok u ∧ SameCard t u := by
  obtain ⟨s, t, v, hs, ht, hreach, hv, hp⟩ := exists_run_writesThrough [.rmdir .dot]
    (p := fun v => v.nothingLeft .dot 0 2) (by decide +kernel)
  rw [runOps_singleton] at ht
  have hnothing := hv.of_nothingLeft hp
  obtain ⟨s', hs', hshows⟩ := doMkfs_shows .blank .blank
  obtain rfl := Except.ok.inj (hs.symm.trans hs')
  have hfresh : Reach (fun op _ => op.WritesThrough) s := ⟨_, _, s, hs, .refl⟩
  refine ⟨s, t, hs, ?_, ?_, ht, fun hsame => ?_, ?_⟩
  · rw [rmdir_harmless_iff hfresh (.child (by decide) (by decide)) (by decide)]
    rintro ⟨n, j, h⟩
    exact absurd h.oneByte (by decide)
  · rw [rmdir_harmless_iff hfresh (.plain (by decide)) (by decide)]
    rintro ⟨n, j, h⟩
    have hload := of_sure (p := fun n => ((Volume.mkfs .blank .blank).load n).sure fun i =>
      ((Volume.mkfs .blank .blank).findDentry i .empty).sure fun j => decide (j < 2))
      (hshows.findFile _ _) (by decide +kernel) (hshows.currentDir_eq ▸ h.parent)
    have hslot := of_sure (hshows.findDentry _ _) (hshows.of_sure_load hload :) h.slot
    exact absurd h.accepted.1 (UInt32.not_le.mpr (of_decide_eq_true hslot))
  · have hbit := hnothing.inodeBit
    rw [hsame.inodebmp, ← hshows.inodeBit 0 (by omega)] at hbit
    cases hbit
  · exact (rmdir_harmless_iff hreach (.plain (by decide)) (by decide)).mpr ⟨0, 2, hnothing⟩

theorem rmdir_dot_frees_root : ∃ s t, FileSys.blank.doMkfs .blank = .ok s ∧
    Splits (Text.dot.child .dot) .dot .dot ∧ s.doRmdir (Text.dot.child .dot) = .ok t ∧
    (s.inodebmp.bit 0 = true ∧ t.inodebmp.bit 0 = false) ∧
    (s.blockbmp.bit 266 = true ∧ t.blockbmp.bit 266 = false) ∧
    (t.syncFromDiskInode 0).iFnum = 0xffffffff ∧ ¬ SameCard s t := by
  obtain ⟨s, t, v, hs, ht, -, hv, hp⟩ := exists_run_writesThrough [.rmdir (Text.dot.child .dot)]
    (p := fun v => !v.inodeBit 0 && !v.blockBit 266 && (v.inode 0).iFnum == 0xffffffff)
    (by decide +kernel)
  rw [runOps_singleton] at ht
  simp only [Bool.and_eq_true, beq_iff_eq, Bool.not_eq_true'] at hp
  obtain ⟨⟨hinode, hblock⟩, hfnum⟩ := hp
  obtain ⟨s', hs', hshows⟩ := doMkfs_shows .blank .blank
  obtain rfl := Except.ok.inj (hs.symm.trans hs')
  have hset : s.inodebmp.bit 0 = true := (hshows.inodeBit 0 (by omega)).symm
  have hclear : t.inodebmp.bit 0 = false := (hv.inodeBit 0 (by omega)).symm.trans hinode
  refine ⟨s, t, hs, .child (by decide) (by decide), ht, ⟨hset, hclear⟩, ⟨?_, ?_⟩, ?_,
    fun hsame => ?_⟩
  · exact (hshows.blockBit 266 (by omega)).symm
  · exact (hv.blockBit 266 (by omega)).symm.trans hblock
  · rw [hv.load (Volume.load_of_lt (by decide))]
    exact hfnum
  · rw [hsame.inodebmp, hset] at hclear
    cases hclear

/-! Links to nothing. The inode of number `-1` reads as a cleared record with number 0, so the count
of links goes to the root's slot. -/

namespace FileSys
variable {s t : FileSys} {e : Env} {srcPath newPath name : Text} {n : UInt32}

theorem readBlock_syncToDiskInode {i : Inode} (h : s.syncFromDiskInode i.iNum = i) (p : UInt32) :
    (s.syncToDiskInode i).readBlock p = s.readBlock p := by
  rw [syncToDiskInode, readBlock_writeBlock]
  split_ifs with hp
  · have hbuf : i.toBuffer = (s.readBlock (inodeBlock i.iNum)).slice (128 * (i.iNum % 32).toNat)
        128 := by
      rw [← h, syncFromDiskInode, Inode.toBuffer_ofBuffer, ← syncFromDiskInode, h]
    rw [hbuf, Buffer.blit_slice, s.readBlock_congr hp]
  · rfl

theorem doLink_of_refused (hsrc : s.parsePath srcPath s.currentDir = .ok notFound)
    (hzero : s.syncFromDiskInode notFound = zeroInode) (htarget : s.target (.link srcPath newPath) =
    .ok (n, name))
    (hfull : (s.syncFromDiskInode n).iFnum + 2 < 2) :
    s.doLink e srcPath newPath = .ok (s.syncToDiskInode zeroInode.addLink) := by
  obtain ⟨x, hsep, htarget⟩ := exists_of_bind_ok htarget
  obtain ⟨m, hm, htarget⟩ := exists_of_bind_ok htarget
  obtain ⟨rfl, rfl⟩ := Prod.mk.inj (Except.ok.inj htarget)
  rw [doLink, hsrc, ok_bind, hzero, if_neg (by simp [sIsdir, sIfmt, sIfdir]), hsep, ok_bind]
  dsimp only
  rw [hm, ok_bind, appendDentry, writeDentry, if_pos hfull, ok_bind]
  rfl

end FileSys

end Ucas.Fs

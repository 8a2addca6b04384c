import UcasOs.Fs.Missing

/-! Directories in directories. `do_mkdir` looks its parent up as one name, slashes included. No
entry has such a name, so the parent is inode `-1`, whose cleared record carries number 0: the new
directory's entry goes to a new block, and the root's record is replaced by one that points to that
block only. -/

namespace Ucas.Fs
open Ucas.Lib

namespace FileSys

/-- The root is an allocated directory that names itself, and no entry of the current directory has
a slash in its name. -/
structure IsTree (s : FileSys) : Prop where
  allocated : s.inodebmp.bit 0 = true
  root : s.findFile (s.syncFromDiskInode 0) .dot = .ok 0
  plain : ∀ name n, Text.slash ∈ name.bytes → s.findFile s.currentDir name = .ok n → n = notFound

/-- The path `dir` leads to directory `n`, which has no entry with the name. -/
structure Vacant (s : FileSys) (dir name : Text) (n : UInt32) : Prop where
  resolves : s.parsePath dir s.currentDir = .ok n
  found : n ≠ notFound
  isDirectory : sIsdir (s.syncFromDiskInode n).iFmode = true
  absent : s.findFile (s.syncFromDiskInode n) name = .ok notFound

/-- What `do_mkdir` of `dir/name` should do: a new entry in the directory that `dir` leads to and no
other change to what names lead to, and if there is no such directory no change to the card. -/
def CreatesNested (e : Env) (dir name : Text) (mode : UInt16) (s : FileSys) : Prop :=
  ∃ r t, s.doMkdir e (dir.child name) mode = .ok (r, t) ∧
    (∀ n, s.Vacant dir name n → (∃ q, q ≠ notFound ∧ t.findFile (t.syncFromDiskInode n) name = .ok
      q) ∧
      ∀ m other, s.inodebmp.bit m.toNat = true → m ≠ n ∨ other ≠ name →
        t.findFile (t.syncFromDiskInode m) other = s.findFile (s.syncFromDiskInode m) other) ∧
    ((∀ n, ¬ s.Vacant dir name n) → ∀ p, t.readBlock p = s.readBlock p)

end FileSys

theorem slotOf_single (d : Dentry) {name : Text} (hname : name.bytes ≠ []) :
    slotOf (putDentry .zero 2 d) name = if d.dName = name then some 2 else none := by
  have hempty : ∀ j, (dentryAt .zero j).dName ≠ name := fun j h => by
    rw [dentryAt_zero, dName_zero] at h
    exact hname (congrArg Text.bytes h.symm)
  split_ifs with heq
  · subst heq
    exact slotOf_put_self (by omega) fun j _ => hempty j
  · rw [slotOf_put_of_ne heq (hempty 2)]
    exact slotOf_eq_none.mpr fun j _ => hempty j

namespace Volume
variable {V : Set Nat} {v v' : Volume} {e : Env} {name : Text}

theorem Creates.target {op : Op} (h : Creates V e v op v') :
    ∃ n name, v.target op = .ok (n, name) := by
  cases h with
  | present htarget => exact ⟨_, _, htarget⟩
  | made _ hadds =>
    obtain ⟨-, htarget, -⟩ := hadds
    exact ⟨_, _, htarget⟩

theorem Creates.of_notFound {op : Op} (h : Creates V e v op v') (hw : Well V v)
    (htarget : v.target op = .ok (notFound, name)) (hname : name.bytes ≠ [])
    (hlen : name.length < 124) :
    ∃ q < 8192, v.inodeBit q = false ∧ v'.inodeBit q = true ∧
      v'.findFile (v'.inode 0) .dot = .ok (if name = .dot then UInt32.ofNat q else notFound) := by
  have habsent : v.findDentry zeroInode name = .ok notFound := by
    rw [findDentry, lookup_of_zero (zeroInode_iDirectTable 0) hname]
    rfl
  cases h with
  | present htarget' hload hdnum hne =>
    obtain ⟨rfl, rfl⟩ := Prod.mk.inj (Except.ok.inj (htarget.symm.trans htarget'))
    obtain rfl := Except.ok.inj (hload.symm.trans v.load_notFound)
    exact absurd (Except.ok.inj (hdnum.symm.trans habsent)) hne
  | @made name' i v' _ hadds =>
    obtain @⟨n, i', fmode, content, q, v₁, hn, htarget', hload, hmakes, hmade, hwrote⟩ := hadds
    obtain ⟨rfl, rfl⟩ := Prod.mk.inj (Except.ok.inj (htarget.symm.trans htarget'))
    obtain rfl := Except.ok.inj (hload.symm.trans v.load_notFound)
    obtain ⟨hq, hclear, hbit⟩ := hmade.inodeBit
    refine ⟨q, hq, hclear, by rw [hwrote.inodeBit, hbit, Function.update_self], ?_⟩
    cases hwrote with
    | refused hrefuse => exact absurd hrefuse (by simp)
    | @grown b _ _ _ _ hb hi' =>
      have hdata := firstClear_mem_dataBlocks (fun k hk => hmade.low (hw.low k hk)) hb
      have hfirst : (i'.iDirectTable 0).toNat = b := by
        rw [hi']
        simp [toNat_ofNat_of_lt (show b < 4294967296 by have := hdata.2; omega)]
      have hslot : ((zeroInode.iFnum + 2) % 32).toNat = 2 := by simp
      rw [hslot]
      set u := (v₁.stored i').allotted b (putDentry .zero 2 (e.stack.fill (UInt32.ofNat q)
        name)) with hu
      have hroot : u.inode 0 = i' := by simp [hu, allotted, stored, hi']
      have hblock : u.block (i'.iDirectTable 0).toNat = putDentry .zero 2
          (e.stack.fill (UInt32.ofNat q) name) := by
        rw [hfirst, hu]
        simp only [allotted, Function.update_self]
      have hnamed : Named (putDentry .zero 2 (e.stack.fill (UInt32.ofNat q) name)) :=
        named_zero.put (terminated_fill hlen)
      rw [hroot, findFile_eq (hfirst.symm ▸ hdata) (hblock.symm ▸ hnamed), hblock, slotOf_single _
        (by decide), dName_fill hlen]
      split_ifs with hdot
      · rw [Option.elim_some, dentryAt_putDentry _ _ (by omega), if_pos rfl, dInum_fill]
      · rfl
    | filled _ _ hne => exact absurd (zeroInode_iDirectTable _) hne
    | lost _ h12 => exact absurd h12 (by simp)

end Volume

/-- Whatever the tree, a directory is never made in the directory that a path with a slash leads to.
-/
theorem nested_mkdir_never {s : FileSys} (h : Reach (fun op _ => op.WritesThrough) s)
    (htree : s.IsTree) (e : Env)
    {dir name : Text} (mode : UInt16) (hdir : Text.slash ∈ dir.bytes) (hname : name.bytes ≠ [])
    (hplain : Text.slash ∉ name.bytes) : ¬ s.CreatesNested e dir name mode := by
  rintro ⟨r, t, hmkdir, hvacant, hother⟩
  obtain ⟨v, hv, V, W, -, hw, hs⟩ := h.remountable
  have hexec : exec e (.mkdir (dir.child name) mode) s = .ok t := by
    rw [exec, hmkdir]
    rfl
  obtain ⟨v', hv', hdoes⟩ := hs.does hv hw e (.mkdir (dir.child name) mode) trivial hexec
  -- the whole of `dir` is looked up as one name
  obtain ⟨n, name', htarget⟩ := Volume.Creates.target hdoes
  have hparent := eq_ok_of_refines (hv.parentOf _) htarget
  obtain ⟨x, hsep, hparent⟩ := exists_of_bind_ok hparent
  obtain ⟨m, hm, hparent⟩ := exists_of_bind_ok hparent
  obtain ⟨rfl, hlen⟩ := Text.of_separatePath_child (fun hnil => by simp [hnil] at hdir) hplain hsep
  obtain ⟨rfl, rfl⟩ := Prod.mk.inj (Except.ok.inj hparent)
  obtain rfl := htree.plain dir m hdir hm
  obtain ⟨q, hq, hclear, hset, hdot⟩ := Volume.Creates.of_notFound hdoes hw htarget hname
    (Nat.lt_trans hlen (by omega))
  by_cases hex : ∃ n, s.Vacant dir name n
  · -- the root's entry for itself is gone
    obtain ⟨n, hn⟩ := hex
    have hkeep := (hvacant n hn).2 0 .dot htree.allocated ?_
    · have hroot : t.syncFromDiskInode 0 = v'.inode 0 := (hv'.inode 0 (by omega)).symm
      rw [hroot, eq_ok_of_refines (hv'.findFile _ _) hdot, htree.root] at hkeep
      have hzero : UInt32.ofNat q ≠ 0 := fun hzero => by
        have hnat := congrArg UInt32.toNat hzero
        rw [toNat_ofNat_of_lt (by omega)] at hnat
        rw [show q = 0 from hnat, hv.inodeBit 0 (by omega), htree.allocated] at hclear
        cases hclear
      split_ifs at hkeep
      · exact hzero (Except.ok.inj hkeep)
      · exact absurd (Except.ok.inj hkeep) (by decide)
    · by_contra hsame
      rw [not_or, not_not, not_not] at hsame
      obtain ⟨rfl, rfl⟩ := hsame
      exact absurd (Except.ok.inj (htree.root.symm.trans hn.absent)) (by decide)
  · -- an inode was taken all the same
    have hsame := hv.toSynced.sameCard hv'.toSynced (hother fun n hn => hex ⟨n, hn⟩)
    rw [hsame.inodeBit_eq hv hv' hq, hclear] at hset
    cases hset

theorem isTree_mkfs {t s : FileSys} {e : Env} (ht : Shows t (Volume.mkfs e s)) : t.IsTree := by
  refine ⟨?_, ?_, fun name n hslash hn => ?_⟩
  · rw [← ht.inodeBit 0 (by omega)]
    rfl
  · rw [ht.mkfs_syncFromDiskInode, ht.mkfs_findFile (by decide), if_pos (.inl rfl)]
  · have hne : ¬ (name = .dot ∨ name = .dotdot) := by
      rintro (rfl | rfl) <;> exact absurd hslash (by decide)
    rw [ht.mkfs_findFile (List.ne_nil_of_mem hslash), if_neg hne] at hn
    exact (Except.ok.inj hn).symm

theorem nested_mkdir_never_mkfs : ∃ s, FileSys.blank.doMkfs .blank = .ok s ∧ s.IsTree ∧
    ¬ s.CreatesNested .blank (Text.dot.child .a) .a 0 := by
  obtain ⟨s, hs, hshows⟩ := doMkfs_shows .blank .blank
  exact ⟨s, hs, isTree_mkfs hshows, nested_mkdir_never ⟨_, _, s, hs, .refl⟩ (isTree_mkfs hshows)
    .blank 0 (by decide)
    (by decide) (by decide)⟩

section Mkfs
variable {s : FileSys} {e : Env}

theorem mkfs_low : ∀ k, k < 266 → (Volume.mkfs e s).blockBit k = true := (well_mkfs e s).low

theorem mkfs_firstClear_inode : firstClear (Volume.mkfs e s).inodeBit 8192 = some 1 :=
  firstClear_eq_some.mpr ⟨by omega, rfl, fun p hp => by
    obtain rfl : p = 0 := by omega
    rfl⟩

theorem mkfs_firstClear_block : firstClear (Volume.mkfs e s).blockBit 262144 = some 267 :=
  firstClear_eq_some.mpr ⟨by omega, rfl, fun p hp => decide_eq_true (by omega)⟩

theorem mkfs_parentOf : (Volume.mkfs e s).parentOf (Text.dot.child .a) = .ok (0, .a) := by
  rw [Volume.parentOf, show separatePath (Text.dot.child .a) 64 = .ok (.dot, .a) by decide,
    exactly_ok, ok_bind]
  dsimp only
  rw [show (Volume.mkfs e s).currentDir = rootOf e from rfl, Volume.mkfs_findFile (by decide),
    if_pos (.inl rfl), ok_bind]
  rfl

theorem mkfs_absent : (Volume.mkfs e s).findDentry (rootOf e) .a = .ok notFound := by
  rw [Volume.mkfs_findDentry (by decide), if_neg (by decide), if_neg (by decide)]

end Mkfs

/-- `mkdir ./a; mkdir ./a/a`. -/
theorem nested_mkdir_loses_root : ∃ s₀ s t, FileSys.blank.doMkfs .blank = .ok s₀ ∧
    s₀.doMkdir .blank (Text.dot.child .a) 0 = .ok (0, s) ∧ s.Vacant (Text.dot.child .a) .a 1 ∧
    s.doMkdir .blank ((Text.dot.child .a).child .a) 0 = .ok (0, t) ∧
    t.findFile (t.syncFromDiskInode 1) .a = .ok notFound ∧
    sIsdir (s.syncFromDiskInode 0).iFmode = true ∧ sIsdir (t.syncFromDiskInode 0).iFmode = false ∧
    ¬ s.CreatesNested .blank (Text.dot.child .a) .a 0 := by
  obtain ⟨s₀, hs₀, hshows⟩ := doMkfs_shows .blank .blank
  obtain ⟨r, s, v, hs, hv, hp⟩ := hshows.exists_mkdir (Text.dot.child .a) 0
    (q := fun x => x.1 == 0 &&
      (x.2.parsePath (Text.dot.child .a) x.2.currentDir).toOption == some 1 &&
      sIsdir (x.2.inode 1).iFmode && (x.2.findFile (x.2.inode 1) .a).toOption == some notFound &&
      sIsdir (x.2.inode 0).iFmode &&
      (x.2.mkdir .blank ((Text.dot.child .a).child .a) 0).toOption.any fun y => y.1 == 0 &&
        (y.2.findFile (y.2.inode 1) .a).toOption == some notFound && !sIsdir (y.2.inode 0).iFmode)
    (by decide +kernel)
  simp only [Bool.and_eq_true, beq_iff_eq] at hp
  obtain ⟨⟨⟨⟨⟨rfl, hpath⟩, hmode⟩, habsent⟩, hroot⟩, hmkdir⟩ := hp
  obtain ⟨r', t, v', ht, hv', hp⟩ := hv.exists_mkdir _ _ hmkdir
  simp only [Bool.and_eq_true, beq_iff_eq, Bool.not_eq_true'] at hp
  obtain ⟨⟨rfl, hmiss⟩, hlost⟩ := hp
  have hone : v.inode 1 = s.syncFromDiskInode 1 := hv.inode 1 (by omega)
  have hvacant : s.Vacant (Text.dot.child .a) .a 1 := by
    refine ⟨?_, by decide, hone ▸ hmode, hone ▸ ?_⟩
    · rw [hv.currentDir_eq]
      exact eq_ok_of_refines (hv.parsePath _ _) (eq_ok_of_toOption hpath)
    · exact eq_ok_of_refines (hv.findFile _ _) (eq_ok_of_toOption habsent)
  have hmiss : t.findFile (t.syncFromDiskInode 1) .a = .ok notFound := by
    rw [← show v'.inode 1 = t.syncFromDiskInode 1 from hv'.inode 1 (by omega)]
    exact eq_ok_of_refines (hv'.findFile _ _) (eq_ok_of_toOption hmiss)
  refine ⟨s₀, s, t, hs₀, hs, hvacant, ht, hmiss, ?_, ?_, ?_⟩
  · exact (show v.inode 0 = s.syncFromDiskInode 0 from hv.inode 0 (by omega)) ▸ hroot
  · exact (show v'.inode 0 = t.syncFromDiskInode 0 from hv'.inode 0 (by omega)) ▸ hlost
  · rintro ⟨r, t', ht', hcreates, -⟩
    cases ht.symm.trans ht'
    obtain ⟨q, hne, hq⟩ := (hcreates 1 hvacant).1
    exact hne (Except.ok.inj (hq.symm.trans hmiss))

end Ucas.Fs

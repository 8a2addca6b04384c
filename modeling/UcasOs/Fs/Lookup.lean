import UcasOs.Fs.Tree

/-! Lookup in directories that calls of `do_mkdir` and `do_touch` have built. The entries of the
first block are found, those of the other blocks are not: `find_file` and `find_dentry` compare one
block. -/

namespace Ucas.Fs
open Ucas.Lib

namespace FileSys

structure InUse (s : FileSys) (n : UInt32) : Prop where
  lt : n.toNat < 8192
  allocated : s.inodebmp.bit n.toNat = true

structure IsDirectory (s : FileSys) (n : UInt32) : Prop where
  lt : n.toNat < 8192
  allocated : s.inodebmp.bit n.toNat = true
  mode : sIsdir (s.syncFromDiskInode n).iFmode = true

def Finds (s : FileSys) (n : UInt32) (name : Text) : Prop :=
  ∃ dnum, s.findDentry (s.syncFromDiskInode n) name = .ok dnum ∧ dnum ≠ notFound

def entryAt (s : FileSys) (n : UInt32) (k : Fin 12) (j : Nat) : Dentry :=
  dentryAt (s.readBlock ((s.syncFromDiskInode n).iDirectTable k)) j

def Counts (s : FileSys) (n : UInt32) (k : Fin 12) (j : Nat) : Prop :=
  j < 32 ∧ 32 * k.val + j < (s.syncFromDiskInode n).iFnum.toNat + 2

structure Takes (s : FileSys) (n : UInt32) (name : Text) : Prop where
  isDirectory : s.IsDirectory n
  room : (s.syncFromDiskInode n).iFnum.toNat + 2 < 384
  nonempty : name.bytes ≠ []
  new : ∀ k j, s.Counts n k j → (s.entryAt n k j).dName ≠ name

end FileSys

/-- The calls that build directories, and those that change none. -/
def Op.Builds (op : Op) (s : FileSys) : Prop :=
  match op with
  | .mkdir _ _ | .touch _ _ => ∀ n name, s.target op = .ok (n, name) → s.Takes n name
  | .rmdir _ | .rename _ _ | .link _ _ | .symlink _ _ | .fwrite _ _ => False
  | _ => True

theorem Op.Builds.writesThrough {op : Op} {s : FileSys} (h : op.Builds s) : op.WritesThrough := by
  cases op with
  | symlink | fwrite => exact h.elim
  | _ => trivial

section Directory
variable {s : FileSys} {v : Volume} {n : UInt32} {L : List (Text × UInt32)} (h : Shows s v)
include h

theorem FileSys.InUse.shows (hn : s.InUse n) : n.toNat ∈ taken v :=
  ⟨hn.lt, by rw [h.inodeBit _ hn.lt, hn.allocated]⟩

theorem FileSys.IsDirectory.shows (hn : s.IsDirectory n) :
    n.toNat ∈ taken v ∧ s.syncFromDiskInode n = v.inode n.toNat :=
  ⟨FileSys.InUse.shows h ⟨hn.lt, hn.allocated⟩, h.load (Volume.load_of_lt
    hn.lt)⟩

theorem Dir.isDirectory (hdir : Dir v n.toNat L) : s.IsDirectory n :=
  ⟨hdir.lt, (h.inodeBit _ hdir.lt).symm.trans hdir.inodeBit,
    (h.load (Volume.load_of_lt hdir.lt)).symm ▸ hdir.mode⟩

theorem Tree.of_isDirectory {D : Nat → Option (List (Text × UInt32))} (htree : Tree v D)
    (hn : s.IsDirectory n) :
    ∃ L, D n.toNat = some L := by
  obtain ⟨htaken, hinode⟩ := hn.shows h
  exact htree.all _ htaken (hinode ▸ hn.mode)

variable (hdir : Dir v n.toNat L) (hinode : s.syncFromDiskInode n = v.inode n.toNat)
include hdir hinode

omit h in
theorem Dir.counts {k : Fin 12} {j : Nat} :
    s.Counts n k j ↔ j < 32 ∧ 32 * k.val + j < L.length := by
  rw [FileSys.Counts, hinode, hdir.count]

theorem Dir.entryAt {k : Fin 12} {j : Nat} (hk : s.Counts n k j) :
    ∃ x, L[32 * k.val + j]? = some x ∧ (s.entryAt n k j).Reads x := by
  obtain ⟨hj, hlt⟩ := (hdir.counts hinode).mp hk
  have hdata := hdir.block k (by omega)
  have hread : s.readBlock ((v.inode n.toNat).iDirectTable k) = v.block
      ((v.inode n.toNat).iDirectTable k).toNat := by
    rw [h.block _ hdata.1 (by have := hdata.2; omega), UInt32.ofNat_toNat]
  refine ⟨L.getD (32 * k.val + j) (.empty, 0), ?_, ?_⟩
  · rw [List.getD_eq_getElem?_getD, List.getElem?_eq_getElem hlt, Option.getD_some]
  · rw [FileSys.entryAt, hinode, hread]
    exact hdir.entry k (by omega) j hj

theorem Dir.exists_entryAt {m : Nat} {x : Text × UInt32} (hx : L[m]? = some x) :
    ∃ k j, s.Counts n k j ∧ 32 * k.val + j = m ∧ (s.entryAt n k j).Reads x := by
  have hm : m < L.length := (List.getElem?_eq_some_iff.mp hx).1
  have hfits := hdir.fits
  have hslot : 32 * (m / 32) + m % 32 = m := by omega
  have hcounts : s.Counts n ⟨m / 32, by omega⟩ (m % 32) :=
    (hdir.counts hinode).mpr ⟨by omega, by simp only; omega⟩
  obtain ⟨y, hy, hreads⟩ := hdir.entryAt h hinode hcounts
  rw [show 32 * (⟨m / 32, by omega⟩ : Fin 12).val + m % 32 = m from hslot, hx] at hy
  exact ⟨_, _, hcounts, hslot, Option.some.inj hy ▸ hreads⟩

end Directory

theorem Tree.of_takes {s : FileSys} {v : Volume} {D : Nat → Option (List (Text × UInt32))}
    (htree : Tree v D) (h : Shows s v)
    {n : UInt32} {name : Text} (htakes : s.Takes n name) :
    ∃ L, D n.toNat = some L ∧ L.length < 384 ∧ name ∉ L.map Prod.fst := by
  obtain ⟨L, hL⟩ := htree.of_isDirectory h htakes.isDirectory
  have hdir := htree.dir _ L hL
  have hinode := (htakes.isDirectory.shows h).2
  have hroom := htakes.room
  rw [hinode, hdir.count] at hroom
  refine ⟨L, hL, hroom, fun hmem => ?_⟩
  obtain ⟨x, hx, rfl⟩ := List.mem_map.mp hmem
  obtain ⟨m, hm⟩ := List.mem_iff_getElem?.mp hx
  obtain ⟨k, j, hcounts, -, hreads⟩ := hdir.exists_entryAt h hinode hm
  exact htakes.new k j hcounts hreads.dName

theorem Tree.enters {s : FileSys} {v v₁ v' : Volume} {e : Env} {op : Op}
    {D : Nat → Option (List (Text × UInt32))}
    (htree : Tree v D) (h : Shows s v) {n : UInt32} {name : Text} (htarget : s.target op = .ok
    (n, name))
    (htakes : s.Takes n name) {i i' : Inode} (hload : v.load n = .ok i) {fmode : UInt16}
    {content : Option (UInt32 → Block)} {q : Nat}
    (hmakes : Volume.Makes n op fmode content) (hmade : Volume.Made e v fmode content q v₁)
    (hwrote : Volume.Wrote v₁ i (i.iFnum + 2) (e.stack.fill (UInt32.ofNat q) name) (i', v')) :
    ∃ L D', D n.toNat = some L ∧ Tree v' D' ∧ Enters D D' fmode n q L name := by
  obtain ⟨L, hL, hlen, hnew⟩ := htree.of_takes h htakes
  obtain rfl : v.inode n.toNat = i := (htakes.isDirectory.shows h).2.symm.trans
    (h.load hload)
  have hshort := FileSys.length_of_target htarget
  obtain ⟨D', hD', henters⟩ := htree.create hL hlen htakes.nonempty (by omega) hnew hmakes hmade
    hwrote
  exact ⟨L, D', hL, hD', henters⟩

theorem Tree.creates {s : FileSys} {v v' : Volume} {V : Set Nat} {e : Env} {op : Op}
    {D : Nat → Option (List (Text × UInt32))} (htree : Tree v D) (h : Shows s v)
    (hop : ∀ n name, s.target op = .ok (n, name) → s.Takes n name)
    (hc : Volume.Creates V e v op v') :
    ∃ D', Tree v' D' := by
  cases hc with
  | present => exact ⟨D, htree⟩
  | @made name _ _ _ hadds =>
    obtain @⟨n, _, _, _, _, _, _, htarget, hload, hmakes, hmade, hwrote⟩ := hadds
    have htarget := eq_ok_of_refines (h.target op) htarget
    obtain ⟨-, D', -, hD', -⟩ := htree.enters h htarget (hop n name htarget) hload hmakes hmade
      hwrote
    exact ⟨D', hD'⟩

def mkfsTree : Nat → Option (List (Text × UInt32)) :=
  fun q => if q = 0 then some [(.dot, 0), (.dotdot, 0)] else none

theorem tree_mkfs (e : Env) (s : FileSys) : Tree (Volume.mkfs e s) mkfsTree := by
  have hblock : (Volume.mkfs e s).block 266 = directoryBlock 0 0 :=
    block_rootOf (e := e) ▸ Volume.mkfs_block
  have hzero : 0 ∈ taken (Volume.mkfs e s) := by rw [taken_mkfs]; rfl
  have hroot : (Volume.mkfs e s).inode 0 = newInode e (sIfdir ||| 0o755) 4096 (UInt32.ofNat 266)
    (UInt32.ofNat 0) := rfl
  have hdir : Dir (Volume.mkfs e s) 0 [(.dot, 0), (.dotdot, 0)] :=
    Dir.new hroot (by decide) ⟨by omega, by omega⟩ hblock hzero rfl hzero
  have hsingle : ∀ q L, mkfsTree q = some L → q = 0 ∧ L = [(.dot, 0), (.dotdot, 0)] :=
      fun q L hq => by
    unfold mkfsTree at hq
    split_ifs at hq with hq0
    exact ⟨hq0, (Option.some.inj hq).symm⟩
  refine ⟨(well_mkfs e s).low, fun q L hq => ?_, fun q hq _ => ?_, fun q q' L L' hq hq' k k' hk hk'
    _ => ?_⟩
  · obtain ⟨rfl, rfl⟩ := hsingle q L hq
    exact hdir
  · rw [taken_mkfs] at hq
    obtain rfl := hq
    exact ⟨_, rfl⟩
  · obtain ⟨rfl, rfl⟩ := hsingle q L hq
    obtain ⟨rfl, rfl⟩ := hsingle q' L' hq'
    simp only [List.length_cons, List.length_nil] at hk hk'
    exact ⟨rfl, Fin.ext (by omega)⟩

theorem Volume.Change.exists_inSession {V : Set Nat} {e : Env} {v v' : Volume} {op : Op}
    (h : Volume.Change V e v op v') (hop : op.Quiet ∨ ∃ name, op = .cd name) :
    ∃ f, v' = v.inSession f := by
  cases h with
  | session f => exact ⟨f, rfl⟩
  | cd => exact ⟨_, rfl⟩
  | create hadds =>
    obtain ⟨-, -, -, hmakes, -, -⟩ := hadds
    cases hmakes <;> simp [Op.Quiet] at hop
  | _ => simp [Op.Quiet] at hop

theorem Reach.tree {t : FileSys} (h : Reach Op.Builds t) : ∃ v, Shows t v ∧ ∃ D, Tree v D := by
  obtain ⟨v, hv, -, hD⟩ := h.invariant (I := fun v => Remountable v ∧ ∃ D, Tree v D)
    (fun e s => ⟨remountable_mkfs e s, _, tree_mkfs e s⟩) fun {s t v e op} hs ⟨hv, D, hD⟩ hop
        hexec => by
      obtain ⟨V, v', hv', hdoes, -, hre⟩ := hv.does hs hop.writesThrough hexec
      have hchange := hdoes.change
      refine ⟨v', hv', hre, ?_⟩
      cases op with
      | mkdir path mode => exact hD.creates hs hop hdoes
      | touch name mode => exact hD.creates hs hop hdoes
      | rmdir | rename | link | symlink | fwrite => exact hop.elim
      | cd name =>
        obtain ⟨f, rfl⟩ := hchange.exists_inSession (.inr ⟨name, rfl⟩)
        exact ⟨D, hD.inSession f⟩
      | _ =>
        obtain ⟨f, rfl⟩ := hchange.exists_inSession (.inl trivial)
        exact ⟨D, hD.inSession f⟩
  exact ⟨v, hv, hD⟩

section Find
variable {v : Volume} {q : Nat} {L : List (Text × UInt32)} (h : Dir v q L) {m : Nat}
  {x : Text × UInt32} (hx : L[m]? = some x)
include h hx

theorem Dir.slot_unique {m' : Nat} {y : Text × UInt32} (hy : L[m']? = some y) (hname : y.1 = x.1) :
    m' = m := by
  have hm : m' < (L.map Prod.fst).length := by
    rw [List.length_map]
    exact (List.getElem?_eq_some_iff.mp hy).1
  refine (List.getElem?_inj hm h.distinct).mp ?_
  rw [List.getElem?_map, List.getElem?_map, hy, hx, Option.map_some, Option.map_some, hname]

theorem Dir.find_first (hm : m < 32) :
    v.findFile (v.inode q) x.1 = .ok x.2 ∧ v.findDentry (v.inode q) x.1 = .ok (UInt32.ofNat m) := by
  refine h.toLists.find hx hm fun k hk heq => ?_
  have hlt : k < L.length := Nat.lt_trans hk (List.getElem?_eq_some_iff.mp hx).1
  rw [List.getD_eq_getElem?_getD, List.getElem?_eq_getElem hlt, Option.getD_some] at heq
  have := h.slot_unique hx (List.getElem?_eq_getElem hlt) heq
  omega

theorem Dir.find_later (hm : 32 ≤ m) :
    v.findFile (v.inode q) x.1 = .ok notFound ∧ v.findDentry (v.inode q) x.1 = .ok notFound := by
  refine h.toLists.find_none (h.name x (List.mem_of_getElem? hx)) fun j hj y hy heq => ?_
  have := h.slot_unique hx hy heq
  omega

end Find

/-- An entry is found in its slot if and only if it is in the first block, and a name that no entry
has is never found. -/
theorem lookup_complete_iff {t : FileSys} (h : Reach Op.Builds t) {n : UInt32}
    (hn : t.IsDirectory n) :
    (∀ k j, t.Counts n k j →
      (t.findFile (t.syncFromDiskInode n) (t.entryAt n k j).dName = .ok (t.entryAt n k j).dInum ∧
        t.findDentry (t.syncFromDiskInode n) (t.entryAt n k j).dName = .ok
        (UInt32.ofNat (32 * k.val + j)) ↔ k = 0)) ∧
    ∀ name : Text, name.bytes ≠ [] → (∀ k j, t.Counts n k j → (t.entryAt n k j).dName ≠ name) →
      t.findFile (t.syncFromDiskInode n) name = .ok notFound ∧
        t.findDentry (t.syncFromDiskInode n) name = .ok notFound := by
  obtain ⟨v, hv, D, hD⟩ := h.tree
  obtain ⟨L, hL⟩ := hD.of_isDirectory hv hn
  have hdir := hD.dir _ L hL
  have hinode := (hn.shows hv).2
  refine ⟨fun k j hkj => ?_, fun name hname hnot => ?_⟩
  · obtain ⟨x, hx, hreads⟩ := hdir.entryAt hv hinode hkj
    obtain ⟨hj, hlt⟩ := (hdir.counts hinode).mp hkj
    rw [hreads.dName, hreads.dInum, hinode]
    constructor
    · rintro ⟨hfile, -⟩
      by_contra hk
      have hlater := hdir.find_later hx (by rw [Fin.ext_iff] at hk; simp at hk; omega)
      rw [eq_ok_of_refines (hv.findFile _ _) hlater.1] at hfile
      have hnum := (hdir.number x (List.mem_of_getElem? hx)).1
      rw [← Except.ok.inj hfile] at hnum
      exact absurd hnum (by decide)
    · rintro rfl
      have hfirst := hdir.find_first hx (by simpa using hj)
      exact ⟨eq_ok_of_refines (hv.findFile _ _) hfirst.1, eq_ok_of_refines (hv.findDentry _ _)
        hfirst.2⟩
  · have hnone := hdir.toLists.find_none hname fun j _ x hx heq => by
      obtain ⟨k, j, hkj, -, hreads⟩ := hdir.exists_entryAt hv hinode hx
      exact hnot k j hkj (hreads.dName.trans heq)
    rw [hinode]
    exact ⟨eq_ok_of_refines (hv.findFile _ _) hnone.1, eq_ok_of_refines (hv.findDentry _ _) hnone.2⟩

theorem isDirectory_mkfs {t s : FileSys} {e : Env} (ht : Shows t (Volume.mkfs e s)) :
    t.IsDirectory 0 := by
  refine ⟨by decide, ?_, ?_⟩
  · rw [← show _ = t.inodebmp.bit (UInt32.toNat 0) from ht.inodeBit 0 (by omega)]
    rfl
  · rw [ht.load Volume.mkfs_load]
    exact (by decide : sIsdir (sIfdir ||| 0o755) = true)

/-! Directories in a run of the volume. -/

namespace Volume
variable (v : Volume)

def isDirectory (n : UInt32) : Bool :=
  decide (n.toNat < 8192) && v.inodeBit n.toNat && (v.load n).sure fun i => sIsdir i.iFmode

def hasAt (n : UInt32) (k : Fin 12) (j : Nat) (name : Text) (m : UInt32) : Bool :=
  (v.load n).sure fun i => (v.read (i.iDirectTable k)).sure fun b =>
    decide ((dentryAt b j).dName = name ∧ (dentryAt b j).dInum = m)

def takes (n : UInt32) (name : Text) : Bool :=
  v.isDirectory n && decide (name.bytes ≠ []) && (v.load n).sure fun i =>
    decide (i.iFnum.toNat + 2 < 384) && (List.finRange 12).all fun k => (List.range 32).all fun j =>
      !decide (32 * k.val + j < i.iFnum.toNat + 2) ||
        (v.read (i.iDirectTable k)).sure fun b => decide ((dentryAt b j).dName ≠ name)

def builds : Op → Bool
  | .mkdir path mode => (v.target (.mkdir path mode)).sure fun x => v.takes x.1 x.2
  | .touch name mode => (v.target (.touch name mode)).sure fun x => v.takes x.1 x.2
  | .rmdir _ | .rename _ _ | .link _ _ | .symlink _ _ | .fwrite _ _ => false
  | _ => true

end Volume

namespace Shows
variable {s : FileSys} {v : Volume} (h : Shows s v) {n : UInt32}
include h

theorem of_isDirectory (hn : v.isDirectory n = true) : s.IsDirectory n := by
  obtain ⟨hboth, hmode⟩ := Bool.and_eq_true_iff.mp hn
  obtain ⟨hlt, hbit⟩ := Bool.and_eq_true_iff.mp hboth
  have hlt := of_decide_eq_true hlt
  exact ⟨hlt, (h.inodeBit _ hlt).symm.trans hbit, h.of_sure_load hmode⟩

theorem of_takes {name : Text} (htakes : v.takes n name = true) : s.Takes n name := by
  obtain ⟨hboth, hload⟩ := Bool.and_eq_true_iff.mp htakes
  obtain ⟨hdir, hname⟩ := Bool.and_eq_true_iff.mp hboth
  have hrest := h.of_sure_load hload
  obtain ⟨hroom, hall⟩ := Bool.and_eq_true_iff.mp hrest
  refine ⟨h.of_isDirectory hdir, of_decide_eq_true hroom, of_decide_eq_true hname, ?_⟩
  rintro k j ⟨hj, hcount⟩
  have hslots := List.all_eq_true.mp hall k (List.mem_finRange k)
  have hslot := List.all_eq_true.mp hslots j (List.mem_range.mpr hj)
  rw [decide_eq_true hcount] at hslot
  exact of_decide_eq_true (h.of_sure_read hslot :)

theorem of_builds {op : Op} (hbuilds : v.builds op = true) : op.Builds s := by
  cases op with
  | mkdir path mode =>
    exact fun n name htarget => h.of_takes (of_sure (h.target _) hbuilds htarget :)
  | touch name mode =>
    exact fun n name htarget => h.of_takes (of_sure (h.target _) hbuilds htarget :)
  | rmdir | rename | link | symlink | fwrite => cases hbuilds
  | _ => trivial

theorem of_hasAt {k : Fin 12} {j : Nat} {name : Text} {m : UInt32}
    (hat : v.hasAt n k j name m = true) :
    (s.entryAt n k j).dName = name ∧ (s.entryAt n k j).dInum = m :=
  of_decide_eq_true (h.of_sure_read (h.of_sure_load hat :) :)

end Shows

/-! A directory of 31 files: the last one is in the second block. -/

theorem Text.zero_notMem_letter (k : Fin 31) : (0 : UInt8) ∉ [UInt8.ofNat (97 + k)] := by
  revert k
  decide

def Text.letter (k : Fin 31) : Text := ⟨[UInt8.ofNat (97 + k)], Text.zero_notMem_letter k⟩

def touches : List Op := (List.finRange 31).map fun k => .touch (.letter k) 0

structure FileSys.TwoBlocks (t : FileSys) : Prop where
  reach : Reach Op.Builds t
  isDirectory : t.IsDirectory 0
  first : t.Counts 0 0 31
  second : t.Counts 0 1 0
  dName : (t.entryAt 0 1 0).dName = .letter 30
  dInum : (t.entryAt 0 1 0).dInum = 31
  findFile : t.findFile (t.syncFromDiskInode 0) (.letter 30) = .ok notFound
  findDentry : t.findDentry (t.syncFromDiskInode 0) (.letter 30) = .ok notFound

theorem exists_twoBlocks : ∃ s t, FileSys.blank.doMkfs .blank = .ok s ∧
    runOps touches s = .ok t ∧ t.TwoBlocks := by
  obtain ⟨s, t, v, hs, ht, hreach, hv, hp⟩ := exists_run_checked (C := Op.Builds)
    (c := fun op v => v.builds op) (fun _ _ _ h => h.of_builds) touches
    (p := fun v => v.isDirectory 0 && (v.inode 0).iFnum == 31 &&
      v.hasAt 0 1 0 (.letter 30) 31 &&
      (v.findFile (v.inode 0) (.letter 30)).toOption == some notFound &&
      (v.findDentry (v.inode 0) (.letter 30)).toOption == some notFound) (by decide +kernel)
  simp only [Bool.and_eq_true, beq_iff_eq] at hp
  obtain ⟨⟨⟨⟨hdir, hfnum⟩, hentry⟩, hfile⟩, hdentry⟩ := hp
  have hinode : t.syncFromDiskInode 0 = v.inode 0 := hv.load (Volume.load_of_lt (by decide))
  obtain ⟨hname, hnum⟩ := hv.of_hasAt hentry
  refine ⟨s, t, hs, ht, hreach, hv.of_isDirectory hdir, ⟨by omega, ?_⟩, ⟨by omega, ?_⟩, hname, hnum,
    ?_, ?_⟩
  · rw [hinode, hfnum]
    decide
  · rw [hinode, hfnum]
    decide
  · rw [hinode]
    exact eq_ok_of_refines (hv.findFile _ _) (eq_ok_of_toOption hfile)
  · rw [hinode]
    exact eq_ok_of_refines (hv.findDentry _ _) (eq_ok_of_toOption hdentry)

theorem lookup_complete_iff_two_blocks : ∃ s t, FileSys.blank.doMkfs .blank = .ok s ∧
    runOps touches s = .ok t ∧ t.IsDirectory 0 ∧
    t.findFile (t.syncFromDiskInode 0) (t.entryAt 0 0 31).dName = .ok (t.entryAt 0 0 31).dInum ∧
    t.findDentry (t.syncFromDiskInode 0) (t.entryAt 0 0 31).dName = .ok 31 ∧
    ¬ (t.findFile (t.syncFromDiskInode 0) (t.entryAt 0 1 0).dName = .ok (t.entryAt 0 1 0).dInum ∧
      t.findDentry (t.syncFromDiskInode 0) (t.entryAt 0 1 0).dName = .ok 32) := by
  obtain ⟨s, t, hs, ht, h⟩ := exists_twoBlocks
  obtain ⟨hfound, -⟩ := lookup_complete_iff h.reach h.isDirectory
  obtain ⟨hfile, hdentry⟩ := (hfound 0 31 h.first).mpr rfl
  exact ⟨s, t, hs, ht, h.isDirectory, hfile, hdentry,
    fun hboth => absurd ((hfound 1 0 h.second).mp hboth) (by decide)⟩

theorem lookup_misses_second_block :
    ∃ s t, FileSys.blank.doMkfs .blank = .ok s ∧ runOps touches s = .ok t ∧
    t.IsDirectory 0 ∧ t.Counts 0 1 0 ∧ (t.entryAt 0 1 0).dName = .letter 30 ∧
    (t.entryAt 0 1 0).dInum = 31 ∧
    t.findFile (t.syncFromDiskInode 0) (.letter 30) = .ok notFound ∧
    t.findDentry (t.syncFromDiskInode 0) (.letter 30) = .ok notFound := by
  obtain ⟨s, t, hs, ht, h⟩ := exists_twoBlocks
  exact ⟨s, t, hs, ht, h.isDirectory, h.second, h.dName, h.dInum, h.findFile, h.findDentry⟩

end Ucas.Fs

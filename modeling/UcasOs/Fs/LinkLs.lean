import UcasOs.Fs.Packed

/-! `do_ls` behind a symbolic link. `do_symlink` keeps the path of its target in the link's block,
behind two entries; `do_ls` reads it there, resolves it from the root and lists what it finds. That
is the target, if the link itself can be found: its entry must lie in the first block of its
directory. -/

namespace Ucas.Fs
open Ucas.Lib

namespace Text

def absolute (names : List Text) : Text := names.foldl child .empty

theorem append_foldl_child (t u : Text) (names : List Text) :
    t.append (names.foldl child u) = names.foldl child (t.append u) := by
  induction names generalizing u with
  | nil => rfl
  | cons c names ih =>
    rw [List.foldl_cons, List.foldl_cons, ih]
    exact congrArg (names.foldl child) (ext_bytes (by simp [append, child_bytes]))

theorem dot_append_absolute (names : List Text) :
    dot.append (absolute names) = names.foldl child .dot :=
  append_foldl_child dot .empty names

theorem components_foldl_child {names : List Text} (hplain : ∀ c ∈ names, slash ∉ c.bytes)
    (t : Text) :
    (names.foldl child t).components = t.components ++ names := by
  induction names generalizing t with
  | nil => rw [List.foldl_nil, List.append_nil]
  | cons c names ih =>
    rw [List.foldl_cons, ih (fun x hx => hplain x (List.mem_cons_of_mem _ hx)), components_child,
      components_of_plain (hplain c List.mem_cons_self), List.append_assoc, List.singleton_append]

theorem foldl_child_ne_nil (names : List Text) {t : Text} (ht : t.bytes ≠ []) :
    (names.foldl child t).bytes ≠ [] := by
  induction names generalizing t with
  | nil => exact ht
  | cons c names ih => exact ih (by simp [child_bytes])

end Text

theorem textAt_of_hasText {b : Block} {l : List UInt8} (hl : 0 ∉ l) {n o : Nat} (hn : o + n = 4096)
    (hlen : l.length < n)
    (h : b.HasText l o) : FileSys.textAt b n o = .ok ⟨l, hl⟩ := by
  induction l generalizing n o with
  | nil =>
    obtain ⟨n, rfl⟩ : ∃ k, n = k + 1 := ⟨n - 1, by simp at hlen; omega⟩
    rw [Buffer.hasText_nil (by omega)] at h
    rw [FileSys.textAt, dif_pos h]
  | cons c l ih =>
    rw [List.length_cons] at hlen
    obtain ⟨n, rfl⟩ : ∃ k, n = k + 1 := ⟨n - 1, by omega⟩
    rw [Buffer.hasText_cons (by omega)] at h
    obtain ⟨hc, hrest⟩ := h
    have hne : b.get o ≠ 0 :=
      fun hzero => hl (by rw [← hc, hzero] at hl ⊢; exact List.mem_cons_self)
    rw [FileSys.textAt, dif_neg hne, ih (fun h0 => hl (List.mem_cons_of_mem _ h0)) (by omega)
      (by omega) hrest, ok_bind]
    simp only [hc, pure_eq_ok]

theorem textAt_symlinkBlock (b : Block) {t : Text} (ht : t.length < 3840) :
    FileSys.textAt (FileSys.symlinkBlock b t) (4096 - 256) 256 = .ok t := by
  refine textAt_of_hasText t.zero_notMem rfl ht fun k hk hlt => ?_
  have hlen : t.bytes.length = t.length := rfl
  rw [FileSys.symlinkBlock, Buffer.get_set]
  by_cases hlast : k = t.length
  · rw [if_pos (by omega), List.getD_eq_default _ _ (by omega)]
  · rw [if_neg (by omega), Buffer.get_putBytes _ _ _ hlt, if_pos (by omega),
      Nat.add_sub_cancel_left]

theorem Volume.symlink_eq {v : Volume} {e : Env} {srcPath newPath parent name : Text} {n : UInt32}
    {i : Inode}
    (hsep : separatePath (Text.dot.append srcPath) 64 = .ok (parent, name))
    (hn : v.parsePath newPath v.currentDir = .ok n)
    (hload : v.load n = .ok i) : v.symlink e srcPath newPath =
      v.makeWithBlock e sIflnk (fun q => FileSys.symlinkBlock (directoryBlock q n) srcPath) >>=
      fun r =>
        r.2.appendDentry e i r.1 name := by
  rw [Volume.symlink, hsep, exactly_ok, ok_bind]
  dsimp only
  rw [hn, ok_bind, hload, ok_bind]

/-- The volume `v'` has a link `q` more than `v`, with block `b`, entered as `d` in directory `n`.
-/
structure Linked (v v' : Volume) (n : UInt32) (q b : Nat) (d : Dentry) (srcPath : Text) : Prop where
  session : v'.toSession = v.toSession
  lt : q < 8192
  fresh : q ∉ taken v
  mode : (v'.inode q).iFmode = sIflnk
  table : (v'.inode q).iDirectTable 0 = UInt32.ofNat b
  data : b ∈ dataBlocks
  text : v'.block b = FileSys.symlinkBlock (directoryBlock (UInt32.ofNat q) n) srcPath
  other : ∀ p ∈ taken v, p ≠ n.toNat → v'.inode p = v.inode p
  block : ∀ p ∈ taken v, p ≠ n.toNat → (v.inode p).iDirectTable 0 ≠ 0 →
    v'.block ((v.inode p).iDirectTable 0).toNat = v.block ((v.inode p).iDirectTable 0).toNat
  dirTable : (v'.inode n.toNat).iDirectTable 0 = (v.inode n.toNat).iDirectTable 0
  dirMode : (v'.inode n.toNat).iFmode = (v.inode n.toNat).iFmode
  dirFnum : (v'.inode n.toNat).iFnum.toNat = (v.inode n.toNat).iFnum.toNat + 1
  dirBlock : v'.block ((v.inode n.toNat).iDirectTable 0).toNat =
    if (v.inode n.toNat).iFnum.toNat + 2 < 32 then
      putDentry (v.block ((v.inode n.toNat).iDirectTable 0).toNat)
        ((v.inode n.toNat).iFnum.toNat + 2) d
    else v.block ((v.inode n.toNat).iDirectTable 0).toNat
  first : FirstBlock v' (v'.inode n.toNat)
  root : RootCopy v'

theorem Packed.linked {v : Volume} (h : Packed v) {n : UInt32} (hn : n.toNat ∈ taken v)
    (hdir : sIsdir (v.inode n.toNat).iFmode = true)
    {e : Env} {srcPath name : Text} (hname : name.length < 64) {q b : Nat}
    (hq : firstClear v.inodeBit 8192 = some q)
    (hb : firstClear v.blockBit 262144 = some b) {v₁ v' : Volume} {i' : Inode}
    (hv₁ : v₁ = (v.created q (newInode e sIflnk 4096 (UInt32.ofNat b) (UInt32.ofNat q))).allotted b
      (FileSys.symlinkBlock (directoryBlock (UInt32.ofNat q) n) srcPath))
    (hwrote : Volume.Wrote v₁ (v.inode n.toNat) ((v.inode n.toNat).iFnum + 2)
    (e.stack.fill (UInt32.ofNat q) name) (i', v')) :
    Linked v v' n q b (e.stack.fill (UInt32.ofNat q) name) srcPath := by
  have hmade : Volume.Made e v sIflnk (some fun q => FileSys.symlinkBlock (directoryBlock q n)
      srcPath) q v₁ :=
    hv₁ ▸ .withBlock hq hb
  have hload : v.load n = .ok (v.inode n.toNat) := Volume.load_of_lt hn.1
  have hkey : inodeKey n = n.toNat := inodeKey_of_lt (by have := hn.1; omega)
  have hknown : Known (taken v) n := .inr (hkey.symm ▸ hn)
  have hnum : (v.inode n.toNat).iNum.toNat = n.toNat := h.well.num _ hn
  obtain ⟨hholds, hfirst, hroot⟩ := h.loaded_made hknown hload hmade
  obtain ⟨hslot, hbound⟩ := h.next_slot hknown hload
  have hlow : ∀ k, k < 266 → v₁.blockBit k = true := fun k hk => hmade.low (h.well.low k hk)
  have hwithin := (h.well.of_load hknown hload).2
  have hself : v'.inode n.toNat = i' := by
    rw [← hnum]
    exact (hwrote.stores hbound).1
  have hdata := Volume.firstClear_mem_dataBlocks h.well.low hb
  have hfresh := hmade.notMem_taken
  have hqn : q ≠ n.toNat := fun heq => hfresh (heq ▸ hn)
  have hlink : v₁.inode q = newInode e sIflnk 4096 (UInt32.ofNat b) (UInt32.ofNat q) := by
    rw [hv₁]
    simp [Volume.created, Volume.allotted]
  have hlink' : v'.inode q = newInode e sIflnk 4096 (UInt32.ofNat b) (UInt32.ofNat q) :=
    (hwrote.inode_of_ne (hnum.symm ▸ hqn)).trans hlink
  obtain ⟨htable, hblock⟩ := hwrote.first_block hholds hwithin ((h.first _ hn).present hdir) hbound
  have hbit := (h.owned _ hn).bit 0 ((h.first _ hn).present hdir)
  have hsession : v₁.toSession = v.toSession := by rw [hv₁]; rfl
  have htaken₁ : ∀ p ∈ taken v, p ∈ taken v₁ := fun p hp => hmade.taken_eq ▸ .inr hp
  have hsame₁ : ∀ p ∈ taken v, v₁.inode p = v.inode p := fun p hp => hmade.inode_of_ne fun heq =>
    hfresh (heq ▸ hp)
  have hbnat : (UInt32.ofNat b).toNat = b := toNat_of_mem_dataBlocks hdata
  constructor
  case session => exact hwrote.toSession.trans hsession
  case lt => exact hmade.inodeBit.1
  case fresh => exact hfresh
  case mode =>
    rw [hlink']
    rfl
  case table =>
    rw [hlink']
    rfl
  case data => exact hdata
  case text =>
    -- the block is the first one of the new inode, and the entry goes to another inode's
    have hkept := h.block_kept hknown hload hmade hwrote (p := q) (k := 0) (hmade.taken_eq ▸ .inl
      rfl) (hnum.symm ▸ hqn)
    have hfirstBlock : (v₁.inode q).iDirectTable 0 = UInt32.ofNat b := by
      rw [hlink]
      rfl
    rw [hfirstBlock, hbnat] at hkept
    rw [hkept, hv₁]
    · simp [Volume.allotted]
    · exact ne_zero_of_mem_dataBlocks (hbnat.symm ▸ hdata)
  case other =>
    intro p hp hpn
    rw [hwrote.inode_of_ne (hnum.symm ▸ hpn), hsame₁ p hp]
  case block =>
    intro p hp hpn hne
    have hkept := h.block_kept hknown hload hmade hwrote (p := p) (k := 0) (htaken₁ p hp)
      (hnum.symm ▸ hpn)
    rw [hsame₁ p hp] at hkept
    rw [hkept hne, hmade.block_of_bit ((h.owned p hp).bit 0 hne)]
  case dirTable =>
    rw [hself]
    exact htable
  case dirMode =>
    rw [hself]
    exact hwrote.iFmode
  case dirFnum =>
    have hcount := (h.count _ hn).trans (ncard_taken_le v)
    rw [hself, (hwrote.stores hbound).2]
    simp only [UInt32.toNat_add, UInt32.reduceToNat]
    omega
  case dirBlock => rw [hblock, hslot, hmade.block_of_bit hbit]
  case first =>
    rw [hself]
    refine hfirst.wroteDentry hlow hholds hwithin ((h.count _ hn).trans (ncard_taken_le v)) ?_ ?_
      hwrote
    · rw [dInum_fill]
      exact h.new_ne_zero hmade
    · rw [dName_fill (by omega)]
      exact hname
  case root =>
    exact (h.root.made hmade).wroteDentry hlow hholds hwithin hroot hbound (terminated_fill
      (by omega)) hwrote

theorem sIslnk_of_sIsdir {mode : UInt16} (h : sIsdir mode = true) : sIslnk mode = false := by
  rw [sIsdir, beq_iff_eq] at h
  rw [sIslnk, h]
  decide

theorem dName_of_not_live {b : Block} {j : Nat} (h : live b j = false) :
    (dentryAt b j).dName = .empty := by
  by_contra hne
  have hlive := live_of_dName fun hnil => hne (Text.ext_bytes hnil)
  rw [h] at hlive
  cases hlive

theorem RootCopy.find_dot {v : Volume} (h : RootCopy v) : v.findFile v.rootInode .dot = .ok 0 := by
  have hnat : (v.rootInode.iDirectTable 0).toNat = 266 := by
    rw [h.table]
    rfl
  have hslot : slotOf (v.block 266) .dot = some 0 :=
    slotOf_eq_some.mpr ⟨by omega, by rw [h.dot]; exact dName_fill (by decide), fun j hj => absurd hj
      (by omega)⟩
  rw [Volume.findFile_eq (by rw [hnat]; exact ⟨le_rfl, by omega⟩) (by rw [hnat]; exact h.named),
    hnat, hslot, Option.elim_some, h.dot,
    dInum_fill]

namespace Linked
variable {v v' : Volume} (h : Packed v) {n : UInt32} (hn : n.toNat ∈ taken v) (hdir : sIsdir
  (v.inode n.toNat).iFmode = true)
  {q b : Nat} {d : Dentry} {srcPath : Text} (hlink : Linked v v' n q b d srcPath)
  (hnew : ∀ j < 32, (dentryAt (v.block ((v.inode n.toNat).iDirectTable 0).toNat) j).dName ≠ d.dName)
include h hn hdir hlink

theorem dir_named (hd : d.Terminated) :
    ((v.inode n.toNat).iDirectTable 0).toNat ∈ dataBlocks ∧
    Named (v.block ((v.inode n.toNat).iDirectTable 0).toNat) ∧
      Named (v'.block ((v.inode n.toNat).iDirectTable 0).toNat) := by
  obtain ⟨W, -, hw, -, hlegible⟩ := h.readable
  have hne := (h.first _ hn).present hdir
  have hnamed := hlegible.inode _ hn 0 hne
  refine ⟨(hw.within _ hn 0).resolve_left hne, hnamed, ?_⟩
  rw [hlink.dirBlock]
  split_ifs
  · exact hnamed.put hd
  · exact hnamed

include hnew

theorem find_link (hd : d.Terminated) : v'.findFile (v'.inode n.toNat) d.dName =
    .ok (if (v.inode n.toNat).iFnum.toNat + 2 < 32 then d.dInum else notFound) := by
  obtain ⟨hdata, -, hnamed⟩ := hlink.dir_named h hn hdir hd
  rw [Volume.findFile_eq (by rw [hlink.dirTable]; exact hdata)
    (by rw [hlink.dirTable]; exact hnamed), hlink.dirTable, hlink.dirBlock]
  split_ifs with hroom
  · rw [slotOf_put_self hroom fun j hj => hnew j (by omega), Option.elim_some, dentryAt_putDentry _
      _ hroom, if_pos rfl]
  · rw [slotOf_eq_none.mpr hnew]
    rfl

theorem find_kept (hd : d.Terminated) {p : Nat} (hp : p ∈ taken v) {c : Text} (hc : c.bytes ≠ [])
    {x : UInt32}
    (hx : v.findFile (v.inode p) c = .ok x) (hfound : x ≠ notFound) :
    v'.findFile (v'.inode p) c = .ok x := by
  obtain ⟨W, -, hw, -, hlegible⟩ := h.readable
  have hne : (v.inode p).iDirectTable 0 ≠ 0 := fun hzero => by
    rw [Volume.findFile, Volume.lookup_of_zero hzero hc] at hx
    exact hfound (Except.ok.inj hx).symm
  have hdata := (hw.within p hp 0).resolve_left hne
  have hnamed := hlegible.inode p hp 0 hne
  by_cases hpn : p = n.toNat
  · subst hpn
    obtain ⟨-, -, hnamed'⟩ := hlink.dir_named h hn hdir hd
    rw [Volume.findFile_eq hdata hnamed] at hx
    rw [Volume.findFile_eq (by rw [hlink.dirTable]; exact hdata)
      (by rw [hlink.dirTable]; exact hnamed'), hlink.dirTable,
      hlink.dirBlock, ← hx]
    split_ifs with hroom
    · have hold : (dentryAt (v.block ((v.inode n.toNat).iDirectTable 0).toNat)
          ((v.inode n.toNat).iFnum.toNat + 2)).dName ≠ c := by
        rw [dName_of_not_live
          (by rw [(h.first _ hn).packed hdir _ hroom]; exact decide_eq_false (by omega))]
        exact fun heq => hc (congrArg Text.bytes heq.symm)
      have hother : d.dName ≠ c := fun heq => by
        rw [← heq, slotOf_eq_none.mpr hnew] at hx
        exact hfound (Except.ok.inj hx).symm
      rw [slotOf_put_of_ne hother hold]
      cases hslot : slotOf (v.block ((v.inode n.toNat).iDirectTable 0).toNat) c with
      | none => rw [Option.elim_none, Option.elim_none]
      | some j =>
        obtain ⟨hj, hjc, -⟩ := slotOf_eq_some.mp hslot
        have hne' : j ≠ (v.inode n.toNat).iFnum.toNat + 2 := fun heq => hold (heq ▸ hjc)
        rw [Option.elim_some, Option.elim_some, dentryAt_putDentry _ _ hj, if_neg hne']
    · rfl
  · rw [hlink.other p hp hpn, Volume.findFile_eq hdata
      (by rw [hlink.block p hp hpn hne]; exact hnamed),
      hlink.block p hp hpn hne, ← Volume.findFile_eq hdata hnamed]
    exact hx

theorem walk_kept {s t : FileSys} (hs : Shows s v) {f : Session → Session}
    (ht : Shows t (v'.inSession f)) (hd : d.Terminated) {names : List Text}
    (hnames : ∀ c ∈ names, c.bytes ≠ []) {p : Nat} (hp : p ∈ taken v) {m₀ m : UInt32}
    (hm : s.lookUp names m₀ (v.inode p) = .ok m) (hfound : m ≠ notFound) :
    ∃ j, names.foldlM t.walk (m₀, v'.inode p) = .ok (m, j) := by
  obtain ⟨W, -, hw, hsound, -⟩ := h.readable
  induction names generalizing p m₀ with
  | nil =>
    obtain rfl := Except.ok.inj hm
    exact ⟨_, rfl⟩
  | cons c rest ih =>
    rw [FileSys.lookUp_cons] at hm
    obtain ⟨x, hx, hm⟩ := exists_of_bind_ok hm
    split_ifs at hm with hmiss
    · exact absurd (Except.ok.inj hm).symm hfound
    · obtain ⟨_, hx', rfl, -⟩ :=
        (Volume.findFile_ensures ((hsound.within p hp).mono hsound.blocks) c).exists_of_refines
          (hs.findFile _ c) hx
      have hknown := (hsound.known_of_findFile (hsound.within p hp) hx').resolve_left hmiss
      have hload : s.syncFromDiskInode x = v.inode (inodeKey x) :=
        hs.load (by rw [Volume.load, if_pos hknown.1])
      have hload' : t.syncFromDiskInode x = v'.inode (inodeKey x) :=
        ht.load (v := v'.inSession f)
          (by rw [Volume.load, if_pos hknown.1]; rfl)
      have hkept := hlink.find_kept h hn hdir hnew hd hp (hnames c List.mem_cons_self) hx' hmiss
      rw [hload] at hm
      obtain ⟨j, hj⟩ := ih (fun c' hc' => hnames c' (List.mem_cons_of_mem _ hc')) hknown hm
      refine ⟨j, ?_⟩
      rw [List.foldlM_cons, FileSys.walk, eq_ok_of_refines (ht.findFile _ c) hkept, ok_bind,
        pure_bind, hload']
      exact hj

end Linked

namespace FileSys

def enter (s : FileSys) (n : UInt32) : FileSys :=
  s.inSession fun x => { x with currentDir := s.syncFromDiskInode n }

/-- After `do_symlink` of `srcPath` in directory `n`, entering the link from there and then `do_ls`
fills `ls_buffer` as entering directory `m` and `do_ls` does. -/
def ListsTarget (s : FileSys) (e e₁ e₂ : Env) (srcPath newPath name : Text) (m n : UInt32) : Prop :=
  ∃ t a b c, s.doSymlink e srcPath newPath = .ok t ∧ (t.enter n).doCd name = .ok a ∧
    a.doLs e₁ = .ok b ∧
    (t.enter m).doLs e₂ = .ok c ∧ b.lsBuffer = c.lsBuffer

/-- The link's entry has room in the first block of its directory, and there is an inode and a block
for the link. -/
structure CanLink (s : FileSys) (n : UInt32) : Prop where
  room : (s.syncFromDiskInode n).iFnum.toNat + 2 < 32
  inode : ∃ q < 8192, s.inodebmp.bit q = false
  block : ∃ b < 262144, s.blockbmp.bit b = false

end FileSys

section Symlink
variable {s : FileSys} {v : Volume} (hs : Shows s v) (h : Packed v) {n : UInt32} (hn : s.IsDirectory
  n) {e : Env}
  {srcPath newPath parent name : Text} (hsep : separatePath (Text.dot.append srcPath) 64 = .ok
    (parent, name))
  (hpath : s.parsePath newPath s.currentDir = .ok n)
include hs h

theorem volume_parsePath (hpath : s.parsePath newPath s.currentDir = .ok n) :
    v.parsePath newPath v.currentDir = .ok n := by
  obtain ⟨W, -, hw, hsound, -⟩ := h.readable
  have hmet : s.AllMet (Known (taken v)) newPath.components v.currentDir :=
    hsound.allMet hs hw hsound.dir
  rw [hs.currentDir_eq] at hpath
  obtain ⟨_, hm, rfl, -⟩ := (hs.parsePath_ensures hw newPath hw.dir hmet).exists_of_refines
    (hs.parsePath _ newPath) hpath
  exact hm

include hn

theorem symlink_parent :
    (v.inode n.toNat).iNum.toNat < 8192 ∧ Within dataBlocks (v.inode n.toNat) ∧
      (v.inode n.toNat).HasRoom := by
  obtain ⟨W, -, hw, hsound, -⟩ := h.readable
  have hmem := (hn.shows hs).1
  exact ⟨(hw.num _ hmem).symm ▸ hmem.1, hw.within _ hmem, .inr (hsound.straight _ hmem)⟩

include hsep hpath

theorem symlink_volume : v.symlink e srcPath newPath =
    v.makeWithBlock e sIflnk (fun q => FileSys.symlinkBlock (directoryBlock q n) srcPath) >>=
    fun r =>
      r.2.appendDentry e (v.inode n.toNat) r.1 name :=
  Volume.symlink_eq hsep (volume_parsePath hs h hpath) (Volume.load_of_lt hn.lt)

theorem exists_linked {t : FileSys} (ht : s.doSymlink e srcPath newPath = .ok t) :
    ∃ v' q b, Shows t v' ∧ firstClear v.inodeBit 8192 = some q ∧ firstClear v.blockBit 262144 = some
    b ∧
      Linked v v' n q b (e.stack.fill (UInt32.ofNat q) name) srcPath := by
  obtain ⟨hmem, hinode⟩ := hn.shows hs
  obtain ⟨hnum, hwithin, hroom⟩ := symlink_parent hs h hn
  have hlow := h.well.low
  have hensures : Ensures anyFault (fun v' => ∃ q b, firstClear v.inodeBit 8192 = some q ∧
    firstClear v.blockBit 262144 = some b ∧
      Linked v v' n q b (e.stack.fill (UInt32.ofNat q) name) srcPath) (v.symlink e srcPath
          newPath) := by
    rw [symlink_volume hs h hn hsep hpath]
    refine (Volume.makeWithBlock_ensures e _ hlow _).bind fun r _ hr => ?_
    obtain ⟨q, b, hq, hb, rfl⟩ := hr
    have hmade : Volume.Made e v sIflnk (some fun q => FileSys.symlinkBlock (directoryBlock q n)
      srcPath) q _ := .withBlock hq hb
    refine (Volume.append_ensures e _ name (fun k hk => hmade.low (hlow k hk)) hnum hwithin
      hroom).weaken ?_
    rintro v' ⟨i', hwrote⟩
    exact ⟨q, b, hq, hb, h.linked hmem (hinode ▸ hn.mode) (length_of_separatePath hsep) hq hb rfl
      hwrote⟩
  obtain ⟨v', -, hshows, q, b, hq, hb, hlink⟩ :=
    hensures.exists_of_refines (hs.doSymlink e srcPath newPath) ht
  exact ⟨v', q, b, hshows, hq, hb, hlink⟩

theorem exists_symlink (hcan : s.CanLink n) : ∃ t, s.doSymlink e srcPath newPath = .ok t := by
  obtain ⟨hmem, hinode⟩ := hn.shows hs
  obtain ⟨hnum, hwithin, hroom⟩ := symlink_parent hs h hn
  have hlow := h.well.low
  obtain ⟨q₀, hq₀, hfree⟩ := hcan.inode
  obtain ⟨b₀, hb₀, hclear⟩ := hcan.block
  obtain ⟨q, hq⟩ := exists_firstClear_of_clear hq₀ ((hs.inodeBit q₀ hq₀).trans hfree)
  obtain ⟨b, hb⟩ := exists_firstClear_of_clear hb₀ ((hs.blockBit b₀ hb₀).trans hclear)
  have hmade : Volume.Made e v sIflnk (some fun q => FileSys.symlinkBlock (directoryBlock q n)
    srcPath) q _ := .withBlock hq hb
  have hslot : ((v.inode n.toNat).iFnum + 2).toNat < 32 := by
    have hlt := hcan.room
    rw [hinode] at hlt
    simp only [UInt32.toNat_add, UInt32.reduceToNat]
    omega
  obtain ⟨r, hr, -⟩ := Volume.exists_wrote (e.stack.fill (UInt32.ofNat q) name) (fun k hk =>
    hmade.low (hlow k hk)) hnum hwithin
    hroom fun (h12 : (((v.inode n.toNat).iFnum + 2) / 32).toNat < 12) hzero => by
      have hfirst : (⟨_, h12⟩ : Fin 12) = 0 := Fin.ext (by
        simp only [(Volume.Wrote.slot_eq _).1, Fin.val_zero]
        omega)
      exact absurd (hfirst ▸ hzero) ((h.first _ hmem).present (hinode ▸ hn.mode))
  have hrun : v.symlink e srcPath newPath = .ok r.2 := by
    rw [symlink_volume hs h hn hsep hpath, Volume.makeWithBlock_eq e _ hlow _ hq hb, ok_bind,
      Volume.appendDentry, hr]
    rfl
  obtain ⟨t, ht, -⟩ := (hs.doSymlink e srcPath newPath).exists_ok hrun
  exact ⟨t, ht⟩

end Symlink

theorem exists_found {s : FileSys} {v : Volume} (hs : Shows s v) (h : Packed v) {dirs : List Text}
    {last : Text} {p : Nat}
    (hp : p ∈ taken v) {m₀ m : UInt32} (hm : s.lookUp (dirs ++ [last]) m₀ (v.inode p) = .ok m)
    (hfound : m ≠ notFound) :
    ∃ p' ∈ taken v, v.findFile (v.inode p') last = .ok m := by
  obtain ⟨W, -, hw, hsound, -⟩ := h.readable
  induction dirs generalizing p m₀ with
  | nil =>
    rw [List.nil_append, FileSys.lookUp_cons] at hm
    obtain ⟨x, hx, hm⟩ := exists_of_bind_ok hm
    obtain ⟨_, hx', rfl, -⟩ :=
      (Volume.findFile_ensures ((hsound.within p hp).mono hsound.blocks) last).exists_of_refines
        (hs.findFile _ last) hx
    split_ifs at hm with hmiss
    · exact absurd (Except.ok.inj hm).symm hfound
    · obtain rfl := Except.ok.inj hm
      exact ⟨p, hp, hx'⟩
  | cons c dirs ih =>
    rw [List.cons_append, FileSys.lookUp_cons] at hm
    obtain ⟨x, hx, hm⟩ := exists_of_bind_ok hm
    split_ifs at hm with hmiss
    · exact absurd (Except.ok.inj hm).symm hfound
    · have hknown := (hsound.findFile hs (hsound.within p hp) hx).resolve_left hmiss
      rw [hs.load (by rw [Volume.load, if_pos hknown.1])] at hm
      exact ih hknown hm

theorem length_of_found {v : Volume} (h : Packed v) {p : Nat} (hp : p ∈ taken v) {last : Text}
    (hlast : last.bytes ≠ [])
    {m : UInt32} (hm : v.findFile (v.inode p) last = .ok m) (hfound : m ≠ notFound) :
    last.length < 64 := by
  obtain ⟨W, -, hw, -, hlegible⟩ := h.readable
  have hne : (v.inode p).iDirectTable 0 ≠ 0 := fun hzero => by
    rw [Volume.findFile, Volume.lookup_of_zero hzero hlast] at hm
    exact hfound (Except.ok.inj hm).symm
  rw [Volume.findFile_eq ((hw.within p hp 0).resolve_left hne) (hlegible.inode p hp 0 hne)] at hm
  cases hslot : slotOf (v.block ((v.inode p).iDirectTable 0).toNat) last with
  | none =>
    rw [hslot] at hm
    exact absurd (Except.ok.inj hm).symm hfound
  | some j =>
    obtain ⟨hj, hname, -⟩ := slotOf_eq_some.mp hslot
    exact hname ▸ (h.first p hp).short hne j hj

namespace Linked
variable {s t : FileSys} {v v' : Volume} (hs : Shows s v) (ht : Shows t v') (h : Packed v)
  {n : UInt32} (hn : s.IsDirectory n)
  {q b : Nat} {e : Env} {name srcPath : Text} (hlink : Linked v v' n q b
    (e.stack.fill (UInt32.ofNat q) name) srcPath)
include hs ht h hn hlink

theorem doCd_enter (hplain : Text.slash ∉ name.bytes) (hshort : name.length < 64)
    (hnew : ∀ j < 32, (s.entryAt n 0 j).dName ≠ name) : (t.enter n).doCd name =
      .ok (t.enter (if (s.syncFromDiskInode n).iFnum.toNat + 2 < 32 then UInt32.ofNat q else n)) :=
      by
  obtain ⟨hmem, hinode⟩ := hn.shows hs
  have hdir : sIsdir (v.inode n.toNat).iFmode = true := hinode ▸ hn.mode
  have hload : t.syncFromDiskInode n = v'.inode n.toNat :=
    ht.load (Volume.load_of_lt hn.lt)
  have hdata := (hlink.dir_named h hmem hdir (terminated_fill (by omega))).1
  have hread : s.readBlock ((v.inode n.toNat).iDirectTable 0) = v.block
      ((v.inode n.toNat).iDirectTable 0).toNat :=
    hs.read (Volume.read_data hdata)
  have hfind : (t.enter n).findFile (v'.inode n.toNat) name =
      .ok (if (v.inode n.toNat).iFnum.toNat + 2 < 32 then UInt32.ofNat q else notFound) := by
    refine eq_ok_of_refines ((ht.inSession _).findFile _ name) ?_
    have hlookup := hlink.find_link h hmem hdir (fun j hj => ?_) (terminated_fill (by omega))
    · rwa [dName_fill (by omega), dInum_fill] at hlookup
    · rw [dName_fill (by omega)]
      have hentry := hnew j hj
      rwa [FileSys.entryAt, hinode, hread] at hentry
  rw [hinode, FileSys.doCd, (pathSteps_of_plain hplain).mpr ⟨(Text.fits_of_plain hplain).mpr
    (by omega), rfl⟩, ok_bind]
  dsimp only
  rw [FileSys.descend, show (t.enter n).currentDir = v'.inode n.toNat from hload, hfind, ok_bind]
  by_cases hroom : (v.inode n.toNat).iFnum.toNat + 2 < 32
  · have hq : UInt32.ofNat q ≠ notFound := fun heq => by
      have hnat := congrArg UInt32.toNat heq
      rw [toNat_ofNat_of_lt (by have := hlink.lt; omega)] at hnat
      exact absurd hlink.lt (by rw [hnat]; decide)
    rw [if_pos hroom, if_pos hroom, if_neg hq]
    rfl
  · rw [if_neg hroom, if_neg hroom, if_pos rfl, ← hload]
    rfl

omit hs h hn in
theorem doLs_link {m : UInt32} {e₁ : Env} {entries : List Dentry} {names : List Text}
    (hsrc : srcPath = Text.absolute names) (hplain : ∀ c ∈ names, Text.slash ∉ c.bytes)
    (hlen : srcPath.length < 500)
    (hwalk : ∃ j, names.foldlM (t.enter (UInt32.ofNat q)).walk (0, v'.inode 0) = .ok (m, j))
    (hls : (t.enter (UInt32.ofNat q)).lsLoop e₁ (t.syncFromDiskInode m) maxBlockIndex 0 [] = .ok
    entries) :
    ∃ r, (t.enter (UInt32.ofNat q)).doLs e₁ = .ok r ∧ r.lsBuffer = entries := by
  have hshows := ht.inSession fun x => { x with currentDir := t.syncFromDiskInode (UInt32.ofNat q) }
  have hnat : (UInt32.ofNat q).toNat = q := toNat_ofNat_of_lt (by have := hlink.lt; omega)
  have hbnat : (UInt32.ofNat b).toNat = b := toNat_of_mem_dataBlocks hlink.data
  have hdir : (t.enter (UInt32.ofNat q)).currentDir = v'.inode q := by
    have hload := ht.load (Volume.load_of_lt (n := UInt32.ofNat q)
      (by rw [hnat]; exact hlink.lt))
    rwa [hnat] at hload
  have htext : (t.enter (UInt32.ofNat q)).readBlock (UInt32.ofNat b) =
      FileSys.symlinkBlock (directoryBlock (UInt32.ofNat q) n) srcPath := by
    rw [← hlink.text]
    have hread := hshows.read (Volume.read_data (p := UInt32.ofNat b)
      (by rw [hbnat]; exact hlink.data))
    rwa [hbnat] at hread
  have hroot : (t.enter (UInt32.ofNat q)).rootInode = v'.rootInode :=
    (congrArg Session.rootInode ht.session : t.rootInode = v'.rootInode)
  have hdot : (t.enter (UInt32.ofNat q)).findFile v'.rootInode .dot = .ok 0 :=
    eq_ok_of_refines (hshows.findFile _ .dot) hlink.root.find_dot
  have hzero : (t.enter (UInt32.ofNat q)).syncFromDiskInode 0 = v'.inode 0 :=
    hshows.load (v := v'.inSession _) (Volume.load_of_lt (n := 0) (by decide))
  have hparse : (t.enter (UInt32.ofNat q)).parsePath (Text.dot.append srcPath) v'.rootInode = .ok
      m := by
    obtain ⟨j, hj⟩ := hwalk
    have hfits : (Text.dot.append srcPath).length < 511 := by
      simp only [Text.length, Text.append, List.length_append, show Text.dot.bytes.length = 1
        from rfl]
      rw [Text.length] at hlen
      omega
    rw [FileSys.parsePath, fits, if_pos hfits, ok_bind, hsrc, Text.dot_append_absolute,
      Text.components_foldl_child hplain,
      show Text.dot.components = [.dot] by
        decide, List.singleton_append, List.foldlM_cons, FileSys.walk, hdot, ok_bind,
      pure_bind, hzero, hj, ok_bind]
    rfl
  have hmode : sIslnk (t.enter (UInt32.ofNat q)).currentDir.iFmode = true := by
    rw [hdir, hlink.mode]
    decide
  refine ⟨(t.enter (UInt32.ofNat q)).inSession fun x =>
    { x with currentDirLink := t.syncFromDiskInode m, lsBuffer := entries }, ?_, rfl⟩
  rw [FileSys.doLs, if_pos hmode, hdir, hlink.table, htext, textAt_symlinkBlock _ (by omega),
    ok_bind, fits, if_pos (by omega),
    ok_bind, hroot, hparse, ok_bind]
  dsimp only
  rw [show (t.enter (UInt32.ofNat q)).syncFromDiskInode m = t.syncFromDiskInode m from rfl, hls]
  rfl

omit ht hn in
theorem first_kept {m : UInt32} (hm : s.IsDirectory m) : FirstBlock v' (v'.inode m.toNat) ∧
    ((v'.inode m.toNat).iDirectTable 0).toNat ∈ dataBlocks ∧
    (v'.inode m.toNat).iFmode = (s.syncFromDiskInode m).iFmode ∧
    (v'.inode m.toNat).iFnum.toNat ≤ (s.syncFromDiskInode m).iFnum.toNat + 1 := by
  obtain ⟨hmem, hinode⟩ := hm.shows hs
  have hne := (h.first _ hmem).present (hinode ▸ hm.mode)
  have hdata := (h.well.within _ hmem 0).resolve_left hne
  rw [hinode]
  by_cases hmn : m.toNat = n.toNat
  · rw [hmn] at hdata ⊢
    exact ⟨hlink.first, hlink.dirTable ▸ hdata, hlink.dirMode, hlink.dirFnum.le⟩
  · rw [hlink.other _ hmem hmn]
    exact ⟨(h.first _ hmem).frame fun hne => hlink.block _ hmem hmn hne, hdata, rfl, Nat.le_succ _⟩

omit hn in
theorem doLs_dir {m : UInt32} (hm : s.IsDirectory m) (e' : Env) : (t.enter m).doLs e' =
    (t.enter m).lsLoop e' (t.syncFromDiskInode m) maxBlockIndex 0 [] >>= fun entries =>
      .ok ((t.enter m).inSession fun x => { x with lsBuffer := entries }) := by
  have hload : t.syncFromDiskInode m = v'.inode m.toNat :=
    ht.load (Volume.load_of_lt hm.lt)
  refine FileSys.doLs_of_dir (s := t.enter m) e' ?_
  rw [show (t.enter m).currentDir = t.syncFromDiskInode m from rfl, hload,
    (hlink.first_kept hs h hm).2.2.1]
  exact sIslnk_of_sIsdir hm.mode

omit hn in
theorem exists_listing {m : UInt32} (hm : s.IsDirectory m)
    (hfew : (s.syncFromDiskInode m).iFnum.toNat + 2 ≤ 10) :
    ∃ entries : List Dentry, entries.length ≤ 11 ∧
      ∀ k e', (t.enter k).lsLoop e' (t.syncFromDiskInode m) maxBlockIndex 0 [] = .ok entries := by
  obtain ⟨hfirst, hdata, hmode, hfnum⟩ := hlink.first_kept hs h hm
  have hload : t.syncFromDiskInode m = v'.inode m.toNat :=
    ht.load (Volume.load_of_lt hm.lt)
  have hread : ∀ k, (t.enter k).readBlock ((v'.inode m.toNat).iDirectTable 0) =
      v'.block ((v'.inode m.toNat).iDirectTable 0).toNat :=
        fun k => ht.read (Volume.read_data hdata)
  obtain ⟨hgap, hbefore⟩ := gap_of_packed (k := (v'.inode m.toNat).iFnum.toNat + 2) (by omega)
    (hfirst.packed (by rw [hmode]; exact hm.mode))
  refine ⟨liveFrom (v'.block ((v'.inode m.toNat).iDirectTable 0).toNat) 0
    ((v'.inode m.toNat).iFnum.toNat + 2), ?_, fun k e' => ?_⟩
  · have hle := List.length_filter_le (live (v'.block ((v'.inode m.toNat).iDirectTable 0).toNat))
      (List.range' 0 ((v'.inode m.toNat).iFnum.toNat + 2))
    rw [List.length_range'] at hle
    rw [liveFrom, List.length_map]
    omega
  · rw [hload, FileSys.lsLoop_eq e' _ (by rw [hread]; exact hgap) (by rw [hread]; exact hbefore),
      hread]

end Linked

theorem FirstBlock.few {v : Volume} {i : Inode} (h : FirstBlock v i) (hdir : sIsdir i.iFmode = true)
    (hten : (liveEntries (v.block (i.iDirectTable 0).toNat)).length ≤ 10) :
    i.iFnum.toNat + 2 ≤ 10 := by
  by_contra hmany
  have hfull : ∀ j < 11, live (v.block (i.iDirectTable 0).toNat) j = true := fun j hj => by
    rw [h.packed hdir j (by omega), decide_eq_true (by omega)]
  rw [liveEntries, show 32 = 11 + 21 from rfl, liveFrom_add, List.length_append, liveFrom,
    List.length_map,
    List.filter_eq_self.mpr fun j hj => hfull j (by simpa using (List.mem_range'_1.mp hj).2),
      List.length_range'] at hten
  omega

section Lists
variable {s : FileSys} {v : Volume} (hs : Shows s v) (hv : Packed v) {m n : UInt32}
  (hm : s.IsDirectory m) (hn : s.IsDirectory n)
  (hfew : (s.syncFromDiskInode m).iFnum.toNat + 2 ≤ 10) {e e₁ e₂ : Env} {parent last newPath : Text}
  (hplain : Text.slash ∉ last.bytes) (hshort : last.length < 64) (hparse : s.parsePath newPath
    s.currentDir = .ok n)
  (hnew : ∀ j < 32, (s.entryAt n 0 j).dName ≠ last)
include hs hv hm hn hfew hplain hshort hparse hnew

theorem canLink_of_listsTarget {srcPath : Text} (hsep : separatePath (Text.dot.append srcPath)
    64 = .ok (parent, last))
    (hlists : s.ListsTarget e e₁ e₂ srcPath newPath last m n) : s.CanLink n := by
  obtain ⟨t, a, b, c, ht, hcd, hlsa, hlsc, hsame⟩ := hlists
  have hninode := (hn.shows hs).2
  obtain ⟨v', q, b', hshows, hq, hb, hlink⟩ := exists_linked hs hv hn hsep hparse ht
  obtain ⟨entries, hlength, hentries⟩ := hlink.exists_listing hs hshows hv hm hfew
  rw [hlink.doLs_dir hs hshows hv hm, hentries, ok_bind] at hlsc
  obtain rfl := Except.ok.inj hlsc
  rw [hlink.doCd_enter hs hshows hv hn hplain hshort hnew] at hcd
  obtain rfl := Except.ok.inj hcd
  by_cases hroom : (s.syncFromDiskInode n).iFnum.toNat + 2 < 32
  · obtain ⟨hqlt, hqclear⟩ := Volume.firstClear_lt hq
    obtain ⟨hblt, hbclear⟩ := Volume.firstClear_lt hb
    exact ⟨hroom, ⟨q, hqlt, hs.inodeBit q hqlt ▸ hqclear⟩, ⟨b', hblt, hs.blockBit b' hblt ▸
      hbclear⟩⟩
  · rw [if_neg hroom, hlink.doLs_dir hs hshows hv hn] at hlsa
    obtain ⟨listed, hlisted, hlsa⟩ := exists_of_bind_ok hlsa
    obtain rfl := Except.ok.inj hlsa
    obtain ⟨hfirst, hdata, hmode, -⟩ := hlink.first_kept hs hv hn
    have hload : t.syncFromDiskInode n = v'.inode n.toNat :=
      hshows.load (Volume.load_of_lt hn.lt)
    have hread : (t.enter n).readBlock ((v'.inode n.toNat).iDirectTable 0) =
        v'.block ((v'.inode n.toNat).iDirectTable 0).toNat := hshows.read (Volume.read_data hdata)
    -- a full block is more than the target's few entries
    have hfull := FileSys.length_of_lsLoop_full (s := t.enter n) (fun j hj => by
      rw [hload, hread, hfirst.packed (by rw [hmode]; exact hn.mode) j hj, hlink.dirFnum]
      rw [hninode] at hroom
      exact decide_eq_true (by omega)) hlisted
    have hlengths : listed.length = entries.length := congrArg List.length hsame
    omega

theorem listsTarget_of_canLink {names : List Text} (hnames : ∀ c ∈ names, c.bytes ≠ [] ∧
    Text.slash ∉ c.bytes)
    (hlen : (Text.absolute names).length < 500) (hsep : separatePath (Text.dot.append
    (.absolute names)) 64 = .ok (parent, last))
    (hpath : s.lookUp names 0 (v.inode 0) = .ok m) (hcan : s.CanLink n) :
    s.ListsTarget e e₁ e₂ (.absolute names) newPath last m n := by
  obtain ⟨hnmem, hninode⟩ := hn.shows hs
  have hmfound : m ≠ notFound := fun heq => absurd hm.lt (by rw [heq]; decide)
  obtain ⟨t, ht⟩ := exists_symlink hs hv hn hsep hparse hcan (e := e)
  obtain ⟨v', q, b', hshows, hq, hb, hlink⟩ := exists_linked hs hv hn hsep hparse ht
  obtain ⟨entries, -, hentries⟩ := hlink.exists_listing hs hshows hv hm hfew
  have habsent : ∀ j < 32, (dentryAt (v.block ((v.inode n.toNat).iDirectTable 0).toNat) j).dName ≠
      (e.stack.fill (UInt32.ofNat q) last).dName := fun j hj => by
    have hdata := (hlink.dir_named hv hnmem (hninode ▸ hn.mode) (terminated_fill (by omega))).1
    have hentry := hnew j hj
    rw [FileSys.entryAt, hninode, hs.read (Volume.read_data hdata)] at hentry
    rwa [dName_fill (by omega)]
  obtain ⟨r, hr, hbuffer⟩ := hlink.doLs_link hshows rfl (fun c hc => (hnames c hc).2) hlen
    (hlink.walk_kept hv hnmem (hninode ▸ hn.mode) habsent hs (hshows.inSession _) (terminated_fill
      (by omega))
      (fun c hc => (hnames c hc).1) hv.root_taken hpath hmfound) (hentries _ e₁)
  have hlist : (t.enter m).doLs e₂ = .ok ((t.enter m).inSession fun x =>
      { x with lsBuffer := entries }) := by
    rw [hlink.doLs_dir hs hshows hv hm, hentries, ok_bind]
  refine ⟨t, _, r, _, ht, hlink.doCd_enter hs hshows hv hn hplain hshort hnew, ?_, hlist, hbuffer⟩
  rw [if_pos hcan.room]
  exact hr

end Lists

/-- The link lists what its target does exactly if its entry has room in the first block of its
directory and there is an inode and a block left. -/
theorem link_lists_iff {s : FileSys} (h : Reach (fun op _ => op.MakesOnly) s) {dirs : List Text}
    {last : Text}
    (hnames : ∀ c ∈ dirs ++ [last], c.bytes ≠ [] ∧ Text.slash ∉ c.bytes)
    (hlen : (Text.absolute (dirs ++ [last])).length < 500)
    {m n : UInt32} (hm : s.IsDirectory m) (hpath : s.lookUp (dirs ++ [last]) 0 (s.syncFromDiskInode
    0) = .ok m)
    (hten : (liveEntries (s.readBlock ((s.syncFromDiskInode m).iDirectTable 0))).length ≤ 10)
    (hn : s.IsDirectory n) {newPath : Text}
    (hparse : s.parsePath newPath s.currentDir = .ok n)
    (hnew : ∀ j < 32, (s.entryAt n 0 j).dName ≠ last) (e e₁ e₂ : Env) :
    s.ListsTarget e e₁ e₂ (.absolute (dirs ++ [last])) newPath last m n ↔ s.CanLink n := by
  obtain ⟨v, hs, hv⟩ := h.packed
  obtain ⟨hmmem, hminode⟩ := hm.shows hs
  have hmfound : m ≠ notFound := fun heq => absurd hm.lt (by rw [heq]; decide)
  have hlast := hnames last (List.mem_append_right _ (List.mem_singleton_self _))
  have hzero : s.syncFromDiskInode 0 = v.inode 0 :=
    hs.load (Volume.load_of_lt (n := 0) (by decide))
  rw [hzero] at hpath
  have hshort : last.length < 64 := by
    obtain ⟨p, hp, hfind⟩ := exists_found hs hv hv.root_taken hpath hmfound
    exact length_of_found hv hp hlast.1 hfind hmfound
  have hsep : separatePath (Text.dot.append (.absolute (dirs ++ [last]))) 64 = .ok
      (dirs.foldl Text.child .dot, last) := by
    have hfits : (Text.dot.append (.absolute (dirs ++ [last]))).length < 512 := by
      simp only [Text.length, Text.append, List.length_append, show Text.dot.bytes.length = 1
        from rfl]
      rw [Text.length] at hlen
      omega
    rw [Text.dot_append_absolute, List.foldl_append, List.foldl_cons, List.foldl_nil] at hfits ⊢
    exact Text.separatePath_child (Text.foldl_child_ne_nil dirs (by decide)) hlast.2 hshort hfits
  have hfew : (s.syncFromDiskInode m).iFnum.toNat + 2 ≤ 10 := by
    have hdir : sIsdir (v.inode m.toNat).iFmode = true := hminode ▸ hm.mode
    have hdata := (hv.well.within _ hmmem 0).resolve_left ((hv.first _ hmmem).present hdir)
    rw [hminode, hs.read (Volume.read_data hdata)] at hten
    rw [hminode]
    exact (hv.first _ hmmem).few hdir hten
  exact ⟨canLink_of_listsTarget hs hv hm hn hfew hlast.2 hshort hparse hnew hsep,
    listsTarget_of_canLink hs hv hm hn hfew hlast.2 hshort hparse hnew hnames hlen hsep hpath⟩

/-! `mkdir ./a; mkdir a/b`, and then files in the root, until the root's first block is full. -/

section Example

def Op.makesOnly : Op → Bool
  | .mkdir _ _ | .touch _ _ | .cd _ => true
  | _ => false

theorem Op.MakesOnly.of_bool {op : Op} (h : op.makesOnly = true) : op.MakesOnly := by
  cases op with
  | mkdir | touch | cd => trivial
  | _ => cases h

def stocking (k : Nat) : List Op :=
  [.mkdir (Text.dot.child .a) 0, .mkdir (Text.a.child .b) 0] ++
    (((List.finRange 31).drop 2).take k).map fun m => .touch (.letter m) 0

structure FileSys.HasTarget (s : FileSys) : Prop where
  target : s.IsDirectory 2
  path : s.lookUp [.a, .b] 0 (s.syncFromDiskInode 0) = .ok 2
  few : (liveEntries (s.readBlock ((s.syncFromDiskInode 2).iDirectTable 0))).length ≤ 10
  root : s.IsDirectory 0
  here : s.parsePath .dot s.currentDir = .ok 0
  new : ∀ j < 32, (s.entryAt 0 0 j).dName ≠ .b

def Volume.hasTarget (v : Volume) : Bool :=
  v.isDirectory 2 && v.isDirectory 0 && (v.findFile (v.inode 0) .a).toOption == some 1 &&
    (v.findFile (v.inode 1) .b).toOption == some 2 &&
    (v.parsePath .dot v.currentDir).toOption == some 0 &&
    ((v.load 2).sure fun i => (v.read (i.iDirectTable 0)).sure fun b =>
      decide ((liveEntries b).length ≤ 10)) &&
    (List.range 32).all fun j => (v.load 0).sure fun i => (v.read (i.iDirectTable 0)).sure fun b =>
      decide ((dentryAt b j).dName ≠ .b)

theorem Shows.of_hasTarget {s : FileSys} {v : Volume} (h : Shows s v) (hv : v.hasTarget = true) :
    s.HasTarget := by
  simp only [Volume.hasTarget, Bool.and_eq_true, beq_iff_eq] at hv
  obtain ⟨⟨⟨⟨⟨⟨htwo, hzero⟩, ha⟩, hb⟩, hhere⟩, hfew⟩, hnew⟩ := hv
  have ha := eq_ok_of_refines (h.findFile _ _) (eq_ok_of_toOption ha)
  have hb := eq_ok_of_refines (h.findFile _ _) (eq_ok_of_toOption hb)
  have hroot : s.syncFromDiskInode 0 = v.inode 0 := (h.inode 0 (by omega)).symm
  have hone : s.syncFromDiskInode 1 = v.inode 1 := (h.inode 1 (by omega)).symm
  refine ⟨h.of_isDirectory htwo, ?_, ?_, h.of_isDirectory hzero, ?_, fun j hj => ?_⟩
  · rw [FileSys.lookUp_cons, hroot, ha, ok_bind, if_neg (by decide), FileSys.lookUp_cons, hone, hb,
      ok_bind,
      if_neg (by decide)]
    rfl
  · exact of_decide_eq_true (h.of_sure_read (h.of_sure_load hfew :) :)
  · rw [h.currentDir_eq]
    exact eq_ok_of_refines (h.parsePath _ _) (eq_ok_of_toOption hhere)
  · have hentry := List.all_eq_true.mp hnew j (List.mem_range.mpr hj)
    exact of_decide_eq_true (h.of_sure_read (h.of_sure_load hentry :) :)

theorem exists_stocked {k : Nat} {p : Volume → Bool}
    (h : (Volume.checked (fun op _ => op.makesOnly) (stocking k) (Volume.mkfs .blank .blank)).any
      (fun v => v.hasTarget && p v) = true) :
    ∃ s t v, FileSys.blank.doMkfs .blank = .ok s ∧ runOps (stocking k) s = .ok t ∧
      Reach (fun op _ => op.MakesOnly) t ∧ Shows t v ∧ t.HasTarget ∧ p v = true := by
  obtain ⟨s, t, v, hs, ht, hreach, hv, hp⟩ :=
    exists_run_checked (fun _ _ op _ => @Op.MakesOnly.of_bool op) (stocking k) h
  obtain ⟨htarget, hp⟩ := Bool.and_eq_true_iff.mp hp
  exact ⟨s, t, v, hs, ht, hreach, hv, hv.of_hasTarget htarget, hp⟩

theorem link_lists_b :
    ∃ s t, FileSys.blank.doMkfs .blank = .ok s ∧ runOps (stocking 0) s = .ok t ∧ t.HasTarget ∧
    t.ListsTarget .blank .blank .blank (.absolute [.a, .b]) .dot .b 2 0 := by
  obtain ⟨s, t, v, hs, ht, hreach, hv, htarget, hp⟩ := exists_stocked (k := 0)
    (p := fun v => (v.inode 0).iFnum == 1 && !v.inodeBit 3 && !v.blockBit 271) (by decide +kernel)
  simp only [Bool.and_eq_true, beq_iff_eq, Bool.not_eq_true'] at hp
  obtain ⟨⟨hfnum, hinode⟩, hblock⟩ := hp
  have hcan : t.CanLink 0 := by
    refine ⟨?_, ⟨3, by omega, ?_⟩, ⟨271, by omega, ?_⟩⟩
    · rw [show t.syncFromDiskInode 0 = v.inode 0 from (hv.inode 0 (by omega)).symm, hfnum]
      decide
    · exact (hv.inodeBit 3 (by omega)).symm.trans hinode
    · exact (hv.blockBit 271 (by omega)).symm.trans hblock
  exact ⟨s, t, hs, ht, htarget, (link_lists_iff hreach
    (show ∀ c ∈ [Text.a] ++ [.b], c.bytes ≠ [] ∧ Text.slash ∉ c.bytes by decide) (by decide)
      htarget.target htarget.path htarget.few
    htarget.root htarget.here htarget.new .blank .blank .blank).mpr hcan⟩

theorem link_lists_root :
    ∃ s t, FileSys.blank.doMkfs .blank = .ok s ∧ runOps (stocking 29) s = .ok t ∧ t.HasTarget ∧
    ¬ t.ListsTarget .blank .blank .blank (.absolute [.a, .b]) .dot .b 2 0 := by
  obtain ⟨s, t, v, hs, ht, hreach, hv, htarget, hp⟩ := exists_stocked (k := 29)
    (p := fun v => (v.inode 0).iFnum == 30 && (v.inode 2).iFnum == 0) (by decide +kernel)
  simp only [Bool.and_eq_true, beq_iff_eq] at hp
  obtain ⟨hfull, hnone⟩ := hp
  refine ⟨s, t, hs, ht, htarget, fun hlists => ?_⟩
  obtain ⟨u, hu, hpacked⟩ := hreach.packed
  have hfew : (t.syncFromDiskInode 2).iFnum.toNat + 2 ≤ 10 := by
    rw [show t.syncFromDiskInode 2 = v.inode 2 from (hv.inode 2 (by omega)).symm, hnone]
    decide
  have hsep : separatePath (Text.dot.append (.absolute [.a, .b])) 64 = .ok (Text.dot.child .a,
    .b) := by decide
  have hcan := canLink_of_listsTarget hu hpacked htarget.target htarget.root hfew (by decide)
    (by decide) htarget.here htarget.new
    hsep hlists
  have hroom := hcan.room
  rw [show t.syncFromDiskInode 0 = v.inode 0 from (hv.inode 0 (by omega)).symm, hfull] at hroom
  exact absurd hroom (by decide)

end Example

end Ucas.Fs

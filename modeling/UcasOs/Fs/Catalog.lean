import UcasOs.Lib.Catalog
import UcasOs.Fs.Kept

/-! Names and link counts. `do_rmdir` frees whatever a name leads to, without a look at
`i_links_cnt` or at the entries of a directory: as long as it is the last name and nothing is behind
it, every inode in use keeps a name. -/

namespace Ucas.Fs
open Ucas.Lib

def named (x : Option (Text × UInt32)) : Option UInt32 :=
  x.bind fun x => if x.1 = .dot ∨ x.1 = .dotdot then none else some x.2

theorem named_some {name : Text} {c : UInt32} (hdot : name ≠ .dot) (hdotdot : name ≠ .dotdot) :
    named (some (name, c)) = some c :=
  if_neg (not_or.mpr ⟨hdot, hdotdot⟩)

def Plain (x : Option (Text × UInt32)) : Prop := named x = x.map Prod.snd

theorem plain_some {name : Text} {c : UInt32} (hdot : name ≠ .dot) (hdotdot : name ≠ .dotdot) :
    Plain (some (name, c)) :=
  named_some hdot hdotdot

namespace FileSys
variable (s : FileSys)

def names (p : UInt32) (k : Fin 384) : Option UInt32 := named (s.entry p k)

inductive Reaches : UInt32 → Prop
  | root : Reaches 0
  | child {p q : UInt32} {k : Fin 384} (hp : Reaches p) (hk : s.names p k = some q)
      (hq : sIsdir (s.syncFromDiskInode q).iFmode = true) : Reaches q

def linksTo (q : UInt32) : Set (UInt32 × Fin 384) :=
  { x | s.Reaches x.1 ∧ s.names x.1 x.2 = some q }

/-- Exactly the inodes in use have names, as many as they count, but for the root. -/
structure LinksExact : Prop where
  used : ∀ q : UInt32, q ≠ 0 → q.toNat < 8192 → (s.inodebmp.bit q.toNat = true ↔
    (s.linksTo q).Nonempty)
  count : ∀ q, q ≠ 0 → s.InUse q → (s.syncFromDiskInode q).iLinksCnt.toNat = (s.linksTo q).ncard
  target : ∀ p, s.Reaches p → ∀ (k : Fin 384) name q, s.entry p k = some (name, q) → s.InUse q

end FileSys

structure Text.Proper (name : Text) : Prop where
  nonempty : name.bytes ≠ []
  dot : name ≠ .dot
  dotdot : name ≠ .dotdot

namespace FileSys
variable (s : FileSys)

structure Enters (n : UInt32) (name : Text) : Prop where
  isDirectory : s.IsDirectory n
  few : (s.syncFromDiskInode n).iFnum.toNat + 2 < 384
  proper : name.Proper

structure EntryOf (n : UInt32) (name : Text) : Prop where
  isDirectory : s.IsDirectory n
  bound : (s.syncFromDiskInode n).iFnum.toNat + 2 < 4294967295
  proper : name.Proper
  found : ∀ c, s.findFile (s.syncFromDiskInode n) name = .ok c → c ≠ notFound

structure Last (c : UInt32) : Prop where
  count : (s.syncFromDiskInode c).iLinksCnt = 1
  empty : sIsdir (s.syncFromDiskInode c).iFmode = true → ∀ k, s.names c k = none

end FileSys

/-- Entries are made under proper names in directories that have room, a link is counted, and what
is removed is the last name of an inode without entries. -/
def Op.KeepsLinks (op : Op) (s : FileSys) : Prop :=
  op.Regular s ∧ match op with
  | .mkdir _ _ | .touch _ _ =>
    ∀ n name, s.target op = .ok (n, name) → s.Finds n name ∨ s.Enters n name
  | .symlink _ _ => ∀ n name, s.target op = .ok (n, name) → s.Enters n name
  | .link srcPath _ =>
    ∀ m, s.parsePath srcPath s.currentDir = .ok m → sIsdir (s.syncFromDiskInode m).iFmode = true ∨
      s.InUse m ∧ (s.syncFromDiskInode m).iLinksCnt.toNat < 65535 ∧ ∀ n name, s.target op = .ok
        (n, name) → s.Enters n name
  | .rename oldName newName => ∀ n name dnum, s.target op = .ok (n, name) →
      s.findDentry (s.syncFromDiskInode n) oldName = .ok dnum →
      (dnum < 2 ∨ (s.syncFromDiskInode n).iFnum + 2 < dnum) ∨ oldName = name ∧ s.EntryOf n name ∧
        newName.Proper
  | .rmdir _ => ∀ n name, s.target op = .ok (n, name) →
      s.EntryOf n name ∧ ∀ c, s.findFile (s.syncFromDiskInode n) name = .ok c → s.Last c
  | .fwrite _ _ => False
  | _ => True

namespace Volume

def catalog (v : Volume) : Catalog UInt32 (Fin 384) where
  used := { p | p.toNat ∈ taken v }
  dirs := { p | p.toNat ∈ taken v ∧ sIsdir (v.inode p.toNat).iFmode = true }
  entry x := if x.1.toNat < 8192 ∧ v.inodeBit x.1.toNat = true ∧ sIsdir (v.inode x.1.toNat).iFmode =
      true then
    named (v.entry (v.inode x.1.toNat) x.2) else none
  home p := (v.entry (v.inode p.toNat) 1).elim 0 Prod.snd
  links p := (v.inode p.toNat).iLinksCnt.toNat

section Entry
variable {v v' : Volume} {p : UInt32}

theorem catalog_entry_of_mem (hp : p ∈ v.catalog.dirs) (k : Fin 384) :
    v.catalog.entry (p, k) = named (v.entry (v.inode p.toNat) k) := if_pos ⟨hp.1.1, hp.1.2, hp.2⟩

theorem catalog_entry_of_notMem (hp : p ∉ v.catalog.dirs) (k : Fin 384) :
    v.catalog.entry (p, k) = none :=
  if_neg fun h => hp ⟨⟨h.1, h.2.1⟩, h.2.2⟩

structure Same (v v' : Volume) (p : Nat) : Prop where
  iFmode : (v'.inode p).iFmode = (v.inode p).iFmode
  iFnum : (v'.inode p).iFnum = (v.inode p).iFnum
  entry : ∀ k, v'.entry (v'.inode p) k = v.entry (v.inode p) k

theorem Same.trans {u : Volume} {n : Nat} (h : Same v u n) (h' : Same u v' n) : Same v v' n :=
  ⟨h'.iFmode.trans h.iFmode, h'.iFnum.trans h.iFnum, fun k => (h'.entry k).trans (h.entry k)⟩

theorem Same.mem_dirs (h : Same v v' p.toNat) (hmem : p.toNat ∈ taken v' ↔ p.toNat ∈ taken v) :
    p ∈ v'.catalog.dirs ↔ p ∈ v.catalog.dirs := by
  simp only [catalog, Set.mem_ofPred_eq, h.iFmode, hmem]

theorem Same.catalog_entry (h : Same v v' p.toNat) (hmem : p.toNat ∈ taken v' ↔ p.toNat ∈ taken v)
    (k : Fin 384) :
    v'.catalog.entry (p, k) = v.catalog.entry (p, k) := by
  by_cases hp : p ∈ v.catalog.dirs
  · rw [catalog_entry_of_mem hp, catalog_entry_of_mem ((h.mem_dirs hmem).mpr hp), h.entry]
  · rw [catalog_entry_of_notMem hp, catalog_entry_of_notMem fun hp' => hp ((h.mem_dirs hmem).mp
      hp')]

structure Neat (v : Volume) (p : UInt32) : Prop extends Kept v p.toNat where
  self : v.entry (v.inode p.toNat) 0 = some (.dot, p)
  plain : ∀ k, 2 ≤ k → k < 384 → Plain (v.entry (v.inode p.toNat) k)

theorem Same.neat (h : Same v v' p.toNat) (hneat : Neat v p) (hwell : Well (taken v') v')
    (howned : v'.Owned)
    (hstraight : v'.Straight 0) (hmem : p.toNat ∈ taken v') : Neat v' p := by
  refine ⟨⟨hwell, howned, hstraight, hmem, ?_, ?_, fun k hk hk' => ?_⟩, ?_, fun k hk hk' => ?_⟩
  · rw [h.entry]
    exact hneat.dot
  · rw [h.entry]
    exact hneat.dotdot
  · rw [h.entry]
    exact hneat.free k (h.iFnum ▸ hk) hk'
  · rw [h.entry]
    exact hneat.self
  · rw [h.entry]
    exact hneat.plain k hk hk'

structure Edits (v v' : Volume) (n : UInt32) (k : Nat) (x : Option (Text × UInt32)) : Prop where
  puts : Puts n.toNat v v' k x
  mem : n.toNat ∈ taken v'
  iFmode : (v'.inode n.toNat).iFmode = (v.inode n.toNat).iFmode
  other : ∀ p ∈ taken v, p ∈ taken v' → p ≠ n.toNat → Same v v' p

namespace Edits
variable {n : UInt32} {k : Nat} {x : Option (Text × UInt32)} (h : Edits v v' n k x)
include h

theorem mem_dirs (hp : p.toNat ∈ taken v) :
    p ∈ v'.catalog.dirs ↔ p.toNat ∈ taken v' ∧ p ∈ v.catalog.dirs := by
  by_cases hp' : p.toNat ∈ taken v'
  swap
  · exact iff_of_false (fun hmem => hp' hmem.1) fun hmem => hp' hmem.1
  have hmode : (v'.inode p.toNat).iFmode = (v.inode p.toNat).iFmode := by
    by_cases hpn : p.toNat = n.toNat
    · rw [hpn, h.iFmode]
    · exact (h.other _ hp hp' hpn).iFmode
  simp only [catalog, Set.mem_ofPred_eq, hmode, hp, hp', true_and]

theorem catalog_entry (hn : n ∈ v.catalog.dirs) (hk : k < 384)
    (hnew : ∀ p : UInt32, p.toNat ∉ taken v → ∀ m, v'.catalog.entry (p, m) = none)
    (hgone : ∀ p : UInt32, p.toNat ∉ taken v' → ∀ m, v.catalog.entry (p, m) = none) :
    v'.catalog.entry = Function.update v.catalog.entry (n, ⟨k, hk⟩) (named x) := by
  have hn' : n ∈ v'.catalog.dirs := (h.mem_dirs hn.1).mpr ⟨h.mem, hn⟩
  funext ⟨p, m⟩
  by_cases hpn : p = n
  · subst hpn
    rw [catalog_entry_of_mem hn', h.puts m m.isLt, Function.update_apply]
    split_ifs with hm hpm hpm
    · rfl
    · exact absurd (by rw [Prod.mk.injEq, Fin.ext_iff]; exact ⟨rfl, hm⟩) hpm
    · exact absurd (congrArg (fun y : UInt32 × Fin 384 => y.2.val) hpm) hm
    · rw [catalog_entry_of_mem hn]
  rw [Function.update_of_ne fun heq => hpn (congrArg Prod.fst heq)]
  by_cases hp : p.toNat ∈ taken v
  swap
  · rw [hnew p hp, catalog_entry_of_notMem fun hmem => hp hmem.1]
  by_cases hp' : p.toNat ∈ taken v'
  · exact (h.other _ hp hp' fun heq => hpn (UInt32.toNat_inj.mp heq)).catalog_entry
      (iff_of_true hp' hp) m
  · rw [hgone p hp', catalog_entry_of_notMem fun hmem => hp' hmem.1]

theorem home (hk : 2 ≤ k) (hp : p.toNat ∈ taken v) (hp' : p.toNat ∈ taken v') :
    v'.catalog.home p = v.catalog.home p := by
  have hentry : v'.entry (v'.inode p.toNat) 1 = v.entry (v.inode p.toNat) 1 := by
    by_cases hpn : p.toNat = n.toNat
    · rw [hpn, h.puts 1 (by omega), if_neg (by omega)]
    · exact (h.other _ hp hp' hpn).entry 1
  simp only [catalog, hentry]

theorem neat (hk : 2 ≤ k) (hx : Plain x) (hneat : Neat v n) (hkept : Kept v' n.toNat) :
    Neat v' n := by
  refine ⟨hkept, ?_, fun m hm hm' => ?_⟩
  · rw [h.puts 0 (by omega), if_neg (by omega), hneat.self]
  · rw [h.puts m hm']
    split_ifs
    · exact hx
    · exact hneat.plain m hm hm'

theorem of_taken (hn : n ∈ v.catalog.dirs) (hk : 2 ≤ k) (hk384 : k < 384)
    (htaken : taken v' = taken v) :
    v'.catalog.used = v.catalog.used ∧ v'.catalog.dirs = v.catalog.dirs ∧
      v'.catalog.entry = Function.update v.catalog.entry (n, ⟨k, hk384⟩) (named x) ∧
      ∀ p ∈ v.catalog.dirs, v'.catalog.home p = v.catalog.home p := by
  refine ⟨?_, Set.ext fun p => ?_, h.catalog_entry hn hk384 (fun p hp => catalog_entry_of_notMem
    fun hmem => hp ?_)
    fun p hp => catalog_entry_of_notMem fun hmem => hp ?_, fun p hp => h.home hk hp.1 ?_⟩
  · rw [catalog, htaken]
    rfl
  · by_cases hp : p.toNat ∈ taken v
    · rw [h.mem_dirs hp, htaken]
      exact and_iff_right hp
    · exact iff_of_false (fun hmem => hp (htaken ▸ hmem.1)) fun hmem => hp hmem.1
  · exact htaken ▸ hmem.1
  · exact htaken ▸ hmem.1
  · exact htaken ▸ hp.1

theorem of_insert {q : UInt32} (hq : q.toNat ∉ taken v)
    (htaken : taken v' = insert q.toNat (taken v)) :
    v'.catalog.used = insert q v.catalog.used ∧ (v'.catalog.dirs = v.catalog.dirs ∨
    v'.catalog.dirs = insert q v.catalog.dirs) := by
  have hmem : ∀ p : UInt32, p.toNat ∈ taken v' ↔ p = q ∨ p.toNat ∈ taken v := fun p => by
    rw [htaken, Set.mem_insert_iff, UInt32.toNat_inj]
  have hold : ∀ p : UInt32, p ≠ q → (p ∈ v'.catalog.dirs ↔ p ∈ v.catalog.dirs) := fun p hpq => by
    by_cases hp : p.toNat ∈ taken v
    · rw [h.mem_dirs hp]
      exact and_iff_right ((hmem p).mpr (.inr hp))
    · exact iff_of_false (fun hdir => hp (((hmem p).mp hdir.1).resolve_left hpq)) fun hdir =>
        hp hdir.1
  have hfresh : q ∉ v.catalog.dirs := fun hdir => hq hdir.1
  refine ⟨Set.ext hmem, ?_⟩
  by_cases hdir : q ∈ v'.catalog.dirs
  · refine .inr (Set.ext fun p => ?_)
    by_cases hpq : p = q
    · simp only [hpq, hdir, Set.mem_insert_iff, true_or]
    · rw [hold p hpq, Set.mem_insert_iff, or_iff_right hpq]
  · refine .inl (Set.ext fun p => ?_)
    by_cases hpq : p = q
    · simp only [hpq, hdir, hfresh]
    · exact hold p hpq

theorem of_sdiff {c : UInt32} (htaken : taken v' = taken v \ {c.toNat}) :
    v'.catalog.used = v.catalog.used \ {c} ∧ v'.catalog.dirs = v.catalog.dirs \ {c} := by
  have hmem : ∀ p : UInt32, p.toNat ∈ taken v' ↔ p.toNat ∈ taken v ∧ p ≠ c := fun p => by
    rw [htaken, Set.mem_sdiff, Set.mem_singleton_iff, UInt32.toNat_inj]
  refine ⟨Set.ext hmem, Set.ext fun p => ?_⟩
  by_cases hp : p.toNat ∈ taken v
  · rw [h.mem_dirs hp, hmem, and_iff_right hp, and_comm]
    rfl
  · exact iff_of_false (fun hdir => hp ((hmem p).mp hdir.1).1) fun hdir => hp hdir.1.1

end Edits

end Entry

theorem same_stored {v : Volume} {i : Inode} (hmode : i.iFmode = (v.inode i.iNum.toNat).iFmode)
    (hfnum : i.iFnum = (v.inode i.iNum.toNat).iFnum)
    (htable : i.iDirectTable = (v.inode i.iNum.toNat).iDirectTable) (p : Nat) :
    Same v (v.stored i) p := by
  by_cases hp : p = i.iNum.toNat
  · subst hp
    have hself : (v.stored i).inode i.iNum.toNat = i := Function.update_self ..
    refine ⟨by rw [hself, hmode], by rw [hself, hfnum], fun k => ?_⟩
    rw [hself]
    exact entry_congr htable fun _ _ => rfl
  · have hother : (v.stored i).inode p = v.inode p := Function.update_of_ne hp _ _
    exact ⟨by rw [hother], by rw [hother], fun k => by rw [hother]; rfl⟩

theorem Wrote.same_of_ne {u : Volume} {n p : Nat} {dnum : UInt32} {d : Dentry} {r : Inode × Volume}
    (h : Wrote u (u.inode n) dnum d r) (hw : Well (taken u) u) (ho : u.Owned) (hn : n ∈ taken u)
    (hp : p ∈ taken u) (hpn : p ≠ n) :
    r.2.inode p = u.inode p ∧ Same u r.2 p := by
  have hinode : r.2.inode p = u.inode p := h.inode_of_ne (by rwa [hw.num n hn])
  have hentry : ∀ k, r.2.entry (u.inode p) k = u.entry (u.inode p) k :=
      fun k => entry_congr rfl fun m hm =>
    h.block_of_ne ((hw.within p hp m).resolve_left hm) ((ho p hp).bit m hm) fun k' heq =>
      (ho p hp).other m hm n hn hpn.symm k' (UInt32.toNat_inj.mp heq)
  exact ⟨hinode, by rw [hinode], by rw [hinode], fun k => by rw [hinode, hentry]⟩

theorem Wrote.self {u : Volume} {n : Nat} {dnum : UInt32} {d : Dentry} {r : Inode × Volume}
    (h : Wrote u (u.inode n) dnum d r)
    (hnum : (u.inode n).iNum.toNat = n) :
    (r.2.inode n).iFmode = (u.inode n).iFmode ∧ (r.2.inode n).iLinksCnt = (u.inode n).iLinksCnt :=
    by
  have hself : r.2.inode n = r.1 := by
    cases h with
    | refused => rfl
    | grown _ _ _ _ hi' => simp [allotted, stored, hi', hnum]
    | filled => simp [wrote, stored, hnum]
    | lost => simp [wrote, stored, hnum]
  rw [hself, h.iFmode, h.iLinksCnt]
  exact ⟨rfl, rfl⟩

section Made
variable {v v₁ : Volume} {e : Env} {fmode : UInt16} {content : Option (UInt32 → Block)} {q : Nat}
  (h : Made e v fmode content q v₁)
include h

theorem Made.record : (v₁.inode q).iFmode = fmode ∧ (v₁.inode q).iLinksCnt = 1 := by
  cases h <;> simp [allotted, created, newInode]

theorem Made.same (ho : v.Owned) {p : Nat} (hp : p ∈ taken v) :
    v₁.inode p = v.inode p ∧ Same v v₁ p := by
  have hinode : v₁.inode p = v.inode p := h.inode_of_ne (h.ne_of_mem hp)
  refine ⟨hinode, by rw [hinode], by rw [hinode], fun k => ?_⟩
  rw [hinode]
  exact entry_congr rfl fun m hm => h.block_of_bit ((ho p hp).bit m hm)

end Made

theorem mem_dirs_of_isDirectory {v : Volume} {s : FileSys} (hs : Shows s v) {n : UInt32}
    (hdir : s.IsDirectory n) :
    n ∈ v.catalog.dirs ∧ s.syncFromDiskInode n = v.inode n.toNat := by
  obtain ⟨hmem, hinode⟩ := hdir.shows hs
  exact ⟨⟨hmem, hinode ▸ hdir.mode⟩, hinode⟩

structure Cataloged (v : Volume) : Prop where
  sound : v.catalog.Sound 0
  neat : ∀ p ∈ v.catalog.dirs, v.Neat p
  top : v.catalog.home 0 = 0

theorem entry_of_dir {v : Volume} {q : Nat} {L : List (Text × UInt32)} (h : Dir v q L) {k : Nat}
    (hk : k < 384) :
    v.entry (v.inode q) k = (L.getD k (.empty, 0)).1.entry (L.getD k (.empty, 0)).2 := by
  have h12 : k / 32 < 12 := by omega
  have hslot : 32 * (⟨_, h12⟩ : Fin 12).val + k % 32 = k := Nat.div_add_mod k 32
  by_cases hused : 32 * (⟨_, h12⟩ : Fin 12).val < L.length
  · have hdata := h.block _ hused
    have hreads := h.entry _ hused (k % 32) (by omega)
    rw [hslot] at hreads
    rw [entry_present h12 (ne_zero_of_mem_dataBlocks hdata), Dentry.entry, hreads.dName,
      hreads.dInum]
  · rw [entry_missing h12 (h.noBlock _ (by omega)), List.getD_eq_default _ _ (by omega)]
    rfl

theorem entries_of_dots {v : Volume} {q : Nat} {a b : UInt32}
    (h : Dir v q [(.dot, a), (.dotdot, b)]) :
    v.entry (v.inode q) 0 = some (.dot, a) ∧ v.entry (v.inode q) 1 = some (.dotdot, b) ∧
      ∀ k, 2 ≤ k → k < 384 → v.entry (v.inode q) k = none := by
  refine ⟨entry_of_dir h (by omega), entry_of_dir h (by omega), fun k hk hk' => ?_⟩
  rw [entry_of_dir h hk', List.getD_eq_default _ _ (by simpa using hk)]
  rfl

theorem named_of_dots {v : Volume} {q : Nat} {a b : UInt32} (h : Dir v q [(.dot, a), (.dotdot, b)])
    (k : Fin 384) :
    named (v.entry (v.inode q) k) = none := by
  obtain ⟨hdot, hdotdot, hfree⟩ := entries_of_dots h
  obtain hk | hk | hk : k.val = 0 ∨ k.val = 1 ∨ 2 ≤ k.val := by omega
  · rw [hk, hdot]
    rfl
  · rw [hk, hdotdot]
    rfl
  · rw [hfree k hk k.isLt]
    rfl

theorem neat_of_dots {u v : Volume} {p b : UInt32} (h : Dir u p.toNat [(.dot, p), (.dotdot, b)])
    (hsame : Same u v p.toNat)
    (hwell : Well (taken v) v) (howned : v.Owned) (hstraight : v.Straight 0)
    (hmem : p.toNat ∈ taken v) :
    Neat v p := by
  obtain ⟨hdot, hdotdot, hfree⟩ := entries_of_dots h
  refine ⟨⟨hwell, howned, hstraight, hmem, ⟨p, ?_⟩, ⟨b, ?_⟩, fun k hk hk' => ?_⟩, ?_,
    fun k hk hk' => ?_⟩
  · rw [hsame.entry, hdot]
  · rw [hsame.entry, hdotdot]
  · rw [hsame.entry]
    exact hfree k (by omega) hk'
  · rw [hsame.entry, hdot]
  · rw [hsame.entry, hfree k hk hk']
    rfl

namespace Cataloged
variable {v v' : Volume} {n : UInt32}

theorem well (h : Cataloged v) : Well (taken v) v := (h.neat 0 h.sound.start).well
theorem owned (h : Cataloged v) : v.Owned := (h.neat 0 h.sound.start).owned
theorem straight (h : Cataloged v) : v.Straight 0 := (h.neat 0 h.sound.start).straight

theorem edit (h : Cataloged v) {k : Nat} {x : Option (Text × UInt32)} (hn : n ∈ v.catalog.dirs)
    (hedits : Edits v v' n k x)
    (hk : 2 ≤ k) (hx : Plain x) (hstep : v.catalog.Step v'.catalog) (hkept : Kept v' n.toNat)
    (hnew : ∀ p ∈ v'.catalog.dirs, p.toNat ∉ taken v → Neat v' p) : Cataloged v' := by
  have : Finite UInt32 := Finite.of_injective UInt32.toFin fun _ _ => UInt32.toFin_inj.mp
  have hsound := h.sound.step hstep
  refine ⟨hsound, fun p hp => ?_, (hedits.home hk h.sound.start.1 hsound.start.1).trans h.top⟩
  by_cases hpn : p = n
  · exact hpn ▸ hedits.neat hk hx (h.neat n hn) hkept
  by_cases hpv : p.toNat ∈ taken v
  · exact (hedits.other _ hpv hp.1 fun heq => hpn (UInt32.toNat_inj.mp heq)).neat
      (h.neat p ((hedits.mem_dirs hpv).mp hp).2) hkept.well hkept.owned hkept.straight hp.1
  · exact hnew p hp hpv

section Step
variable (h : Cataloged v) (hwell : Well (taken v') v') (howned : v'.Owned) (hstraight : v'.Straight
  0) (hn : n ∈ v.catalog.dirs)
include h hwell howned hstraight hn

section Enter
variable (hfew : (v.inode n.toNat).iFnum.toNat + 2 < 384) {name : Text} (hname : name.bytes ≠ [])
  (hdot : name ≠ .dot)
  (hdotdot : name ≠ .dotdot) (hlen : name.length < 124)
include hfew hname hdot hdotdot hlen

theorem create {e : Env} {op : Op} {fmode : UInt16} {content : Option (UInt32 → Block)} {q : Nat}
    {v₁ : Volume} {i' : Inode}
    (hmakes : Makes n op fmode content) (hmade : Made e v fmode content q v₁)
    (hwrote : Wrote v₁ (v.inode n.toNat) ((v.inode n.toNat).iFnum + 2)
    (e.stack.fill (UInt32.ofNat q) name) (i', v')) :
    Cataloged v' := by
  have hkept := h.neat n hn
  have hqnat : (UInt32.ofNat q).toNat = q := toNat_ofNat_of_lt (by have := hmade.inodeBit.1; omega)
  have hmem₁ : n.toNat ∈ taken v₁ := hmade.mem_taken.mpr (.inr hn.1)
  have htaken : ∀ {p}, p ∈ taken v' ↔ p = q ∨ p ∈ taken v := fun {p} => by
    rw [← hmade.mem_taken, hwrote.taken_eq]
  obtain ⟨hmem, hfnum, hputs⟩ := hkept.create hfew hname hlen hmade hwrote
  -- the write to the directory leaves the others alone, and the new inode too
  have hwell₁ : Well (taken v₁) v₁ := (h.well.made hmade).mono fun p hp => hmade.mem_taken.mp hp
  rw [← (hmade.same h.owned hn.1).1] at hwrote
  have hsame₁ : ∀ p ∈ taken v₁, p ≠ n.toNat → v'.inode p = v₁.inode p ∧ Same v₁ v' p :=
    fun p hp hpn => hwrote.same_of_ne hwell₁ (h.owned.made h.well.low hmade) hmem₁ hp hpn
  obtain ⟨hmode, hlinks⟩ := hwrote.self (hwell₁.num _ hmem₁)
  rw [(hmade.same h.owned hn.1).1] at hmode hlinks
  dsimp only at hmode hlinks
  have hedits : Edits v v' n ((v.inode n.toNat).iFnum.toNat + 2) (some (name, UInt32.ofNat q)) :=
    ⟨hputs, hmem, hmode, fun p hp _ hpn => (hmade.same h.owned hp).2.trans
      (hsame₁ p (hmade.mem_taken.mpr (.inr hp)) hpn).2⟩
  obtain ⟨hinodeq, hsameq⟩ := hsame₁ q (hmade.mem_taken.mpr (.inl rfl)) (hmade.ne_of_mem hn.1).symm
  have hdirq : sIsdir fmode = true → Dir v₁ q [(.dot, UInt32.ofNat q), (.dotdot, n)] :=
      fun hdir => by
    cases hmakes with
    | mkdir => exact Dir.made h.well.low hdir hn.1 hmade
    | touch =>
      rw [sIsdir_sIfreg] at hdir
      cases hdir
    | symlink => cases hdir
  -- what is new in the catalog is the new inode
  have hisdir : UInt32.ofNat q ∈ v'.catalog.dirs ↔ sIsdir fmode = true := by
    simp only [catalog, Set.mem_ofPred_eq, hqnat, htaken, true_or, true_and, hinodeq,
      hmade.record.1]
  have hnew : ∀ p ∈ v'.catalog.dirs, p.toNat ∉ taken v → p = UInt32.ofNat q ∧
      Dir v₁ q [(.dot, UInt32.ofNat q), (.dotdot, n)] :=
    fun p hp hpv => by
    obtain rfl : p = UInt32.ofNat q :=
      UInt32.toNat_inj.mp (((htaken.mp hp.1).resolve_right hpv).trans hqnat.symm)
    exact ⟨rfl, hdirq (hisdir.mp hp)⟩
  have hvacant : ∀ p : UInt32, p.toNat ∉ taken v → ∀ m, v'.catalog.entry (p, m) = none :=
      fun p hp m => by
    by_cases hp' : p ∈ v'.catalog.dirs
    · obtain ⟨rfl, hdir⟩ := hnew p hp' hp
      rw [catalog_entry_of_mem hp', hqnat, hsameq.entry]
      exact named_of_dots hdir m
    · exact catalog_entry_of_notMem hp' m
  have hentry := hedits.catalog_entry hn hfew hvacant fun p hp =>
    catalog_entry_of_notMem fun hmem => hp (htaken.mpr (.inr hmem.1))
  rw [named_some hdot hdotdot] at hentry
  have hfresh : (UInt32.ofNat q).toNat ∉ taken v := hqnat.symm ▸ hmade.notMem_taken
  obtain ⟨hused, hdirs⟩ :=
    hedits.of_insert hfresh (by rw [hqnat, ← hmade.taken_eq, hwrote.taken_eq])
  refine h.edit hn hedits (by omega) (plain_some hdot hdotdot) (.make hn ?_ hfresh hused hdirs
    hentry ?_ (fun p hp => ?_)
    (fun p hp => hedits.home (by omega) hp.1 (htaken.mpr (.inr hp.1))) fun hq => ?_)
    (hkept.puts hwell howned hstraight hmem hputs (by omega) (by omega) (by omega)) fun p hp hpv =>
      ?_
  · rw [catalog_entry_of_mem hn, hkept.free _ le_rfl hfew]
    rfl
  · simp only [catalog, hqnat, hinodeq, hmade.record.2]
    rfl
  · by_cases hpn : p.toNat = n.toNat
    · simp only [catalog, hpn, hlinks]
    · simp only [catalog, (hsame₁ _ (hmade.mem_taken.mpr (.inr hp)) hpn).1,
        (hmade.same h.owned hp).1]
  · simp only [catalog, hqnat, hsameq.entry, (entries_of_dots (hdirq (hisdir.mp hq))).2.1]
    rfl
  · obtain ⟨rfl, hdir⟩ := hnew p hp hpv
    rw [← hqnat] at hsameq
    refine neat_of_dots (b := n) (by rwa [hqnat]) hsameq hwell howned hstraight
      (htaken.mpr (.inl hqnat))

theorem link {m : UInt32} (hm : m.toNat ∈ taken v) (hfile : sIsdir (v.inode m.toNat).iFmode = false)
    (hmax : (v.inode m.toNat).iLinksCnt.toNat < 65535) {d : Dentry} {i' : Inode}
    (hwrote : Wrote (v.stored (v.inode m.toNat).addLink) (v.inode n.toNat)
    ((v.inode n.toNat).iFnum + 2) (d.fill m name) (i', v')) :
    Cataloged v' := by
  have hkept := h.neat n hn
  have hnum : (v.inode m.toNat).addLink.iNum.toNat = m.toNat := h.well.num _ hm
  have hholds : v.Holds m.toNat (v.inode m.toNat).addLink := (h.owned _ hm).of_table rfl
  obtain ⟨hmem, hfnum, hputs⟩ := hkept.link hfew (fun _ => by rwa [hnum]) hname hlen hwrote
  generalize hu : v.stored (v.inode m.toNat).addLink = u at hwrote
  have hself : u.inode m.toNat = (v.inode m.toNat).addLink := by
    simp only [← hu, stored, hnum, Function.update_self]
  have hother : ∀ p, p ≠ m.toNat → u.inode p = v.inode p := fun p hp => by
    simp only [← hu, stored, hnum, Function.update_of_ne hp]
  have hsame : ∀ p, Same v u p := hu ▸ same_stored (by rw [hnum, Inode.addLink_iFmode])
    (by rw [hnum, Inode.addLink])
    (by rw [hnum, Inode.addLink_iDirectTable])
  have htaken : taken u = taken v := by rw [← hu, stored, taken, taken]
  have hw : Well (taken u) u := by
    rw [htaken, ← hu]
    exact h.well.stored (h.well.within _ hm)
  have ho : u.Owned := hu ▸ h.owned.stored fun _ => by rwa [hnum]
  have hnm : n.toNat ≠ m.toNat := fun heq => by
    have hdir := hn.2
    rw [heq, hfile] at hdir
    cases hdir
  rw [← hother _ hnm] at hwrote
  have hwrites : ∀ p ∈ taken v, p ≠ n.toNat → v'.inode p = u.inode p ∧ Same u v' p :=
    fun p hp hpn => hwrote.same_of_ne hw ho (htaken ▸ hn.1) (htaken ▸ hp) hpn
  obtain ⟨hmode, hlinks⟩ := hwrote.self (hw.num _ (htaken ▸ hn.1))
  rw [hother _ hnm] at hmode hlinks
  dsimp only at hmode hlinks
  have hedits : Edits v v' n ((v.inode n.toNat).iFnum.toNat + 2) (some (name, m)) :=
    ⟨hputs, hmem, hmode, fun p hp _ hpn => (hsame p).trans (hwrites p hp hpn).2⟩
  obtain ⟨hused, hdirs, hentry, hhome⟩ := hedits.of_taken hn (by omega) hfew (hwrote.taken_eq.trans
    htaken)
  rw [named_some hdot hdotdot] at hentry
  refine h.edit hn hedits (by omega) (plain_some hdot hdotdot) (.link hn ?_ hm ?_ hused hdirs hentry
    ?_ (fun p hp hpm => ?_) hhome)
    (hkept.puts hwell howned hstraight hmem hputs (by omega) (by omega) (by omega)) fun p hp hpv =>
      absurd (hdirs ▸ hp).1 hpv
  · rw [catalog_entry_of_mem hn, hkept.free _ le_rfl hfew]
    rfl
  · intro hdir
    have hdir := hdir.2
    rw [hfile] at hdir
    cases hdir
  · simp only [catalog, (hwrites _ hm hnm.symm).1, hself, Inode.addLink]
    rw [UInt16.toNat_add, Nat.mod_eq_of_lt (by simp only [UInt16.reduceToNat]; omega)]
    rfl
  · by_cases hpn : p.toNat = n.toNat
    · simp only [catalog, hpn, hlinks]
    · simp only [catalog, (hwrites _ hp hpn).1, hother _ fun heq => hpm (UInt32.toNat_inj.mp heq)]

end Enter

section Named
variable (hmax : (v.inode n.toNat).iFnum.toNat + 2 < 4294967295) {k : Nat} (hk : k < 384)
  {name : Text} {c : UInt32}
  (hentry : v.entry (v.inode n.toNat) k = some (name, c)) (hdot : name ≠ .dot)
    (hdotdot : name ≠ .dotdot)
include hmax hk hentry hdot hdotdot

theorem rename {newName : Text} (hname' : newName.bytes ≠ []) (hdot' : newName ≠ .dot)
    (hdotdot' : newName ≠ .dotdot)
    (hfits : newName.length < 125) {i' : Inode}
    (hwrote : Wrote v (v.inode n.toNat) (UInt32.ofNat k) ((Buffer.zero.setWord 0 c).putBytes 4
    newName.bytes) (i', v')) :
    Cataloged v' := by
  have hkept := h.neat n hn
  obtain ⟨h2, hlt⟩ := hkept.slot_bounds hk hentry hdot hdotdot
  obtain ⟨hmem, hfnum, hputs⟩ := hkept.rename hmax h2 hlt hk hfits hwrote
  rw [Text.entry_eq_some hname'] at hputs
  have hwrites : ∀ p ∈ taken v, p ≠ n.toNat → v'.inode p = v.inode p ∧ Same v v' p :=
    fun p hp hpn => hwrote.same_of_ne h.well h.owned hn.1 hp hpn
  obtain ⟨hmode, hlinks⟩ := hwrote.self (h.well.num _ hn.1)
  dsimp only at hmode hlinks
  have hedits : Edits v v' n k (some (newName, c)) :=
    ⟨hputs, hmem, hmode, fun p hp _ hpn => (hwrites p hp hpn).2⟩
  obtain ⟨hused, hdirs, hentry', hhome⟩ := hedits.of_taken hn h2 hk hwrote.taken_eq
  -- the entry names the same inode
  have hold : v.catalog.entry (n, ⟨k, hk⟩) = some c := by
    rw [catalog_entry_of_mem hn, hentry, named_some hdot hdotdot]
  rw [named_some hdot' hdotdot', ← hold, Function.update_eq_self] at hentry'
  refine h.edit hn hedits h2 (plain_some hdot' hdotdot') (.keep hused hdirs hentry' (fun p hp => ?_)
    hhome)
    (hkept.puts hwell howned hstraight hmem hputs h2 (by omega) (by omega)) fun p hp hpv => absurd
      (hdirs ▸ hp).1 hpv
  by_cases hpn : p.toNat = n.toNat
  · simp only [catalog, hpn, hlinks]
  · simp only [catalog, (hwrites _ hp hpn).1]

theorem rmdir (hlast : (v.inode c.toNat).iLinksCnt = 1)
    (hempty : ∀ m, v.catalog.entry (c, m) = none) {i' : Inode} {v₁ : Volume}
    (hwrote : Wrote (v.removed c.toNat) (v.inode n.toNat) (UInt32.ofNat k) .zero (i', v₁))
    (hv' : v' = v₁.stored i'.dropEntry) :
    Cataloged v' := by
  have hkept := h.neat n hn
  obtain ⟨h2, hlt⟩ := hkept.slot_bounds hk hentry hdot hdotdot
  have hx : v.catalog.entry (n, ⟨k, hk⟩) = some c := by
    rw [catalog_entry_of_mem hn, hentry, named_some hdot hdotdot]
  have hc : c.toNat ∈ taken v := (h.sound.target _ _ hx).1
  have hnc : n.toNat ≠ c.toNat := fun heq => by
    rw [UInt32.toNat_inj.mp heq, hempty] at hx
    cases hx
  obtain ⟨hmem, hfnum, hputs⟩ := hkept.rmdir hmax h2 hlt hk hc hnc hwrote
  rw [← hv'] at hmem hfnum hputs
  have hnum : i'.dropEntry.iNum.toNat = n.toNat := by
    rw [Inode.dropEntry_iNum, hwrote.iNum, hkept.num]
  have htaken : ∀ {p}, p ∈ taken v' ↔ p ∈ taken v ∧ p ≠ c.toNat := fun {p} => by
    rw [← mem_taken_removed, ← hwrote.taken_eq, hv']
    rfl
  have hw : Well (taken (v.removed c.toNat)) (v.removed c.toNat) :=
    (h.well.removed hc).mono fun p hp => (mem_taken_removed.mp hp).1
  -- the records and the blocks of the others are left alone
  have hwrites : ∀ p ∈ taken v, p ≠ c.toNat → p ≠ n.toNat → v'.inode p = v.inode p ∧ Same v v' p :=
      fun p hp hpc hpn => by
    obtain ⟨hinode, hsame⟩ := hwrote.same_of_ne hw (h.owned.removed hc) (mem_taken_removed.mpr
      ⟨hn.1, hnc⟩)
      (mem_taken_removed.mpr ⟨hp, hpc⟩) hpn
    have hstored : v'.inode p = v₁.inode p := by
      simp only [hv', stored, hnum, Function.update_of_ne hpn]
    refine ⟨hstored.trans hinode, by rw [hstored, hsame.iFmode, removed],
      by rw [hstored, hsame.iFnum, removed], fun k => ?_⟩
    rw [hstored, entry_congr (v := v₁) rfl fun _ _ => by rw [hv', stored], hsame.entry]
    exact entry_congr rfl fun _ _ => rfl
  have hself : v'.inode n.toNat = i'.dropEntry := by
    simp only [hv', stored, hnum, Function.update_self]
  have hlinks : i'.iLinksCnt = (v.inode n.toNat).iLinksCnt := hwrote.iLinksCnt
  have hedits : Edits v v' n k none := by
    refine ⟨hputs, hmem, ?_, fun p hp hp' hpn => (hwrites p hp (htaken.mp hp').2 hpn).2⟩
    rw [hself, Inode.dropEntry_iFmode, hwrote.iFmode]
  have hgone : ∀ p : UInt32, p.toNat ∉ taken v' → ∀ m, v.catalog.entry (p, m) = none :=
      fun p hp m => by
    by_cases hpv : p ∈ v.catalog.dirs
    · have hpc : p.toNat = c.toNat := by_contra fun hpc => hp (htaken.mpr ⟨hpv.1, hpc⟩)
      rw [UInt32.toNat_inj.mp hpc, hempty]
    · exact catalog_entry_of_notMem hpv m
  have hentry' := hedits.catalog_entry hn hk (fun p hp => catalog_entry_of_notMem fun hmem =>
    hp (htaken.mp hmem.1).1) hgone
  obtain ⟨hused, hdirs⟩ := hedits.of_sdiff (c := c) (Set.ext fun p => htaken)
  refine h.edit hn hedits h2 rfl (.unlink hx ?_ hempty hused hdirs hentry' (fun p hp hpc => ?_)
    fun p hp hpc => ?_)
    (hkept.puts hwell howned hstraight hmem hputs h2 (by omega) (by omega)) fun p hp hpv => absurd
      (htaken.mp hp.1).1 hpv
  · simp only [catalog, hlast]
    rfl
  · have hpc : p.toNat ≠ c.toNat := fun heq => hpc (UInt32.toNat_inj.mp heq)
    by_cases hpn : p.toNat = n.toNat
    · simp only [catalog, hpn, hself, Inode.dropEntry_iLinksCnt, hlinks]
    · simp only [catalog, (hwrites _ hp hpc hpn).1]
  · exact hedits.home h2 hp.1 (htaken.mpr ⟨hp.1, fun heq => hpc (UInt32.toNat_inj.mp heq)⟩)

end Named

end Step

theorem inSession (h : Cataloged v) {f : Session → Session}
    (hwell : Well (taken (v.inSession f)) (v.inSession f))
    (howned : (v.inSession f).Owned) (hstraight : (v.inSession f).Straight 0) :
    Cataloged (v.inSession f) := by
  have hsame : ∀ p, Same v (v.inSession f) p := fun p => ⟨rfl, rfl, fun _ => rfl⟩
  exact ⟨h.sound, fun p hp => (hsame _).neat (h.neat p hp) hwell howned hstraight hp.1, h.top⟩

section Call
variable (h : Cataloged v) {s : FileSys} (hs : Shows s v)
include h hs

theorem names_eq {p : UInt32} (hp : p ∈ v.catalog.dirs) (k : Fin 384) :
    s.names p k = v.catalog.entry (p, k) := by
  rw [FileSys.names, (h.neat p hp).shows_entry hs, catalog_entry_of_mem hp]

variable (hwell : Well (taken v') v') (howned : v'.Owned) (hstraight : v'.Straight 0)
include hwell howned hstraight

theorem made {e : Env} {op : Op} {name : Text} {fmode : UInt16} {content : Option (UInt32 → Block)}
    {q : Nat} {v₁ : Volume}
    {i i' : Inode} (htarget : v.target op = .ok (n, name)) (henters : s.Enters n name)
    (hload : v.load n = .ok i)
    (hmakes : Makes n op fmode content) (hmade : Made e v fmode content q v₁)
    (hwrote : Wrote v₁ i (i.iFnum + 2) (e.stack.fill (UInt32.ofNat q) name) (i', v')) :
    Cataloged v' := by
  obtain ⟨hn, hinode⟩ := mem_dirs_of_isDirectory hs henters.isDirectory
  obtain rfl : v.inode n.toNat = i := hinode.symm.trans (hs.load hload)
  have hlen := FileSys.length_of_target (eq_ok_of_refines (hs.target op) htarget)
  have hfew := henters.few
  rw [hinode] at hfew
  obtain ⟨hname, hdot, hdotdot⟩ := henters.proper
  exact h.create hwell howned hstraight hn hfew hname hdot hdotdot (by omega) hmakes hmade hwrote

theorem creates {V : Set Nat} {e : Env} {op : Op}
    (hop : ∀ n name, s.target op = .ok (n, name) → s.Finds n name ∨ s.Enters n name)
    (hc : Creates V e v op v') :
    Cataloged v' := by
  cases hc with
  | present => exact h
  | made habsent hadds =>
    obtain ⟨hn, htarget, hload, hmakes, hmade, hwrote⟩ := hadds
    refine h.made hs hwell howned hstraight htarget
      ((hop _ _ (eq_ok_of_refines (hs.target op) htarget)).resolve_left fun ⟨dnum, hdnum, hne⟩ =>
        hne ?_) hload hmakes hmade hwrote
    rw [hs.load hload, eq_ok_of_refines (hs.findDentry _ _) habsent] at hdnum
    exact (Except.ok.inj hdnum).symm

theorem links {e : Env} {srcPath newPath : Text} (hop : (Op.link srcPath newPath).KeepsLinks s)
    (hl : Links (taken v) e v srcPath newPath v') : Cataloged v' := by
  cases hl with
  | directory => exact h
  | @linked v' hlinked =>
    obtain @⟨name, m, n, i, i', j, hm, hn, hsrc, hsrcload, hfile, htarget, hload, hwrote⟩ := hlinked
    obtain hdir | ⟨huse, hmax, henters⟩ := hop.2 m (by
      rw [hs.currentDir_eq]
      exact eq_ok_of_refines (hs.parsePath _ _) hsrc)
    · rw [hs.load hsrcload, hfile] at hdir
      cases hdir
    have htarget := eq_ok_of_refines (hs.target _) htarget
    have hlen := FileSys.length_of_target htarget
    have henters := henters n name htarget
    rw [hs.load hsrcload] at hmax
    obtain rfl : v.inode m.toNat = j := Except.ok.inj ((load_of_lt huse.lt).symm.trans hsrcload)
    obtain ⟨hn, hinode⟩ := mem_dirs_of_isDirectory hs henters.isDirectory
    obtain rfl : v.inode n.toNat = i := hinode.symm.trans (hs.load hload)
    have hfew := henters.few
    rw [hinode] at hfew
    obtain ⟨hname, hdot, hdotdot⟩ := henters.proper
    exact h.link hwell howned hstraight hn hfew hname hdot hdotdot (by omega) (huse.shows hs) hfile
      hmax hwrote

omit hwell howned hstraight

theorem of_entryOf {name : Text} {c : UInt32} {i : Inode} (hof : s.EntryOf n name)
    (hlen : name.length < 124)
    (hload : v.load n = .ok i) (hchild : v.findFile i name = .ok c) :
    n ∈ v.catalog.dirs ∧ v.inode n.toNat = i ∧ i.iFnum.toNat + 2 < 4294967295 ∧
      ∃ k < 384, v.findDentry i name = .ok (UInt32.ofNat k) ∧ v.entry i k = some (name, c) := by
  obtain ⟨hn, hinode⟩ := mem_dirs_of_isDirectory hs hof.isDirectory
  have hi := hs.load hload
  have hc := hof.found c (by rw [hi]; exact eq_ok_of_refines (hs.findFile _ _) hchild)
  have hbound := hof.bound
  rw [hi] at hbound
  obtain rfl : v.inode n.toNat = i := hinode.symm.trans hi
  obtain ⟨k, hk, hdnum, hentry⟩ := entry_of_findFile (h.well.within _ hn.1) hof.proper.nonempty hlen
    hchild hc
  exact ⟨hn, rfl, hbound, k, by omega, hdnum, hentry⟩

include hwell howned hstraight

theorem renames {oldName newName : Text} (hop : (Op.rename oldName newName).KeepsLinks s)
    (hr : Renames (taken v) v oldName newName v') : Cataloged v' := by
  cases hr with
  | @intro name n c dnum i i' hn htarget hload hchild hdnum hfits hwrote =>
    have htarget := eq_ok_of_refines (hs.target _) htarget
    have hi := hs.load hload
    obtain hrefused | ⟨rfl, hof, hproper⟩ := hop.2 n name dnum htarget (by
      rw [hi]
      exact eq_ok_of_refines (hs.findDentry _ _) hdnum)
    · rw [hi] at hrefused
      obtain rfl : v' = v := hwrote.eq_of_refused hrefused
      exact h
    · have hlen := FileSys.length_of_target htarget
      obtain ⟨hn, rfl, hbound, k, hk, hdnum', hentry⟩ := h.of_entryOf hs hof (by omega) hload hchild
      obtain rfl := Except.ok.inj (hdnum.symm.trans hdnum')
      exact h.rename hwell howned hstraight hn hbound hk hentry hof.proper.dot hof.proper.dotdot
        hproper.nonempty
        hproper.dot hproper.dotdot hfits hwrote

theorem removes {path : Text} (hop : (Op.rmdir path).KeepsLinks s)
    (hr : Removes (taken v) v path v') :
    Cataloged v' := by
  cases hr with
  | @intro name n c dnum i i' v₁ hn htarget hload hchild hc hdnum hwrote =>
    have htarget := eq_ok_of_refines (hs.target _) htarget
    obtain ⟨hof, hlast⟩ := hop.2 n name htarget
    have hlen := FileSys.length_of_target htarget
    obtain ⟨hcount, hempty⟩ := hlast c (by
      rw [hs.load hload]
      exact eq_ok_of_refines (hs.findFile _ _) hchild)
    obtain ⟨hn, rfl, hbound, k, hk, hdnum', hentry⟩ := h.of_entryOf hs hof (by omega) hload hchild
    obtain rfl := Except.ok.inj (hdnum.symm.trans hdnum')
    have hinode : s.syncFromDiskInode c = v.inode c.toNat :=
      hs.load (load_of_lt hc.1)
    rw [hinode] at hcount hempty
    refine h.rmdir hwell howned hstraight hn hbound hk hentry hof.proper.dot hof.proper.dotdot
      hcount (fun m => ?_) hwrote rfl
    by_cases hdir : c ∈ v.catalog.dirs
    · rw [← h.names_eq hs hdir]
      exact hempty hdir.2 m
    · exact catalog_entry_of_notMem hdir m

end Call

theorem step (h : Cataloged v) {s t : FileSys} (hs : Shows s v) {e : Env} {op : Op}
    (hop : op.KeepsLinks s)
    (hexec : Fs.exec e op s = .ok t) : ∃ v', Shows t v' ∧ Cataloged v' := by
  have hfile : ∀ fd data, op ≠ .fwrite fd data := by
    rintro fd data rfl
    exact hop.2
  obtain ⟨v', hv', hdoes, hwell⟩ := hop.1.does hs h.well (removable_of_straight h.straight op) hexec
  have howned := h.owned.change h.well hdoes.change
  have hstraight := h.straight.change h.well hfile hdoes.change
  have hquiet : op.Quiet ∨ (∃ name, op = .cd name) → Cataloged v' := fun hq => by
    obtain ⟨f, rfl⟩ := hdoes.change.exists_inSession hq
    exact h.inSession hwell howned hstraight
  cases op with
  | mkdir path mode => exact ⟨v', hv', h.creates hs hwell howned hstraight hop.2 hdoes⟩
  | touch name mode => exact ⟨v', hv', h.creates hs hwell howned hstraight hop.2 hdoes⟩
  | symlink srcPath newPath =>
    refine ⟨v', hv', ?_⟩
    cases hdoes with
    | session f => exact h.inSession hwell howned hstraight
    | create hadds =>
      obtain ⟨hn, htarget, hload, hmakes, hmade, hwrote⟩ := hadds
      exact h.made hs hwell howned hstraight htarget (hop.2 _ _ (eq_ok_of_refines (hs.target _)
        htarget)) hload hmakes hmade hwrote
  | link srcPath newPath => exact ⟨v', hv', h.links hs hwell howned hstraight hop hdoes⟩
  | rename oldName newName =>
    obtain ⟨v', hv', hrenames, hwell⟩ := hop.1.renames hs h.well hexec
    exact ⟨v', hv', h.renames hs hwell (h.owned.change h.well (.rename (e := e) hrenames))
      (h.straight.change h.well hfile (.rename (e := e) hrenames))
      hop hrenames⟩
  | rmdir path => exact ⟨v', hv', h.removes hs hwell howned hstraight hop hdoes⟩
  | fwrite fd data => exact absurd rfl (hfile fd data)
  | cd name => exact ⟨v', hv', hquiet (.inr ⟨name, rfl⟩)⟩
  | _ => exact ⟨v', hv', hquiet (.inl trivial)⟩

end Cataloged

theorem cataloged_mkfs (e : Env) (s : FileSys) : Cataloged (Volume.mkfs e s) := by
  have hdir : Dir (Volume.mkfs e s) (UInt32.toNat 0) [(.dot, 0), (.dotdot, 0)] :=
    (tree_mkfs e s).dir 0 _ rfl
  have hused : (Volume.mkfs e s).catalog.used = {0} := Set.ext fun p => by
    simp only [catalog, taken_mkfs, Set.mem_ofPred_eq, Set.mem_singleton_iff, ← UInt32.toNat_inj,
      UInt32.toNat_zero]
  have hdirs : (Volume.mkfs e s).catalog.dirs = {0} := by
    refine Set.Subset.antisymm (fun p hp => hused ▸ hp.1) ?_
    rintro p rfl
    exact ⟨⟨hdir.lt, hdir.inodeBit⟩, hdir.mode⟩
  refine ⟨Catalog.sound_of_root hused hdirs ?_, fun p hp => ?_, ?_⟩
  · rintro ⟨p, k⟩
    by_cases hp : p ∈ (Volume.mkfs e s).catalog.dirs
    · rw [catalog_entry_of_mem hp]
      rw [hdirs] at hp
      obtain rfl := hp
      exact named_of_dots hdir k
    · exact catalog_entry_of_notMem hp k
  · rw [hdirs] at hp
    obtain rfl := hp
    have hkept := kept_mkfs e s
    exact neat_of_dots hdir ⟨rfl, rfl, fun _ => rfl⟩ hkept.well hkept.owned hkept.straight hkept.mem
  · simp only [catalog, (entries_of_dots hdir).2.1]
    rfl

theorem Cataloged.entry_taken {v : Volume} (h : Cataloged v) {p : UInt32} (hp : p ∈ v.catalog.dirs)
    {k : Nat} (hk : k < 384) {name : Text} {q : UInt32}
    (hentry : v.entry (v.inode p.toNat) k = some (name, q)) : q.toNat ∈ taken v := by
  have hneat := h.neat p hp
  obtain rfl | rfl | h2 : k = 0 ∨ k = 1 ∨ 2 ≤ k := by omega
  · rw [hneat.self] at hentry
    obtain ⟨-, rfl⟩ := Prod.mk.inj (Option.some.inj hentry)
    exact hp.1
  · have hhome : v.catalog.home p = q := by simp only [catalog, hentry, Option.elim_some]
    by_cases hp0 : p = 0
    · rw [hp0, h.top] at hhome
      exact hhome ▸ h.sound.start.1
    · obtain ⟨j, hj⟩ := h.sound.home p hp hp0
      rw [hhome] at hj
      exact (h.sound.slot _ _ hj).1
  · have hplain := hneat.plain k h2 hk
    rw [Plain, hentry, Option.map_some] at hplain
    have hnamed : v.catalog.entry (p, ⟨k, hk⟩) = some q := by
      rw [catalog_entry_of_mem hp, hentry, hplain]
    exact (h.sound.target _ _ hnamed).1

namespace Cataloged
variable {v : Volume} (h : Cataloged v) {s : FileSys} (hs : Shows s v)
include h hs

theorem reaches_iff {p : UInt32} : s.Reaches p ↔ p ∈ v.catalog.dirs := by
  constructor
  · intro hp
    induction hp with
    | root => exact h.sound.start
    | @child p q k hp hk hq ih =>
      rw [h.names_eq hs ih] at hk
      have hmem := (h.sound.target _ _ hk).1
      rw [hs.load (load_of_lt hmem.1)] at hq
      exact ⟨hmem, hq⟩
  · intro hp
    induction h.sound.reaches p hp with
    | root => exact .root
    | @child p q k hp' hk hq ih =>
      have hp'' := h.sound.slot _ _ hk
      refine .child (ih hp'') ((h.names_eq hs hp'' k).trans hk) ?_
      rw [hs.load (load_of_lt hq.1.1)]
      exact hq.2

theorem linksTo_eq (q : UInt32) : s.linksTo q = v.catalog.names q := by
  ext ⟨p, k⟩
  constructor
  · rintro ⟨hp, hk⟩
    rwa [h.names_eq hs ((h.reaches_iff hs).mp hp)] at hk
  · intro hk
    have hp := h.sound.slot _ _ hk
    exact ⟨(h.reaches_iff hs).mpr hp, (h.names_eq hs hp k).trans hk⟩

theorem linksExact : s.LinksExact := by
  refine ⟨fun q hq hlt => ?_, fun q hq huse => ?_, fun p hp k name q hentry => ?_⟩
  · rw [h.linksTo_eq hs, ← hs.inodeBit _ hlt]
    refine ⟨fun hbit => h.sound.named q ⟨hlt, hbit⟩ hq, ?_⟩
    rintro ⟨x, hx⟩
    exact (h.sound.target x q hx).1.2
  · rw [h.linksTo_eq hs, ← h.sound.links q (huse.shows hs) hq, hs.load
      (load_of_lt huse.lt)]
    rfl
  · have hp := (h.reaches_iff hs).mp hp
    rw [(h.neat p hp).shows_entry hs] at hentry
    obtain ⟨hlt, hbit⟩ := h.entry_taken hp k.isLt hentry
    exact ⟨hlt, (hs.inodeBit _ hlt).symm.trans hbit⟩

end Cataloged

end Volume

theorem links_counted {t : FileSys} (h : Reach Op.KeepsLinks t) : t.LinksExact := by
  obtain ⟨v, hv, hcataloged⟩ := h.invariant (I := Volume.Cataloged) Volume.cataloged_mkfs
    fun {s t v e op} hs hcataloged hop hexec => hcataloged.step hs hop hexec
  exact hcataloged.linksExact hv

theorem keepsLinks_mkfs {e : Env} {s t : FileSys} (ht : Shows t (Volume.mkfs e s)) :
    (Op.mkdir (Text.dot.child .a) 0).KeepsLinks t := by
  have hkeeps := keeps_mkfs ht
  refine ⟨hkeeps.regular, fun n name hn => .inr ?_⟩
  have hroot : t.target (.mkdir (Text.dot.child .a) 0) = .ok (0, .a) :=
    eq_ok_of_refines (ht.target _) mkfs_parentOf
  obtain ⟨rfl, rfl⟩ := Prod.mk.inj (Except.ok.inj (hn.symm.trans hroot))
  exact ⟨isDirectory_mkfs ht, hkeeps.2.1, by decide, by decide, by decide⟩

theorem links_counted_one : ∃ s t, FileSys.blank.doMkfs .blank = .ok s ∧
    exec .blank (.mkdir (Text.dot.child .a) 0) s = .ok t ∧ t.InUse 1 ∧ t.LinksExact := by
  obtain ⟨s, hs, hshows⟩ := doMkfs_shows .blank .blank
  obtain ⟨t, v, hexec, hv, hbit⟩ := hshows.exists_exec (.mkdir (Text.dot.child .a) 0)
    (q := fun v => v.inodeBit 1) (by decide +kernel)
  have hreach : Reach Op.KeepsLinks t :=
    ⟨_, _, s, hs, .single ⟨_, _, keepsLinks_mkfs hshows, hexec⟩⟩
  exact ⟨s, t, hs, hexec, ⟨by decide, (hv.inodeBit 1 (by omega)).symm.trans hbit⟩,
    links_counted hreach⟩

/-- `mkdir ./a; mkdir a/b; rmdir ./a`. -/
theorem rmdir_loses_inner : ∃ s₀ s₁ s₂ t, FileSys.blank.doMkfs .blank = .ok s₀ ∧
    exec .blank (.mkdir (Text.dot.child .a) 0) s₀ = .ok s₁ ∧
    exec .blank (.mkdir (Text.a.child .b) 0) s₁ = .ok s₂ ∧
    exec .blank (.rmdir (Text.dot.child .a)) s₂ = .ok t ∧ t.InUse 2 ∧ t.linksTo 2 = ∅ ∧
    ¬ t.LinksExact := by
  obtain ⟨s₀, hs₀, hshows⟩ := doMkfs_shows .blank .blank
  obtain ⟨s₁, v₁, hs₁, hv₁, hmkdir⟩ := hshows.exists_exec (.mkdir (Text.dot.child .a) 0)
    (q := fun v : Volume =>
      (v.exec .blank (.mkdir (Text.a.child .b) 0)).toOption.any fun v : Volume =>
      (v.exec .blank (.rmdir (Text.dot.child .a))).toOption.any fun v : Volume => v.inodeBit 2 &&
        (List.finRange 384).all fun k => v.entryMeets 0 k fun x => named x == none)
    (by decide +kernel)
  obtain ⟨s₂, v₂, hs₂, hv₂, hrmdir⟩ := hv₁.exists_exec _ hmkdir
  obtain ⟨t, v, ht, hv, hp⟩ := hv₂.exists_exec _ hrmdir
  obtain ⟨hbit, hall⟩ := Bool.and_eq_true_iff.mp hp
  have huse : t.InUse 2 := ⟨by decide, (hv.inodeBit 2 (by omega)).symm.trans hbit⟩
  have hnames : ∀ k, t.names 0 k = none := fun k =>
    eq_of_beq (hv.of_entryMeets (List.all_eq_true.mp hall k (List.mem_finRange k)) :)
  have hreach : ∀ p, t.Reaches p → p = 0 := fun p hp => by
    induction hp with
    | root => rfl
    | child _ hk _ ih =>
      subst ih
      rw [hnames] at hk
      cases hk
  have hnone : t.linksTo 2 = ∅ := Set.eq_empty_iff_forall_notMem.mpr fun x hx => by
    obtain ⟨hp, hk⟩ := hx
    rw [hreach _ hp, hnames] at hk
    cases hk
  refine ⟨s₀, s₁, s₂, t, hs₀, hs₁, hs₂, ht, huse, hnone, fun hexact => ?_⟩
  have hlink := (hexact.used 2 (by decide) huse.lt).mp huse.allocated
  rw [hnone] at hlink
  exact Set.not_nonempty_empty hlink

end Ucas.Fs

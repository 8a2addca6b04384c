import UcasOs.Fs.Release
import UcasOs.Fs.Nested

/-! A directory made in the current directory, and removed again, on a file system in good order:
every block in use belongs to one place of one inode. -/

namespace Ucas.Fs
open Ucas.Lib

namespace FileSys
variable (s : FileSys)

def Refers (q : Nat) (P : Place) (b : Nat) : Prop :=
  q < 8192 ∧ s.inodebmp.bit q = true ∧ P.InLayout ∧ P.value s (s.syncFromDiskInode (UInt32.ofNat q))
    ≠ 0 ∧
    (P.value s (s.syncFromDiskInode (UInt32.ofNat q))).toNat = b

/-- A data block is in use exactly if one place of one inode refers to it. -/
structure OwnsExactly : Prop where
  data : ∀ q P b, s.Refers q P b → b ∈ dataBlocks
  bit : ∀ b ∈ dataBlocks, (s.blockbmp.bit b = true ↔ ∃ q P, s.Refers q P b)
  once : ∀ q P q' P' b, s.Refers q P b → s.Refers q' P' b → q = q' ∧ P = P'

structure CurrentDir (n : Nat) : Prop where
  lt : n < 8192
  allocated : s.inodebmp.bit n = true
  isDirectory : sIsdir (s.syncFromDiskInode (UInt32.ofNat n)).iFmode = true
  block : (s.syncFromDiskInode (UInt32.ofNat n)).iDirectTable 0 ≠ 0
  copy : s.currentDir.iDirectTable 0 = (s.syncFromDiskInode (UInt32.ofNat n)).iDirectTable 0
  named : Named (s.readBlock (s.currentDir.iDirectTable 0))
  dot : (dentryAt (s.readBlock (s.currentDir.iDirectTable 0)) 0).dName = .dot
  self : (dentryAt (s.readBlock (s.currentDir.iDirectTable 0)) 0).dInum = UInt32.ofNat n
  dotdot : (dentryAt (s.readBlock (s.currentDir.iDirectTable 0)) 1).dName = .dotdot
  vacant : ∀ j, (s.syncFromDiskInode (UInt32.ofNat n)).iFnum.toNat + 2 ≤ j → j < 32 →
    (dentryAt (s.readBlock (s.currentDir.iDirectTable 0)) j).dInum = 0 ∧
      (dentryAt (s.readBlock (s.currentDir.iDirectTable 0)) j).dName = .empty

/-- A file system in good order, with the current directory `n`. -/
structure WellFormed (n : Nat) : Prop extends s.Mounted where
  num : ∀ q < 8192, s.inodebmp.bit q = true → (s.syncFromDiskInode (UInt32.ofNat q)).iNum =
    UInt32.ofNat q
  owned : s.OwnsExactly
  here : s.CurrentDir n

/-- The current directory `n` can take one more directory, with a name it does not have. -/
structure CanMake (n : Nat) (name : Text) : Prop where
  inode : ∃ q < 8192, s.inodebmp.bit q = false
  block : ∃ b < 262144, s.blockbmp.bit b = false
  room : (s.syncFromDiskInode (UInt32.ofNat n)).iFnum.toNat + 2 < 32
  nonempty : name.bytes ≠ []
  plain : Text.slash ∉ name.bytes
  short : name.length < 64
  absent : ∀ j < 32, (dentryAt (s.readBlock (s.currentDir.iDirectTable 0)) j).dName ≠ name

/-- The record of inode `q` and all blocks of its tree are the same. -/
def SameFile (s t : FileSys) (q : Nat) : Prop :=
  t.syncFromDiskInode (UInt32.ofNat q) = s.syncFromDiskInode (UInt32.ofNat q) ∧
    ∀ P : Place, P.InLayout →
      P.value t (s.syncFromDiskInode (UInt32.ofNat q)) = P.value s (s.syncFromDiskInode
        (UInt32.ofNat q)) ∧
      (P.value s (s.syncFromDiskInode (UInt32.ofNat q)) ≠ 0 →
        t.readBlock (P.value s (s.syncFromDiskInode (UInt32.ofNat q))) =
          s.readBlock (P.value s (s.syncFromDiskInode (UInt32.ofNat q))))

variable {s}

theorem sameFile_of_blocks {t : FileSys} {q : Nat} (hq : q < 8192) (hbit : s.inodebmp.bit q = true)
    (hinode : t.syncFromDiskInode (UInt32.ofNat q) = s.syncFromDiskInode (UInt32.ofNat q))
    (hblock : ∀ P b, s.Refers q P b → t.readBlock (UInt32.ofNat b) = s.readBlock (UInt32.ofNat b)) :
    s.SameFile t q := by
  have hread : ∀ P : Place, P.InLayout → P.value s (s.syncFromDiskInode (UInt32.ofNat q)) ≠ 0 →
      t.readBlock (P.value s (s.syncFromDiskInode (UInt32.ofNat q))) =
        s.readBlock (P.value s (s.syncFromDiskInode (UInt32.ofNat q))) := fun P hP hne => by
    have hplace := hblock P _ ⟨hq, hbit, hP, hne, rfl⟩
    rwa [UInt32.ofNat_toNat] at hplace
  refine ⟨hinode, fun P hP => ⟨?_, hread P hP⟩⟩
  cases P with
  | direct k => rfl
  | indirect level path =>
    refine (path_congr fun pre m rest hpath hne =>
      hread (.indirect level pre) ⟨?_, fun k hk => ?_⟩ hne).1
    · have hlen := hP.1
      rw [hpath, List.length_append, List.length_cons] at hlen
      omega
    · exact hP.2 k (by rw [hpath]; exact List.mem_append_left _ hk)

end FileSys

structure Parent (v : Volume) (n : Nat) (name : Text) (q b : Nat) : Prop where
  low : ∀ k, k < 266 → v.blockBit k = true
  lt : n < 8192
  num : (v.inode n).iNum.toNat = n
  taken : v.inodeBit n = true
  data : ((v.inode n).iDirectTable 0).toNat ∈ dataBlocks
  bit : v.blockBit ((v.inode n).iDirectTable 0).toNat = true
  copy : v.currentDir.iDirectTable 0 = (v.inode n).iDirectTable 0
  named : Named (v.block ((v.inode n).iDirectTable 0).toNat)
  dot : (dentryAt (v.block ((v.inode n).iDirectTable 0).toNat) 0).dName = .dot
  self : (dentryAt (v.block ((v.inode n).iDirectTable 0).toNat) 0).dInum = UInt32.ofNat n
  room : (v.inode n).iFnum.toNat + 2 < 32
  vacantInum : (dentryAt (v.block ((v.inode n).iDirectTable 0).toNat)
    ((v.inode n).iFnum.toNat + 2)).dInum = 0
  vacantName : (dentryAt (v.block ((v.inode n).iDirectTable 0).toNat)
    ((v.inode n).iFnum.toNat + 2)).dName = .empty
  nonempty : name.bytes ≠ []
  plain : Text.slash ∉ name.bytes
  short : name.length < 64
  absent : ∀ j < 32, (dentryAt (v.block ((v.inode n).iDirectTable 0).toNat) j).dName ≠ name
  inode : firstClear v.inodeBit 8192 = some q
  block : firstClear v.blockBit 262144 = some b

namespace Parent
variable {v : Volume} {n q b : Nat} {name : Text} (h : Parent v n name q b)

def entered (e : Env) (v : Volume) (n q : Nat) (name : Text) : Block :=
  putDentry (v.block ((v.inode n).iDirectTable 0).toNat) ((v.inode n).iFnum.toNat + 2)
    (e.stack.fill (UInt32.ofNat q) name)

def made (e : Env) (mode : UInt16) (v : Volume) (n q b : Nat) (name : Text) : Volume :=
  ((((v.created q (newInode e (sIfdir ||| mode) 4096 (UInt32.ofNat b) (UInt32.ofNat q))).allotted b
    (directoryBlock (UInt32.ofNat q) (UInt32.ofNat n))).stored (v.inode n).addEntry).wrote
      ((v.inode n).iDirectTable 0).toNat (entered e v n q name))

def unmade (e : Env) (mode : UInt16) (v : Volume) (n q b : Nat) (name : Text) : Volume :=
  ((((made e mode v n q b name).removed q).stored (v.inode n).addEntry.addEntry).wrote
    ((v.inode n).iDirectTable 0).toNat
    (putDentry (entered e v n q name) ((v.inode n).iFnum.toNat + 2) .zero)).stored
      (v.inode n).addEntry.addEntry.dropEntry

include h

theorem q_lt : q < 8192 := (firstClear_eq_some.mp h.inode).1

theorem q_toNat : (UInt32.ofNat q).toNat = q := toNat_ofNat_of_lt (by have := h.q_lt; omega)

theorem q_ne : q ≠ n := by
  rintro rfl
  exact absurd h.taken (by rw [(firstClear_eq_some.mp h.inode).2.1]; decide)

theorem b_lt : b < 262144 := (firstClear_eq_some.mp h.block).1

theorem b_data : b ∈ dataBlocks := Volume.firstClear_mem_dataBlocks h.low h.block

theorem b_toNat : (UInt32.ofNat b).toNat = b := toNat_of_mem_dataBlocks h.b_data

theorem b_ne : ((v.inode n).iDirectTable 0).toNat ≠ b := fun heq =>
  absurd h.bit (by rw [heq, (firstClear_eq_some.mp h.block).2.1]; decide)

theorem slot_toNat : ((v.inode n).iFnum + 2).toNat = (v.inode n).iFnum.toNat + 2 := by
  have hroom := h.room
  simp only [UInt32.toNat_add, UInt32.reduceToNat]
  omega

theorem number : (UInt32.ofNat n).toNat = n := toNat_ofNat_of_lt (by have := h.lt; omega)

theorem load : v.load (UInt32.ofNat n) = .ok (v.inode n) := by
  rw [Volume.load_of_lt (by rw [h.number]; exact h.lt), h.number]

theorem separate : separatePath (Text.dot.child name) 64 = .ok (.dot, name) := by
  have hlen := h.short
  refine Text.separatePath_child (by decide) h.plain h.short ?_
  rw [Text.length, Text.child_bytes, List.length_append, List.length_cons]
  rw [Text.length] at hlen
  have hdot : Text.dot.bytes.length = 1 := rfl
  omega

theorem findFile (i : Inode) (hi : i.iDirectTable 0 = (v.inode n).iDirectTable 0) (other : Text) :
    v.findFile i other =
    .ok ((slotOf (v.block ((v.inode n).iDirectTable 0).toNat) other).elim notFound
      fun j => (dentryAt (v.block ((v.inode n).iDirectTable 0).toNat) j).dInum) := by
  rw [← hi]
  exact Volume.findFile_eq (hi ▸ h.data) (hi ▸ h.named)

theorem parentOf : v.parentOf (Text.dot.child name) = .ok (UInt32.ofNat n, name) := by
  have hslot : slotOf (v.block ((v.inode n).iDirectTable 0).toNat) .dot = some 0 :=
    slotOf_eq_some.mpr ⟨by omega, h.dot, fun j hj => absurd hj (by omega)⟩
  rw [Volume.parentOf, h.separate, exactly_ok, ok_bind]
  dsimp only
  rw [h.findFile _ h.copy, hslot, ok_bind, Option.elim_some, h.self]
  rfl

theorem mkdir_eq (e : Env) (mode : UInt16) :
    v.mkdir e (Text.dot.child name) mode = .ok (0, made e mode v n q b name) := by
  have hslot := h.slot_toNat
  have habsent : v.findDentry (v.inode n) name = .ok notFound := by
    rw [Volume.findDentry_eq h.data h.named, slotOf_eq_none.mpr h.absent]
    rfl
  have hcreated : ((v.created q (newInode e (sIfdir ||| mode) 4096 (UInt32.ofNat b)
    (UInt32.ofNat q))).allotted b
      (directoryBlock (UInt32.ofNat q) (UInt32.ofNat n))).block ((v.inode n).iDirectTable 0).toNat =
        v.block ((v.inode n).iDirectTable 0).toNat := Function.update_of_ne h.b_ne _ _
  rw [Volume.mkdir_eq h.low h.parentOf h.load habsent h.inode h.block, Volume.appendDentry,
    Volume.writeDentry_first _ (by rw [h.num]; exact h.lt)
      ⟨by rw [UInt32.le_iff_toNat_le, hslot]; simp, UInt32.le_refl _⟩ (by rw [hslot]; exact h.room)
        h.data, hcreated, hslot]
  simp only [ok_bind, pure_eq_ok, made, entered]

section Made
variable (e : Env) (mode : UInt16)

theorem made_parent : (made e mode v n q b name).inode n = (v.inode n).addEntry := by
  have hnum : (v.inode n).addEntry.iNum.toNat = n := h.num
  simp only [made, Volume.wrote, Volume.stored, hnum, Function.update_self]

theorem made_child : (made e mode v n q b name).inode q =
    newInode e (sIfdir ||| mode) 4096 (UInt32.ofNat b) (UInt32.ofNat q) := by
  have hnum : (v.inode n).addEntry.iNum.toNat = n := h.num
  simp only [made, Volume.wrote, Volume.stored, Volume.allotted, Volume.created, hnum,
    Function.update_of_ne h.q_ne,
    Function.update_self]

theorem made_other {m : Nat} (hn : m ≠ n) (hq : m ≠ q) :
    (made e mode v n q b name).inode m = v.inode m := by
  have hnum : (v.inode n).addEntry.iNum.toNat = n := h.num
  simp only [made, Volume.wrote, Volume.stored, Volume.allotted, Volume.created, hnum,
    Function.update_of_ne hn,
    Function.update_of_ne hq]

omit h in
theorem made_block_parent :
    (made e mode v n q b name).block ((v.inode n).iDirectTable 0).toNat = entered e v n q name :=
  Function.update_self ..

theorem made_block_child :
    (made e mode v n q b name).block b = directoryBlock (UInt32.ofNat q) (UInt32.ofNat n) := by
  simp only [made, Volume.wrote, Volume.stored, Volume.allotted, Function.update_of_ne h.b_ne.symm,
    Function.update_self]

omit h in
theorem made_block_other {k : Nat} (hp : k ≠ ((v.inode n).iDirectTable 0).toNat) (hb : k ≠ b) :
    (made e mode v n q b name).block k = v.block k := by
  simp only [made, Volume.wrote, Volume.stored, Volume.allotted, Volume.created,
    Function.update_of_ne hp,
    Function.update_of_ne hb]

theorem named_entered : Named (entered e v n q name) :=
  h.named.put (terminated_fill (by have := h.short; omega))

theorem slotOf_entered (other : Text) (hother : other.bytes ≠ []) :
    slotOf (entered e v n q name) other =
    if other = name then some ((v.inode n).iFnum.toNat + 2)
    else slotOf (v.block ((v.inode n).iDirectTable 0).toNat) other := by
  have hname : (e.stack.fill (UInt32.ofNat q) name).dName = name :=
    dName_fill (by have := h.short; omega)
  split_ifs with heq
  · have hnew : ∀ j < (v.inode n).iFnum.toNat + 2,
      (dentryAt (v.block ((v.inode n).iDirectTable 0).toNat) j).dName ≠
        (e.stack.fill (UInt32.ofNat q) name).dName := fun j hj => by
      rw [hname]
      exact h.absent j (hj.trans h.room)
    have hself := slotOf_put_self h.room hnew
    rw [hname] at hself
    rw [heq]
    exact hself
  · refine slotOf_put_of_ne (fun hd => heq (by rw [← hd, hname])) fun hold => hother ?_
    rw [← hold, h.vacantName]
    rfl

theorem findFile_made {i : Inode} (hi : i.iDirectTable 0 = (v.inode n).iDirectTable 0)
    {other : Text}
    (hother : other.bytes ≠ []) : (made e mode v n q b name).findFile i other =
      if other = name then .ok (UInt32.ofNat q) else v.findFile i other := by
  have hblock : (made e mode v n q b name).block (i.iDirectTable 0).toNat = entered e v n q
      name := by
    rw [hi, made_block_parent]
  rw [Volume.findFile_eq (hi ▸ h.data) (hblock ▸ h.named_entered e), hblock, h.slotOf_entered e
    other hother,
    h.findFile i hi]
  split_ifs with heq
  · rw [Option.elim_some, entered, dentryAt_putDentry _ _ h.room, if_pos rfl, dInum_fill]
  · cases hslot : slotOf (v.block ((v.inode n).iDirectTable 0).toNat) other with
    | none => rw [Option.elim_none, Option.elim_none]
    | some j =>
      obtain ⟨hj, hname, -⟩ := slotOf_eq_some.mp hslot
      have hne : j ≠ (v.inode n).iFnum.toNat + 2 := fun hjn => hother (by
        rw [← hname, hjn, h.vacantName]
        rfl)
      rw [Option.elim_some, Option.elim_some, entered, dentryAt_putDentry _ _ hj, if_neg hne]

theorem findFile_child {other : Text} (hother : other.bytes ≠ []) :
    (made e mode v n q b name).findFile ((made e mode v n q b name).inode q) other =
      .ok (if other = .dot then UInt32.ofNat q else if other = .dotdot then UInt32.ofNat n else
      notFound) := by
  have hb := h.b_toNat
  have hfirst : (((made e mode v n q b name).inode q).iDirectTable 0).toNat = b := by
    rw [h.made_child]
    simpa [newInode] using hb
  exact Volume.findFile_new (by rw [hfirst]; exact h.b_data) (by rw [hfirst, h.made_block_child])
    hother

theorem findDentry_made :
    (made e mode v n q b name).findDentry (v.inode n).addEntry name = .ok ((v.inode n).iFnum + 2) :=
      by
  have hblock : (made e mode v n q b name).block ((v.inode n).addEntry.iDirectTable 0).toNat =
      entered e v n q name :=
    made_block_parent e mode
  rw [Volume.findDentry_eq (i := (v.inode n).addEntry) h.data (hblock ▸ h.named_entered e), hblock,
    h.slotOf_entered e name h.nonempty, if_pos rfl,
    Option.elim_some, ← h.slot_toNat, UInt32.ofNat_toNat]

theorem leading_child : Volume.leading ((made e mode v n q b name).inode q) = [UInt32.ofNat b] := by
  have hb : UInt32.ofNat b ≠ 0 := ne_zero_of_mem_dataBlocks (h.b_toNat.symm ▸ h.b_data)
  rw [h.made_child]
  simp [Volume.leading, newInode, List.finRange_succ, hb]

theorem remove_child : ((made e mode v n q b name).freeInode (UInt32.ofNat q) >>= fun u =>
    u.release ((made e mode v n q b name).inode q)) = .ok ((made e mode v n q b name).removed
    q) := by
  have hq := h.q_toNat
  have hb := h.b_toNat
  have hbound : ∀ p ∈ Volume.leading ((made e mode v n q b name).inode q), p.toNat < 262144 := by
    rw [h.leading_child]
    simpa [hb] using h.b_lt
  rw [Volume.freeInode, hq, if_pos h.q_lt, ok_bind, Volume.release, if_pos ⟨hbound,
    .inl (by rw [h.leading_child]; simp)⟩]
  rfl

theorem rmdir_eq :
    (made e mode v n q b name).rmdir (Text.dot.child name) = .ok (unmade e mode v n q b name) := by
  have hq := h.q_toNat
  have hnum : (v.inode n).addEntry.iNum.toNat < 8192 := h.num.symm ▸ h.lt
  have hdot : v.findFile v.currentDir .dot = .ok (UInt32.ofNat n) := by
    rw [h.findFile _ h.copy, slotOf_eq_some.mpr ⟨by omega, h.dot, fun j hj => absurd hj (by omega)⟩,
      Option.elim_some, h.self]
  have hne : Text.dot ≠ name := fun heq => h.absent 0 (by omega) (h.dot.trans heq)
  have hslot : 2 ≤ (v.inode n).iFnum + 2 ∧ (v.inode n).iFnum + 2 ≤ (v.inode n).addEntry.iFnum + 2 :=
      by
    have hroom := h.room
    have hnext : ((v.inode n).iFnum + 1 + 2).toNat = (v.inode n).iFnum.toNat + 3 := by
      simp only [UInt32.toNat_add, UInt32.reduceToNat]
      omega
    rw [UInt32.le_iff_toNat_le, UInt32.le_iff_toNat_le, h.slot_toNat, Inode.addEntry, hnext]
    exact ⟨Nat.le_add_left 2 _, Nat.le_succ _⟩
  have hremove : ((made e mode v n q b name).removed q).removeDentry (v.inode n).addEntry
    ((v.inode n).iFnum + 2) =
      .ok ((v.inode n).addEntry.addEntry.dropEntry, unmade e mode v n q b name) := by
    have hblock : ((made e mode v n q b name).removed q).block ((v.inode n).addEntry.iDirectTable
        0).toNat = entered e v n q name :=
      made_block_parent e mode
    rw [Volume.removeDentry_first hnum hslot (h.slot_toNat.symm ▸ h.room) h.data, hblock,
      h.slot_toNat]
    simp only [unmade, Inode.addEntry_iDirectTable]
  rw [Volume.rmdir, h.separate, exactly_ok, ok_bind]
  dsimp only
  rw [show (made e mode v n q b name).currentDir = v.currentDir from rfl, h.findFile_made e mode
    h.copy (by decide), if_neg hne,
    hdot, ok_bind, Volume.load_of_lt (h.number.symm ▸ h.lt), h.number, h.made_parent, ok_bind,
    h.findFile_made e mode (i := (v.inode n).addEntry) rfl h.nonempty, if_pos rfl, ok_bind,
      Volume.load_of_lt (hq.symm ▸ h.q_lt), hq, ok_bind,
    ← bind_assoc, h.remove_child, ok_bind, Volume.findDentry_removed, h.findDentry_made, ok_bind,
      hremove, ok_bind, pure_eq_ok]

theorem unmade_inodeBit : (unmade e mode v n q b name).inodeBit = v.inodeBit := by
  have hclear := (firstClear_eq_some.mp h.inode).2.1
  change Function.update (Function.update v.inodeBit q true) q false = v.inodeBit
  rw [Function.update_idem, ← hclear, Function.update_eq_self]

theorem unmade_blockBit (k : Nat) : (unmade e mode v n q b name).blockBit k = v.blockBit k := by
  have hclear := (firstClear_eq_some.mp h.block).2.1
  have hb := h.b_toNat
  change (Function.update v.blockBit b true k &&
    decide (∀ p ∈ Volume.leading ((made e mode v n q b name).inode q), p.toNat ≠ k)) = v.blockBit k
  rw [h.leading_child, Function.update_apply]
  split_ifs with hk
  · simp [hk, hclear, hb]
  · simp [hb, Ne.symm hk]

theorem unmade_inode :
    (unmade e mode v n q b name).inode n = (v.inode n).addEntry.addEntry.dropEntry := by
  have hnum : (v.inode n).addEntry.addEntry.dropEntry.iNum.toNat = n := h.num
  simp only [unmade, Volume.stored, hnum, Function.update_self]

theorem unmade_parent :
    ((unmade e mode v n q b name).inode n).iDirectTable 0 = (v.inode n).iDirectTable 0 := by
  rw [h.unmade_inode]
  rfl

omit h in
theorem unmade_block_parent :
    (unmade e mode v n q b name).block ((v.inode n).iDirectTable 0).toNat =
    putDentry (entered e v n q name) ((v.inode n).iFnum.toNat + 2) .zero := Function.update_self ..

omit h in
theorem dentryAt_cleared {j : Nat} (hj : j < 32) :
    dentryAt (putDentry (entered e v n q name) ((v.inode n).iFnum.toNat + 2) .zero) j =
      if j = (v.inode n).iFnum.toNat + 2 then .zero else dentryAt (v.block ((v.inode n).iDirectTable
      0).toNat) j := by
  rw [dentryAt_putDentry _ _ hj]
  split_ifs with hjn
  · rfl
  · rw [entered, dentryAt_putDentry _ _ hj, if_neg hjn]

theorem findFile_unmade {i : Inode} (hi : i.iDirectTable 0 = (v.inode n).iDirectTable 0)
    (other : Text) :
    (unmade e mode v n q b name).findFile i other = v.findFile (v.inode n) other := by
  have hblock : (unmade e mode v n q b name).block (i.iDirectTable 0).toNat =
      putDentry (entered e v n q name) ((v.inode n).iFnum.toNat + 2) .zero :=
        hi ▸ unmade_block_parent e mode
  have hentry : ∀ j < 32, dentryAt (putDentry (entered e v n q name) ((v.inode n).iFnum.toNat + 2)
    .zero) j =
      if j = (v.inode n).iFnum.toNat + 2 then .zero else dentryAt (v.block ((v.inode n).iDirectTable
          0).toNat) j :=
    fun j hj => dentryAt_cleared e hj
  have hslot : slotOf (putDentry (entered e v n q name) ((v.inode n).iFnum.toNat + 2) .zero) other =
      slotOf (v.block ((v.inode n).iDirectTable 0).toNat) other := by
    refine List.find?_congr fun j hj => ?_
    rw [hentry j (List.mem_range.mp hj)]
    split_ifs with hjn
    · rw [hjn, h.vacantName, dName_zero]
    · rfl
  rw [Volume.findFile_eq (hi ▸ h.data) (hblock ▸ (h.named_entered e).put terminated_zero), hblock,
    hslot,
    h.findFile _ rfl]
  cases hfound : slotOf (v.block ((v.inode n).iDirectTable 0).toNat) other with
  | none => rw [Option.elim_none, Option.elim_none]
  | some j =>
    rw [Option.elim_some, Option.elim_some, hentry j (slotOf_eq_some.mp hfound).1]
    split_ifs with hjn
    · rw [hjn, h.vacantInum, dInum_zero]
    · rfl

end Made

end Parent

namespace FileSys.WellFormed
variable {s : FileSys} {n : Nat} {name : Text}

theorem refers (h : s.WellFormed n) :
    s.Refers n (.direct 0) ((s.syncFromDiskInode (UInt32.ofNat n)).iDirectTable 0).toNat :=
  ⟨h.here.lt, h.here.allocated, trivial, h.here.block, rfl⟩

theorem parent (h : s.WellFormed n) (hmake : s.CanMake n name) :
    ∃ q b, Parent s.volume n name q b := by
  have hrefers := h.refers
  have hdata := h.owned.data _ _ _ hrefers
  have hfirst : s.volume.block ((s.syncFromDiskInode (UInt32.ofNat n)).iDirectTable 0).toNat =
      s.readBlock (s.currentDir.iDirectTable 0) := by
    rw [h.here.copy]
    exact congrArg s.readBlock UInt32.ofNat_toNat
  obtain ⟨q₀, hq₀, hclear⟩ := hmake.inode
  obtain ⟨b₀, hb₀, hfree⟩ := hmake.block
  obtain ⟨q, hq⟩ := exists_firstClear_of_clear hq₀ hclear
  obtain ⟨b, hb⟩ := exists_firstClear_of_clear hb₀ hfree
  have hvacant := h.here.vacant _ le_rfl hmake.room
  refine ⟨q, b, ?_⟩
  constructor
  case low => exact h.tables
  case lt => exact h.here.lt
  case num =>
    rw [show (s.volume.inode n).iNum = UInt32.ofNat n from h.num n h.here.lt h.here.allocated]
    exact toNat_ofNat_of_lt (by have := h.here.lt; omega)
  case taken => exact h.here.allocated
  case data => exact hdata
  case bit => exact (h.owned.bit _ hdata).mpr ⟨_, _, hrefers⟩
  case copy => exact h.here.copy
  case named => exact hfirst.symm ▸ h.here.named
  case dot => exact hfirst.symm ▸ h.here.dot
  case self => exact hfirst.symm ▸ h.here.self
  case room => exact hmake.room
  case vacantInum => exact hfirst.symm ▸ hvacant.1
  case vacantName => exact hfirst.symm ▸ hvacant.2
  case nonempty => exact hmake.nonempty
  case plain => exact hmake.plain
  case short => exact hmake.short
  case absent => exact hfirst.symm ▸ hmake.absent
  case inode => exact hq
  case block => exact hb

end FileSys.WellFormed

section Mkfs
variable {t s : FileSys} {e : Env} (ht : Shows t (Volume.mkfs e s))
include ht

theorem mkfs_record : t.syncFromDiskInode (UInt32.ofNat 0) = rootOf e := by
  rw [← ht.inode 0 (by omega)]
  rfl

theorem mkfs_inodeBit {q : Nat} (hq : q < 8192) : t.inodebmp.bit q = true ↔ q = 0 := by
  rw [← ht.inodeBit q hq]
  exact decide_eq_true_iff

theorem mkfs_refers {q : Nat} {P : Place} {b : Nat} :
    t.Refers q P b ↔ q = 0 ∧ P = .direct 0 ∧ b = 266 := by
  constructor
  · rintro ⟨hq, hbit, -, hne, rfl⟩
    obtain rfl := (mkfs_inodeBit ht hq).mp hbit
    rw [mkfs_record ht] at hne ⊢
    exact ⟨rfl, Place.value_rootOf hne⟩
  · rintro ⟨rfl, rfl, rfl⟩
    refine ⟨by omega, (mkfs_inodeBit ht (by omega)).mpr rfl, trivial, ?_, ?_⟩
    · rw [mkfs_record ht]
      exact rootOf_direct_zero e
    · rw [mkfs_record ht]
      exact block_rootOf

theorem mkfs_first : t.readBlock (t.currentDir.iDirectTable 0) = directoryBlock 0 0 := by
  rw [show t.currentDir = rootOf e from congrArg Session.currentDir ht.session,
    show (rootOf e).iDirectTable 0 = UInt32.ofNat 266 from UInt32.toNat_inj.mp block_rootOf,
    ← ht.block 266 le_rfl (by omega)]
  have hblock := Volume.mkfs_block (e := e) (s := s)
  rwa [block_rootOf] at hblock

theorem wellFormed_mkfs : t.WellFormed 0 := by
  have hcur : t.currentDir = rootOf e := congrArg Session.currentDir ht.session
  have hrecord := mkfs_record ht
  have hfirst := mkfs_first ht
  refine ⟨ht.mounted (well_mkfs e s).low, fun q hq hbit => ?_, ⟨fun q P b h => ?_, fun b hb => ?_,
    fun q P q' P' b h h' => ?_⟩, ?_⟩
  · obtain rfl := (mkfs_inodeBit ht hq).mp hbit
    rw [hrecord]
    rfl
  · rw [((mkfs_refers ht).mp h).2.2]
    exact ⟨le_rfl, by omega⟩
  · simp only [mkfs_refers ht]
    rw [← ht.blockBit b hb.2, show (Volume.mkfs e s).blockBit b = decide (b ≤ 266) from rfl,
      decide_eq_true_iff]
    have := hb.1
    constructor
    · exact fun hle => ⟨0, .direct 0, rfl, rfl, by omega⟩
    · rintro ⟨q, P, -, -, rfl⟩
      exact le_rfl
  · obtain ⟨rfl, rfl, -⟩ := (mkfs_refers ht).mp h
    obtain ⟨rfl, rfl, -⟩ := (mkfs_refers ht).mp h'
    exact ⟨rfl, rfl⟩
  · constructor
    case lt => omega
    case allocated => exact (mkfs_inodeBit ht (by omega)).mpr rfl
    case isDirectory =>
      rw [hrecord]
      exact (by decide : sIsdir (sIfdir ||| 0o755) = true)
    case block =>
      rw [hrecord]
      exact rootOf_direct_zero e
    case copy => rw [hrecord, hcur]
    case named => exact hfirst.symm ▸ named_directoryBlock 0 0
    case dot =>
      rw [hfirst, dentryAt_directoryBlock _ _ (by omega), if_neg (by omega), if_pos rfl]
      exact dName_fill (by decide)
    case self =>
      rw [hfirst, dentryAt_directoryBlock _ _ (by omega), if_neg (by omega), if_pos rfl]
      exact dInum_fill ..
    case dotdot =>
      rw [hfirst, dentryAt_directoryBlock _ _ (by omega), if_pos rfl]
      exact dName_fill (by decide)
    case vacant =>
      intro j hj hlt
      have hslot : 2 ≤ j := (Nat.le_add_left 2 _).trans hj
      rw [hfirst, dentryAt_directoryBlock _ _ hlt, if_neg (by omega), if_neg (by omega)]
      exact ⟨dInum_zero, dName_zero⟩

theorem canMake_mkfs : t.CanMake 0 .a := by
  constructor
  case inode => exact ⟨1, by omega, by rw [← ht.inodeBit 1 (by omega)]; rfl⟩
  case block => exact ⟨267, by omega, by rw [← ht.blockBit 267 (by omega)]; rfl⟩
  case room =>
    rw [mkfs_record ht]
    exact Nat.lt_of_sub_eq_succ rfl
  case nonempty => decide
  case plain => decide
  case short => decide
  case absent =>
    rw [mkfs_first ht]
    exact slotOf_eq_none.mp (slotOf_directoryBlock (by decide))

end Mkfs

/-- `do_mkdir("./name")` makes a directory with `.` and `..` under the name, and changes nothing
else that names lead to, nor any other inode or its blocks. -/
theorem mkdir_creates {s : FileSys} {n : Nat} {name : Text} (h : s.WellFormed n)
    (hmake : s.CanMake n name) (e : Env)
    (mode : UInt16) :
    ∃ t q, s.doMkdir e (Text.dot.child name) mode = .ok (0, t) ∧ q < 8192 ∧ s.inodebmp.bit q = false
      ∧
      t.findFile (t.syncFromDiskInode (UInt32.ofNat n)) name = .ok (UInt32.ofNat q) ∧
      t.findFile (t.syncFromDiskInode (UInt32.ofNat q)) .dot = .ok (UInt32.ofNat q) ∧
      t.findFile (t.syncFromDiskInode (UInt32.ofNat q)) .dotdot = .ok (UInt32.ofNat n) ∧
      (∀ other : Text, other.bytes ≠ [] → other ≠ name →
        t.findFile (t.syncFromDiskInode (UInt32.ofNat n)) other = s.findFile (s.syncFromDiskInode
        (UInt32.ofNat n)) other) ∧
      ∀ m < 8192, s.inodebmp.bit m = true → m ≠ n → s.SameFile t m := by
  have hshows := h.shows
  obtain ⟨q, b, hparent⟩ := h.parent hmake
  obtain ⟨⟨r, t⟩, ht, rfl, hshows'⟩ := (hshows.doMkdir e _ mode).exists_ok (hparent.mkdir_eq e mode)
  dsimp only at ht hshows'
  have hn : t.syncFromDiskInode (UInt32.ofNat n) = (s.syncFromDiskInode
      (UInt32.ofNat n)).addEntry := by
    rw [← hshows'.inode n h.here.lt]
    exact hparent.made_parent e mode
  have hclear : s.inodebmp.bit q = false := (firstClear_eq_some.mp hparent.inode).2.1
  refine ⟨t, q, ht, hparent.q_lt, hclear, ?_, ?_, ?_, fun other hother hne => ?_, fun m hm hbit
    hmn => ?_⟩
  · refine eq_ok_of_refines (hshows'.findFile _ _) ?_
    rw [hn, hparent.findFile_made e mode (i := (s.syncFromDiskInode (UInt32.ofNat n)).addEntry) rfl
      hmake.nonempty, if_pos rfl]
  · refine eq_ok_of_refines (hshows'.findFile _ _) ?_
    rw [← hshows'.inode q hparent.q_lt]
    exact hparent.findFile_child e mode (by decide)
  · refine eq_ok_of_refines (hshows'.findFile _ _) ?_
    rw [← hshows'.inode q hparent.q_lt]
    exact hparent.findFile_child e mode (by decide)
  · obtain ⟨x, hold⟩ : ∃ x, s.volume.findFile (s.syncFromDiskInode (UInt32.ofNat n)) other = .ok
        x :=
      ⟨_, hparent.findFile _ rfl other⟩
    rw [eq_ok_of_refines (hshows.findFile _ _) hold, hn]
    refine eq_ok_of_refines (hshows'.findFile _ _) ?_
    rw [hparent.findFile_made e mode (i := (s.syncFromDiskInode (UInt32.ofNat n)).addEntry) rfl
      hother, if_neg hne,
      hparent.findFile (s.syncFromDiskInode (UInt32.ofNat n)).addEntry rfl, ← hold,
      hparent.findFile (s.syncFromDiskInode (UInt32.ofNat n)) rfl]
  · refine FileSys.sameFile_of_blocks hm hbit ?_ fun P k hrefers => ?_
    · have hmq : m ≠ q := by
        rintro rfl
        rw [hbit] at hclear
        cases hclear
      rw [← hshows'.inode m hm, hparent.made_other e mode hmn hmq]
      rfl
    · -- a block of another inode is neither the new block nor the parent's
      have hdata := h.owned.data _ _ _ hrefers
      have hset : s.blockbmp.bit k = true := (h.owned.bit k hdata).mpr ⟨m, P, hrefers⟩
      have hkp : k ≠ ((s.volume.inode n).iDirectTable 0).toNat := fun hk =>
        hmn (h.owned.once _ _ _ _ _ hrefers (hk ▸ h.refers)).1
      have hkb : k ≠ b := fun hk => absurd hset (by
        rw [hk, show s.blockbmp.bit b = false from (firstClear_eq_some.mp hparent.block).2.1]
        decide)
      have hkept : (Parent.made e mode s.volume n q b name).block k = s.volume.block k :=
        Parent.made_block_other e mode hkp hkb
      rw [← hshows'.block k hdata.1 (by have := hdata.2; omega), hkept]
      rfl

theorem mkdir_creates_mkfs :
    ∃ s t, FileSys.blank.doMkfs .blank = .ok s ∧ s.WellFormed 0 ∧ s.CanMake 0 .a ∧
    s.doMkdir .blank (Text.dot.child .a) 0 = .ok (0, t) := by
  obtain ⟨s, hs, hshows⟩ := doMkfs_shows .blank .blank
  have hwell := wellFormed_mkfs hshows
  have hmake := canMake_mkfs hshows
  obtain ⟨t, q, ht, -⟩ := mkdir_creates hwell hmake .blank 0
  exact ⟨s, t, hs, hwell, hmake, ht⟩

theorem rmdir_undoes_mkdir {s : FileSys} {n : Nat} {name : Text} (h : s.WellFormed n)
    (hmake : s.CanMake n name) (e : Env)
    (mode : UInt16) :
    ∃ t u, s.doMkdir e (Text.dot.child name) mode = .ok (0, t) ∧ t.doRmdir (Text.dot.child name) =
      .ok u ∧
      Synced u ∧ (∀ k, u.inodebmp.bit k = s.inodebmp.bit k) ∧
      (∀ k, u.blockbmp.bit k = s.blockbmp.bit k) ∧
      ∀ other : Text, u.findFile (u.syncFromDiskInode (UInt32.ofNat n)) other =
        s.findFile (s.syncFromDiskInode (UInt32.ofNat n)) other := by
  have hshows := h.shows
  obtain ⟨q, b, hparent⟩ := h.parent hmake
  obtain ⟨⟨r, t⟩, ht, rfl, hshows'⟩ := (hshows.doMkdir e _ mode).exists_ok (hparent.mkdir_eq e mode)
  dsimp only at ht hshows'
  obtain ⟨u, hu, hshows''⟩ := (hshows'.doRmdir _).exists_ok (hparent.rmdir_eq e mode)
  refine ⟨t, u, ht, hu, hshows''.toSynced, fun k => ?_, fun k => ?_, fun other => ?_⟩
  · by_cases hk : k < 8192
    · rw [← hshows''.inodeBit k hk, hparent.unmade_inodeBit]
      rfl
    · rw [Buffer.bit, Buffer.bit, hshows''.tail _ (by omega), h.tail _ (by omega)]
  · by_cases hk : k < 262144
    · rw [← hshows''.blockBit k hk, hparent.unmade_blockBit]
      rfl
    · rw [Buffer.bit_of_le (by omega), Buffer.bit_of_le (by omega)]
  · obtain ⟨x, hold⟩ : ∃ x, s.volume.findFile (s.syncFromDiskInode (UInt32.ofNat n)) other = .ok
        x :=
      ⟨_, hparent.findFile _ rfl other⟩
    rw [eq_ok_of_refines (hshows.findFile _ _) hold]
    refine eq_ok_of_refines (hshows''.findFile _ _) ?_
    rw [← hshows''.inode n h.here.lt, hparent.findFile_unmade e mode (hparent.unmade_parent e mode)]
    exact hold

theorem rmdir_undoes_mkdir_mkfs :
    ∃ s t u, FileSys.blank.doMkfs .blank = .ok s ∧ s.WellFormed 0 ∧ s.CanMake 0 .a ∧
    s.doMkdir .blank (Text.dot.child .a) 0 = .ok (0, t) ∧ t.doRmdir (Text.dot.child .a) = .ok
    u := by
  obtain ⟨s, hs, hshows⟩ := doMkfs_shows .blank .blank
  have hwell := wellFormed_mkfs hshows
  have hmake := canMake_mkfs hshows
  obtain ⟨t, u, ht, hu, -⟩ := rmdir_undoes_mkdir hwell hmake .blank 0
  exact ⟨s, t, u, hs, hwell, hmake, ht, hu⟩

end Ucas.Fs

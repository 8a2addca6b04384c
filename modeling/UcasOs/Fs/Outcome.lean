import UcasOs.Fs.Growth
import UcasOs.Fs.Targets
import Mathlib.Data.List.TakeWhile

/-! What one operation can do to a volume, said once for every operation. Later modules derive their
invariants from this and do not unfold the operations again. -/

namespace Ucas.Fs
open Ucas.Lib

def Known (V : Set Nat) (n : UInt32) : Prop := n = notFound ∨ inodeKey n ∈ V

structure Well (V : Set Nat) (v : Volume) : Prop where
  low : ∀ k, k < 266 → v.blockBit k = true
  lt : ∀ q ∈ V, q < 8192
  num : ∀ q ∈ V, (v.inode q).iNum.toNat = q
  within : ∀ q ∈ V, Within dataBlocks (v.inode q)
  dir : Within dataBlocks v.currentDir

theorem inodeKey_of_lt {n : UInt32} (h : n.toNat < 33554432) : inodeKey n = n.toNat :=
  Nat.mod_eq_of_lt h

theorem inodeKey_ofNat {q : Nat} (h : q < 33554432) : inodeKey (UInt32.ofNat q) = q := by
  rw [inodeKey, UInt32.toNat_ofNat']
  omega

namespace Volume

inductive Made (e : Env) (v : Volume) (fmode : UInt16) :
    Option (UInt32 → Block) → Nat → Volume → Prop
  | empty {q : Nat} (hq : firstClear v.inodeBit 8192 = some q) :
      Made e v fmode none q (v.created q (newInode e fmode 0 0 (UInt32.ofNat q)))
  | withBlock {content : UInt32 → Block} {q b : Nat} (hq : firstClear v.inodeBit 8192 = some q)
      (hb : firstClear v.blockBit 262144 = some b) :
      Made e v fmode (some content) q
        ((v.created q (newInode e fmode 4096 (UInt32.ofNat b) (UInt32.ofNat q))).allotted b
          (content (UInt32.ofNat q)))

inductive Makes (n : UInt32) : Op → UInt16 → Option (UInt32 → Block) → Prop
  | mkdir (path : Text) (mode : UInt16) :
      Makes n (.mkdir path mode) (sIfdir ||| mode) (some fun q => directoryBlock q n)
  | touch (name : Text) (mode : UInt16) : Makes n (.touch name mode) (sIfreg ||| mode) none
  | symlink (srcPath newPath : Text) : Makes n (.symlink srcPath newPath) sIflnk
      (some fun q => FileSys.symlinkBlock (directoryBlock q n) srcPath)

/-- A new inode and its entry `name` in the directory `i`. -/
inductive Adds (V : Set Nat) (e : Env) (v : Volume) (op : Op) (i : Inode) (name : Text)
    (v' : Volume) : Prop
  | intro {n : UInt32} {i' : Inode} {fmode : UInt16} {content : Option (UInt32 → Block)} {q : Nat}
      {v₁ : Volume} (hn : Known V n) (htarget : v.target op = .ok (n, name))
      (hload : v.load n = .ok i) (hmakes : Makes n op fmode content)
      (hmade : Made e v fmode content q v₁)
      (hwrote : Wrote v₁ i (i.iFnum + 2) (e.stack.fill (UInt32.ofNat q) name) (i', v'))

inductive Creates (V : Set Nat) (e : Env) (v : Volume) (op : Op) : Volume → Prop
  | present {n dnum : UInt32} {name : Text} {i : Inode} (htarget : v.target op = .ok (n, name))
      (hload : v.load n = .ok i) (hdnum : v.findDentry i name = .ok dnum) (hne : dnum ≠ notFound) :
    Creates V e v op v
  | made {name : Text} {i : Inode} {v' : Volume} (habsent : v.findDentry i name = .ok notFound)
      (hadds : Adds V e v op i name v') : Creates V e v op v'

/-- One more link, stored in the slot that the source's inode names, and one more entry. -/
inductive Linked (V : Set Nat) (e : Env) (v : Volume) (srcPath newPath : Text) (v' : Volume) : Prop
  | intro {name : Text} {m n : UInt32} {i i' j : Inode} (hm : Known V m) (hn : Known V n)
      (hsrc : v.parsePath srcPath v.currentDir = .ok m) (hsrcload : v.load m = .ok j)
      (hfile : sIsdir j.iFmode = false) (htarget : v.target (.link srcPath newPath) = .ok (n, name))
      (hload : v.load n = .ok i)
      (hwrote : Wrote (v.stored j.addLink) i (i.iFnum + 2) (e.stack.fill m name) (i', v'))

/-- What `do_link` does: nothing to a directory. -/
inductive Links (V : Set Nat) (e : Env) (v : Volume) (srcPath newPath : Text) : Volume → Prop
  | directory {m : UInt32} {j : Inode} (hsrc : v.parsePath srcPath v.currentDir = .ok m)
      (hsrcload : v.load m = .ok j) (hdir : sIsdir j.iFmode = true) : Links V e v srcPath newPath v
  | linked {v' : Volume} (hlinked : Linked V e v srcPath newPath v') :
      Links V e v srcPath newPath v'

inductive Removes (V : Set Nat) (v : Volume) (path : Text) : Volume → Prop
  | intro {name : Text} {n c dnum : UInt32} {i i' : Inode} {v₁ : Volume} (hn : Known V n)
      (htarget : v.target (.rmdir path) = .ok (n, name)) (hload : v.load n = .ok i)
      (hchild : v.findFile i name = .ok c) (hc : c.toNat ∈ V)
      (hdnum : v.findDentry i name = .ok dnum)
      (hwrote : Wrote (v.removed c.toNat) i dnum .zero (i', v₁)) :
    Removes V v path (v₁.stored i'.dropEntry)

inductive Renames (V : Set Nat) (v : Volume) (oldName newName : Text) (v' : Volume) : Prop
  | intro {name : Text} {n c dnum : UInt32} {i i' : Inode} (hn : Known V n)
      (htarget : v.target (.rename oldName newName) = .ok (n, name)) (hload : v.load n = .ok i)
      (hchild : v.findFile i name = .ok c) (hdnum : v.findDentry i oldName = .ok dnum)
      (hfits : newName.length < 125)
      (hwrote : Wrote v i dnum ((Buffer.zero.setWord 0 c).putBytes 4 newName.bytes) (i', v'))

inductive Change (V : Set Nat) (e : Env) (v : Volume) : Op → Volume → Prop
  | session {op : Op} (f : Session → Session) (hdir : (f v.toSession).currentDir = v.currentDir) :
      Change V e v op (v.inSession f)
  | create {op : Op} {name : Text} {i : Inode} {v' : Volume} (hadds : Adds V e v op i name v') :
      Change V e v op v'
  | link {srcPath newPath : Text} {v' : Volume} (hlinked : Linked V e v srcPath newPath v') :
      Change V e v (.link srcPath newPath) v'
  | rename {oldName newName : Text} {v' : Volume} (hrenames : Renames V v oldName newName v') :
      Change V e v (.rename oldName newName) v'
  | rmdir {path : Text} {v' : Volume} (hremoves : Removes V v path v') :
      Change V e v (.rmdir path) v'
  | cd {name : Text} {i : Inode} (hi : i = v.currentDir ∨ ∃ q ∈ V, i = v.inode q) :
      Change V e v (.cd name) (v.inSession fun x => { x with currentDir := i })
  | fwrite {fd : UInt32} {data : List UInt8} {k : Fin 32} {i i' : Inode} {v₁ v' : Volume}
    {first last : UInt32}
      {buffer : Buffer 20480} (hk : FileSys.descriptor fd = .ok k)
      (hknown : Known V (v.fileDescriptorTable k).fdInum) (hload : v.load (v.fileDescriptorTable
      k).fdInum = .ok i)
      (hgrow : (FileSys.growIndices (v.fileDescriptorTable k).fdWOffset
      (UInt32.ofNat data.length)).foldlM
        growFile (i, v) = .ok (i', v₁))
      (hspan : ∀ j < FileSys.spanOf first last, blockKey (first + UInt32.ofNat j) ∈ dataBlocks)
      (hwrite : writeSpan (v₁.setDescriptor k { v.fileDescriptorTable k with
          fdWOffset :=
  (v.fileDescriptorTable k).fdWOffset + UInt32.ofNat data.length }) first last buffer = .ok v') :
      Change V e v (.fwrite fd data) v'

def Does (V : Set Nat) (e : Env) (v : Volume) : Op → Volume → Prop
  | .mkdir path mode => Creates V e v (.mkdir path mode)
  | .touch name mode => Creates V e v (.touch name mode)
  | .link srcPath newPath => Links V e v srcPath newPath
  | .rmdir path => Removes V v path
  | op => Change V e v op

end Volume

namespace Well
variable {V : Set Nat} {v : Volume} (h : Well V v)
include h

theorem load {n : UInt32} (hn : Known V n) :
    ∃ i, v.load n = .ok i ∧ i.iNum.toNat < 8192 ∧ Within dataBlocks i := by
  unfold Volume.load
  by_cases hlt : inodeKey n < 8192
  · obtain rfl | hq := hn
    · simp [notFound, inodeKey] at hlt
    · refine ⟨_, if_pos hlt, ?_, h.within _ hq⟩
      rw [h.num _ hq]
      exact hlt
  · obtain rfl | hq := hn
    · exact ⟨zeroInode, by simp [notFound, inodeKey], by simp [zeroInode_iNum], within_zeroInode _⟩
    · exact absurd (h.lt _ hq) hlt

end Well

namespace Volume
variable {V : Set Nat} {v : Volume} {i : Inode}

section Lookups
variable (hi : Within dataBlocks i) (name : Text)
include hi

theorem read_first : ∃ b, v.read (i.iDirectTable 0) = .ok b := by
  obtain hzero | ⟨hge, hlt⟩ := hi 0
  · rw [hzero]
    exact ⟨superblockOf v.freeBlocks v.freeInodes, by simp [read, blockKey]⟩
  · rw [read, blockKey_of_lt (by omega), if_pos hge]
    exact ⟨_, rfl⟩

theorem lookup_ensures : Ensures anyFault (fun _ => True) (v.lookup i name) := by
  obtain ⟨b, hb⟩ := read_first (v := v) hi
  rw [lookup, hb, ok_bind]
  refine (Ensures.exactly (fun _ _ => trivial) fun _ _ => trivial).bind (P := fun _ => True)
    fun slot _ _ => ?_
  exact .ok trivial

theorem findFile_ensures : Ensures anyFault (fun _ => True) (v.findFile i name) :=
  (lookup_ensures hi name).bind fun _ _ _ => .ok trivial

theorem findDentry_ensures : Ensures anyFault (fun _ => True) (v.findDentry i name) :=
  (lookup_ensures hi name).bind fun _ _ _ => .ok trivial

end Lookups

theorem load_of_lt {n : UInt32} (h : n.toNat < 8192) : v.load n = .ok (v.inode n.toNat) := by
  rw [load, inodeKey_of_lt (by omega), if_pos h]

theorem load_notFound (v : Volume) : v.load notFound = .ok zeroInode := by
  simp [load, notFound, inodeKey]

theorem Change.same (e : Env) (op : Op) : Change V e v op v := .session id rfl

theorem Creates.change {e : Env} {op : Op} {v' : Volume} (h : Creates V e v op v') :
    Change V e v op v' := by
  cases h with
  | present => exact .same e op
  | made _ hadds => exact .create hadds

theorem Links.change {e : Env} {srcPath newPath : Text} {v' : Volume}
    (h : Links V e v srcPath newPath v') :
    Change V e v (.link srcPath newPath) v' := by
  cases h with
  | directory => exact .same e _
  | linked hlinked => exact .link hlinked

theorem Made.low {e : Env} {fmode : UInt16} {content : Option (UInt32 → Block)} {q : Nat}
    {v₁ : Volume}
    (h : Made e v fmode content q v₁) {k : Nat} (hk : v.blockBit k = true) :
    v₁.blockBit k = true := by
  cases h with
  | empty hq => exact hk
  | withBlock hq hb => simp [allotted, created, Function.update_apply, hk]

theorem mkdir_eq {e : Env} {path name : Text} {mode : UInt16} {n : UInt32} {q b : Nat}
    (hlow : ∀ k, k < 266 → v.blockBit k = true) (hparent : v.parentOf path = .ok (n, name))
    (hload : v.load n = .ok i) (habsent : v.findDentry i name = .ok notFound)
    (hq : firstClear v.inodeBit 8192 = some q) (hb : firstClear v.blockBit 262144 = some b) :
    v.mkdir e path mode = ((v.created q (newInode e (sIfdir ||| mode) 4096 (UInt32.ofNat b)
    (UInt32.ofNat q))).allotted b
      (directoryBlock (UInt32.ofNat q) n)).appendDentry e i (UInt32.ofNat q) name >>= fun v' =>
      .ok (0, v') := by
  obtain ⟨x, hsep, hparent⟩ := exists_of_bind_ok hparent
  obtain ⟨m, hm, hparent⟩ := exists_of_bind_ok hparent
  obtain ⟨rfl, rfl⟩ := Prod.mk.inj (Except.ok.inj hparent)
  rw [mkdir, hsep, ok_bind]
  dsimp only
  rw [hm, ok_bind, hload, ok_bind, habsent, ok_bind, if_neg (by simp), makeWithBlock_eq e _ hlow _
    hq hb, ok_bind]
  rfl

theorem touch_eq {e : Env} {path name : Text} {mode : UInt16} {n : UInt32} {q : Nat}
    (hparent : v.parentOf (Text.dotSlash.append path) = .ok (n, name)) (hload : v.load n = .ok i)
    (habsent : v.findDentry i name = .ok notFound) (hq : firstClear v.inodeBit 8192 = some q) :
    v.touch e path mode = (v.created q (newInode e (sIfreg ||| mode) 0 0
    (UInt32.ofNat q))).appendDentry e i (UInt32.ofNat q)
      name >>= fun v' => .ok (0, v') := by
  obtain ⟨x, hsep, hparent⟩ := exists_of_bind_ok hparent
  obtain ⟨m, hm, hparent⟩ := exists_of_bind_ok hparent
  obtain ⟨rfl, rfl⟩ := Prod.mk.inj (Except.ok.inj hparent)
  rw [touch, hsep, ok_bind]
  dsimp only
  rw [hm, ok_bind, hload, ok_bind, habsent, ok_bind, if_neg (by simp), makeEmpty_eq e _ hq, ok_bind]
  rfl

def Ready (V : Set Nat) (v : Volume) (op : Op) : Prop :=
  ∀ n name, v.target op = .ok (n, name) → Known V n ∧ ∀ i, v.load n = .ok i → i.HasRoom

def Removable (V : Set Nat) (v : Volume) (op : Op) : Prop :=
  ∀ path n name i c, op = .rmdir path → v.target op = .ok (n, name) → v.load n = .ok i →
    v.findFile i name = .ok c →
    c.toNat ∈ V → (leading (v.inode c.toNat)).length < 12 ∨ (v.inode c.toNat).iIndirectBlock1Ptr = 0

theorem removable_of_straight (h : ∀ q ∈ V, (v.inode q).iIndirectBlock1Ptr = 0) (op : Op) :
    Removable V v op :=
  fun _ _ _ _ _ _ _ _ _ hc => .inr (h _ hc)

theorem append_ensures (e : Env) (inum : UInt32) (name : Text) (hlow : ∀ k, k < 266 →
    v.blockBit k = true)
    (hnum : i.iNum.toNat < 8192) (hi : Within dataBlocks i) (hroom : i.HasRoom) :
    Ensures anyFault (fun v' => ∃ i', Wrote v i (i.iFnum + 2) (e.stack.fill inum name) (i', v'))
      (v.appendDentry e i inum name) :=
  (writeDentry_ensures _ hlow hnum hi hroom).bind fun r _ hr => .ok ⟨r.1, hr⟩

theorem ne_zero_of_mem_leading {p : UInt32} (hp : p ∈ leading i) :
    p ≠ 0 ∧ ∃ k, i.iDirectTable k = p := by
  obtain ⟨k, -, hk⟩ := List.mem_map.mp ((List.takeWhile_prefix _).subset hp)
  exact ⟨by simpa using List.mem_takeWhile_imp hp, k, hk⟩

theorem findDentry_removed (q : Nat) (i : Inode) (name : Text) :
    (v.removed q).findDentry i name = v.findDentry i name := rfl

section Operations
variable (hw : Well V v) (e : Env)
include hw

theorem parentOf_ensures (path : Text) : Ensures anyFault (fun _ => True) (v.parentOf path) := by
  refine (Ensures.exactly (fun _ _ => trivial) fun _ _ => trivial).bind (P := fun _ => True) fun x _
    _ => ?_
  exact (findFile_ensures hw.dir x.1).bind fun _ _ _ => .ok trivial

theorem create_ensures {path : Text} {op : Op} (make : UInt32 → Result (UInt32 × Volume))
    (hready : Ready V v op)
    (htarget : v.target op = v.parentOf path)
    (hmake : ∀ n, ∃ fmode content, Makes n op fmode content ∧
      Ensures anyFault (fun r => ∃ q v₁, r = (UInt32.ofNat q, v₁) ∧ Made e v fmode content q v₁)
      (make n)) :
    Ensures anyFault (fun r => Creates V e v op r.2) (v.parentOf path >>= fun x => v.load x.1 >>=
    fun i =>
      v.findDentry i x.2 >>= fun dnum =>
      if dnum ≠ notFound then .ok (errorDupDirName, v)
      else make x.1 >>= fun r => r.2.appendDentry e i r.1 x.2 >>= fun v' => .ok (0, v')) := by
  refine (parentOf_ensures hw path).bind fun ⟨n, name⟩ hparent _ => ?_
  have htarget := htarget.trans hparent
  obtain ⟨hn, hroom⟩ := hready n name htarget
  obtain ⟨i, hload, hnum, hwithin⟩ := hw.load hn
  dsimp only
  rw [hload, ok_bind]
  refine (findDentry_ensures hwithin name).bind fun dnum hdnum _ => ?_
  split_ifs with hne
  · exact .ok (.present htarget hload hdnum hne)
  obtain rfl := not_not.mp hne
  obtain ⟨fmode, content, hmakes, hens⟩ := hmake n
  refine hens.bind fun r _ ⟨q, v₁, hr, hmade⟩ => ?_
  subst hr
  refine (append_ensures e _ name (fun k hk => hmade.low (hw.low k hk)) hnum hwithin
    (hroom i hload)).bind
    fun v' _ ⟨i', hwrote⟩ => ?_
  exact .ok (.made hdnum ⟨hn, htarget, hload, hmakes, hmade, hwrote⟩)

theorem mkdir_ensures (path : Text) (mode : UInt16) (hready : Ready V v (.mkdir path mode)) :
    Ensures anyFault (fun r => Creates V e v (.mkdir path mode) r.2) (v.mkdir e path mode) := by
  have heq : v.mkdir e path mode = v.parentOf path >>= fun x => v.load x.1 >>= fun i =>
      v.findDentry i x.2 >>= fun dnum =>
      if dnum ≠ notFound then .ok (errorDupDirName, v)
      else v.makeWithBlock e (sIfdir ||| mode) (fun q => directoryBlock q x.1) >>= fun r =>
        r.2.appendDentry e i r.1 x.2 >>= fun v' => .ok (0, v') := by
    simp only [mkdir, parentOf, bind_assoc, pure_eq_ok, ok_bind]
  rw [heq]
  refine create_ensures hw e (fun n => v.makeWithBlock e (sIfdir ||| mode) fun q => directoryBlock q
    n) hready rfl
    fun n => ⟨_, _, .mkdir path mode, ?_⟩
  refine (makeWithBlock_ensures e _ hw.low _).weaken fun r hr => ?_
  obtain ⟨q, b, hq, hb, rfl⟩ := hr
  exact ⟨q, _, rfl, .withBlock hq hb⟩

theorem touch_ensures (name : Text) (mode : UInt16) (hready : Ready V v (.touch name mode)) :
    Ensures anyFault (fun r => Creates V e v (.touch name mode) r.2) (v.touch e name mode) := by
  have heq : v.touch e name mode = v.parentOf (Text.dotSlash.append name) >>= fun x => v.load x.1
      >>= fun i =>
      v.findDentry i x.2 >>= fun dnum =>
      if dnum ≠ notFound then .ok (errorDupDirName, v)
      else v.makeEmpty e (sIfreg ||| mode) >>= fun r =>
        r.2.appendDentry e i r.1 x.2 >>= fun v' => .ok (0, v') := by
    simp only [touch, parentOf, bind_assoc, pure_eq_ok, ok_bind]
  rw [heq]
  refine create_ensures hw e (fun _ => v.makeEmpty e (sIfreg ||| mode)) hready rfl
    fun n => ⟨_, _, .touch name mode, ?_⟩
  refine (makeEmpty_ensures e _).weaken fun r hr => ?_
  obtain ⟨q, hq, rfl⟩ := hr
  exact ⟨q, _, rfl, .empty hq⟩

theorem rename_ensures (oldName newName : Text) (hready : Ready V v (.rename oldName newName)) :
    Ensures anyFault (Renames V v oldName newName) (v.rename oldName newName) := by
  have heq : v.rename oldName newName = v.parentOf (Text.dotSlash.append oldName) >>= fun x =>
      v.load x.1 >>= fun i => v.findFile i x.2 >>= fun c => v.findDentry i oldName >>= fun dnum =>
      exactly (fits 125 newName) >>= fun _ =>
        v.writeDentry i dnum ((Buffer.zero.setWord 0 c).putBytes 4 newName.bytes) >>= fun r =>
            .ok r.2 := by
    simp only [rename, parentOf, bind_assoc, pure_eq_ok, ok_bind]
  rw [heq]
  refine (parentOf_ensures hw _).bind fun ⟨n, name⟩ htarget _ => ?_
  obtain ⟨hn, hroom⟩ := hready n name htarget
  obtain ⟨i, hload, hnum, hwithin⟩ := hw.load hn
  dsimp only
  rw [hload, ok_bind]
  refine (findFile_ensures hwithin name).bind fun c hchild _ => ?_
  refine (findDentry_ensures hwithin oldName).bind fun dnum hdnum _ => ?_
  unfold fits
  split_ifs with hfits
  · rw [exactly_ok, ok_bind]
    refine (writeDentry_ensures _ hw.low hnum hwithin (hroom i hload)).bind fun r _ hwrote => ?_
    exact .ok (.intro hn htarget hload hchild hdnum hfits hwrote)
  · exact .error trivial

theorem mem_leading {q : Nat} (hq : q ∈ V) {p : UInt32} (hp : p ∈ leading (v.inode q)) :
    p.toNat ∈ dataBlocks := by
  obtain ⟨hne, k, rfl⟩ := ne_zero_of_mem_leading hp
  exact (hw.within _ hq k).resolve_left hne

theorem free_release {c : UInt32} (hc : c.toNat ∈ V)
    (hfull : (leading (v.inode c.toNat)).length < 12
    ∨ (v.inode c.toNat).iIndirectBlock1Ptr = 0) :
    (v.freeInode c >>= fun u => u.release (v.inode c.toNat)) = .ok (v.removed c.toNat) := by
  rw [freeInode, if_pos (hw.lt _ hc), ok_bind]
  exact if_pos ⟨fun p hp => (mem_leading hw hc hp).2, hfull⟩

theorem rmdir_ensures (path : Text) (hready : Ready V v (.rmdir path))
    (hchild : ∀ n name i c, v.target (.rmdir path) = .ok (n, name) → v.load n = .ok i →
    v.findFile i name = .ok c →
      c.toNat ∈ V ∧ ((leading (v.inode c.toNat)).length < 12 ∨
      (v.inode c.toNat).iIndirectBlock1Ptr = 0)) :
    Ensures anyFault (Removes V v path) (v.rmdir path) := by
  have heq : v.rmdir path = v.parentOf path >>= fun x => v.load x.1 >>= fun i => v.findFile i x.2
      >>= fun c =>
      v.load c >>= fun j => v.freeInode c >>= fun v₁ => v₁.release j >>= fun v₂ => v₂.findDentry i
          x.2 >>= fun dnum =>
      v₂.writeDentry i dnum .zero >>= fun r => r.2.store r.1.dropEntry >>= fun v' => .ok v' := by
    simp only [rmdir, parentOf, removeDentry, bind_assoc, pure_eq_ok, ok_bind]
  rw [heq]
  refine (parentOf_ensures hw _).bind fun x htarget _ => ?_
  obtain ⟨n, name⟩ := x
  obtain ⟨hn, hroom⟩ := hready n name htarget
  obtain ⟨i, hload, hnum, hwithin⟩ := hw.load hn
  dsimp only
  rw [hload, ok_bind]
  refine (findFile_ensures hwithin name).bind fun c hc _ => ?_
  obtain ⟨hcV, hfull⟩ := hchild n name i c htarget hload hc
  have hloadc : v.load c = .ok (v.inode c.toNat) := load_of_lt (hw.lt _ hcV)
  rw [hloadc, ok_bind, ← bind_assoc, free_release hw hcV hfull, ok_bind, findDentry_removed]
  refine (findDentry_ensures hwithin name).bind fun dnum hdnum _ => ?_
  have hlow : ∀ k, k < 266 → (v.removed c.toNat).blockBit k = true := by
    intro k hk
    have hne : ∀ p ∈ leading (v.inode c.toNat), p.toNat ≠ k := fun p hp hpk => by
      have := (mem_leading hw hcV hp).1
      omega
    simp only [removed, hw.low k hk, Bool.true_and, decide_eq_true_eq]
    exact hne
  refine (writeDentry_ensures _ hlow hnum hwithin (hroom i hload)).bind fun r _ hwrote => ?_
  have hnum' : r.1.dropEntry.iNum.toNat < 8192 := by
    rw [Inode.dropEntry_iNum, hwrote.iNum]
    exact hnum
  rw [store, if_pos hnum', ok_bind]
  exact .ok (.intro hn htarget hload hc hcV hdnum hwrote)

theorem fwrite_ensures (fd : UInt32) (data : List UInt8)
    (hready : ∀ k, FileSys.descriptor fd = .ok k → Known V (v.fileDescriptorTable k).fdInum ∧
      ((v.fileDescriptorTable k).fdWOffset.toNat + data.length) / 4096 < 12 ∧
      ((v.fileDescriptorTable k).fdWOffset ≠ 0 → ∀ i, v.load (v.fileDescriptorTable k).fdInum = .ok
      i →
        ∀ j : Fin 12, j = ((v.fileDescriptorTable k).fdWOffset / 4096).toNat →
        i.iDirectTable j ≠ 0)) :
    Ensures anyFault (fun r => Change V e v (.fwrite fd data) r.2) (v.fwrite fd data) := by
  unfold fwrite
  refine (Ensures.exactly (P := fun k => FileSys.descriptor fd = .ok k) (fun _ hk => hk)
    fun _ _ => trivial).bind fun k _ hk => ?_
  obtain ⟨hknown, hfit, hhas⟩ := hready k hk
  obtain ⟨i, hload, hnum, hwithin⟩ := hw.load hknown
  obtain ⟨hend, hle, hmem⟩ := growIndices_spec hfit
  dsimp only
  rw [hload, ok_bind]
  have hgrows : Ensures anyFault (Grown (i, v) _) _ :=
    grow_ensures hw.low (fun m hm => by have := ((hmem m).mp hm).2; omega) hnum hwithin
  refine hgrows.bind fun r hgrow hgrown => ?_
  obtain ⟨i', v₁⟩ := r
  -- the first block is new or was there, the last one is new or the first
  have hfirst : i'.iDirectTable ⟨_, lt_of_le_of_lt hle hfit⟩ ≠ 0 := by
    by_cases hzero : (v.fileDescriptorTable k).fdWOffset = 0
    · exact hgrown.ne_zero _ ((hmem _).mpr ⟨by simp [hzero], hle⟩)
    · rw [hgrown.other _ fun hin => by simpa [hzero] using ((hmem _).mp hin).1]
      exact hhas hzero i hload _ rfl
  have hlast : i'.iDirectTable ⟨_, hfit⟩ ≠ 0 := by
    by_cases hin : ((v.fileDescriptorTable k).fdWOffset.toNat + data.length) / 4096 ∈
        FileSys.growIndices (v.fileDescriptorTable k).fdWOffset (UInt32.ofNat data.length)
    · exact hgrown.ne_zero _ hin
    · have heq : ((v.fileDescriptorTable k).fdWOffset.toNat + data.length) / 4096 =
          ((v.fileDescriptorTable k).fdWOffset / 4096).toNat := by
        rw [hmem] at hin
        split_ifs at hin <;> omega
      simp only [heq]
      exact hfirst
  have hspan := fun j => span_mem_dataBlocks ((hgrown.within _).resolve_left hfirst)
    ((hgrown.within _).resolve_left hlast) (j := j)
  rw [hend, blockIndex, dif_pos (lt_of_le_of_lt hle hfit), ok_bind, blockIndex, dif_pos hfit,
    ok_bind]
  refine (readSpan_ensures hspan).bind fun buffer _ _ => ?_
  refine (Ensures.exactly (fun _ _ => trivial) fun _ _ => trivial).bind (P := fun _ => True) fun _ _
    _ => ?_
  refine (writeSpan_ensures _ hspan).bind fun v' hwrite _ => ?_
  exact .ok (.fwrite hk hknown hload hgrow hspan hwrite)

end Operations

end Volume

namespace Shows
variable {s : FileSys} {v : Volume} {V : Set Nat} (h : Shows s v) (hw : Well V v)
include h hw

theorem walk_ensures {names : List Text} (here : UInt32 × Inode) (hi : Within dataBlocks here.2)
    (hmet : s.AllMet (Known V) names here.2) :
    Ensures anyFault (fun r => names = [] ∧ r = here ∨ Known V r.1) (names.foldlM v.walk here) := by
  induction names generalizing here with
  | nil => exact .ok (.inl ⟨rfl, rfl⟩)
  | cons name rest ih =>
    rw [List.foldlM_cons, Volume.walk, bind_assoc]
    refine (Volume.findFile_ensures hi name).bind fun n hn _ => ?_
    obtain ⟨hknown, hrest⟩ := hmet n (eq_ok_of_refines (h.findFile _ name) hn)
    obtain ⟨i, hload, -, hwithin⟩ := hw.load hknown
    rw [h.load hload] at hrest
    rw [hload, ok_bind, pure_bind]
    refine (ih _ hwithin hrest).weaken fun r hr => .inr ?_
    obtain ⟨-, rfl⟩ | hr := hr
    · exact hknown
    · exact hr

theorem parsePath_ensures (path : Text) {i : Inode} (hi : Within dataBlocks i)
    (hmet : s.AllMet (Known V) path.components i) :
    Ensures anyFault (Known V) (v.parsePath path i) := by
  refine (Ensures.exactly (fun _ _ => trivial) fun _ _ => trivial).bind (P := fun _ => True) fun _ _
    _ => ?_
  refine (h.walk_ensures hw (0, i) hi hmet).bind fun r _ hr => .ok ?_
  exact hr.resolve_left fun hnil => path.components_ne_nil hnil.1

theorem link_ensures (e : Env) (srcPath newPath : Text)
    (hmeets : s.Meets (Known V) (.link srcPath newPath))
    (hroom : s.Room (.link srcPath newPath)) :
    Ensures anyFault (Volume.Links V e v srcPath newPath) (v.link e srcPath newPath) := by
  have heq : v.link e srcPath newPath = v.parsePath srcPath v.currentDir >>= fun m => v.load m >>=
      fun j =>
      if sIsdir j.iFmode then .ok v
      else exactly (separatePath newPath 64) >>= fun x => v.parsePath x.1 v.currentDir >>= fun n =>
        v.load n >>= fun i => v.store j.addLink >>= fun v₁ => v₁.appendDentry e i m x.2 := by
    simp only [Volume.link, pure_eq_ok]
  obtain ⟨hsrc, hdst⟩ := hmeets
  rw [heq]
  rw [h.currentDir_eq] at hsrc hdst
  refine (h.parsePath_ensures hw srcPath hw.dir hsrc).bind fun m hm hknown => ?_
  obtain ⟨j, hloadj, hnumj, hwithinj⟩ := hw.load hknown
  rw [hloadj, ok_bind]
  split_ifs with hdir
  · exact .ok (.directory hm hloadj hdir)
  refine (Ensures.exactly (P := fun x => s.AllMet (Known V) x.1.components v.currentDir)
    (fun x hx => hdst x.1 x.2 hx) fun _ _ => trivial).bind fun x hsep hmet => ?_
  refine (h.parsePath_ensures hw x.1 hw.dir hmet).bind fun n hn hknown' => ?_
  have htarget : v.target (.link srcPath newPath) = .ok (n, x.2) := by
    simp only [Volume.target, hsep, ok_bind, hn, pure_eq_ok]
  obtain ⟨i, hload, hnum, hwithin⟩ := hw.load hknown'
  have hroom' := hroom n x.2 (eq_ok_of_refines (h.target _) htarget)
  rw [h.load hload] at hroom'
  have hstore : v.store j.addLink = .ok (v.stored j.addLink) := if_pos hnumj
  rw [hload, ok_bind, hstore, ok_bind]
  refine (Volume.append_ensures e m x.2 (v := v.stored j.addLink) hw.low hnum hwithin hroom').weaken
    ?_
  rintro v' ⟨i', hwrote⟩
  exact .linked ⟨hknown, hknown', hm, hloadj, by simpa using hdir, htarget, hload, hwrote⟩

theorem symlink_ensures (e : Env) (srcPath newPath : Text)
    (hmeets : s.Meets (Known V) (.symlink srcPath newPath))
    (hroom : s.Room (.symlink srcPath newPath)) :
    Ensures anyFault (Volume.Change V e v (.symlink srcPath newPath)) (v.symlink e srcPath
    newPath) := by
  have heq : v.symlink e srcPath newPath = exactly (separatePath (Text.dot.append srcPath) 64) >>=
      fun x =>
      v.parsePath newPath v.currentDir >>= fun n => v.load n >>= fun i =>
      v.makeWithBlock e sIflnk (fun q => FileSys.symlinkBlock (directoryBlock q n) srcPath) >>=
          fun r =>
        r.2.appendDentry e i r.1 x.2 := by
    simp only [Volume.symlink]
  rw [heq]
  rw [FileSys.Meets, h.currentDir_eq] at hmeets
  refine (Ensures.exactly (fun _ _ => trivial) fun _ _ => trivial).bind (P := fun _ => True) fun x
    hsep _ => ?_
  refine (h.parsePath_ensures hw newPath hw.dir hmeets).bind fun n hn hknown => ?_
  have htarget : v.target (.symlink srcPath newPath) = .ok (n, x.2) := by
    simp only [Volume.target, hsep, ok_bind, hn, pure_eq_ok]
  obtain ⟨i, hload, hnum, hwithin⟩ := hw.load hknown
  have hroom' := hroom n x.2 (eq_ok_of_refines (h.target _) htarget)
  rw [h.load hload] at hroom'
  rw [hload, ok_bind]
  refine (Volume.makeWithBlock_ensures e _ hw.low _).bind fun r _ hr => ?_
  obtain ⟨q, b, hq, hb, rfl⟩ := hr
  have hmade : Volume.Made e v sIflnk (some fun q => FileSys.symlinkBlock (directoryBlock q n)
      srcPath) q _ :=
    .withBlock hq hb
  refine (Volume.append_ensures e _ x.2 (fun k hk => hmade.low (hw.low k hk)) hnum hwithin
    hroom').weaken ?_
  rintro v' ⟨i', hwrote⟩
  exact .create ⟨hknown, htarget, hload, .symlink srcPath newPath, hmade, hwrote⟩

theorem descend_ensures {names : List Text} {i : Inode} (hi : i = v.currentDir ∨
    ∃ q ∈ V, i = v.inode q)
    (hmet : s.AllMet (Known V) names i) :
    Ensures anyFault (fun r => r.2 = v.currentDir ∨ ∃ q ∈ V, r.2 = v.inode q) (v.descend names i) :=
    by
  induction names generalizing i with
  | nil => exact .ok hi
  | cons name rest ih =>
    have hwithin : Within dataBlocks i := by
      obtain rfl | ⟨q, hq, rfl⟩ := hi
      · exact hw.dir
      · exact hw.within q hq
    rw [Volume.descend]
    refine (Volume.findFile_ensures hwithin name).bind fun n hn _ => ?_
    obtain ⟨hknown, hrest⟩ := hmet n (eq_ok_of_refines (h.findFile _ name) hn)
    split_ifs with hmiss
    · exact .ok hi
    have hnV : inodeKey n ∈ V := hknown.resolve_left hmiss
    have hload : v.load n = .ok (v.inode (inodeKey n)) := if_pos (hw.lt _ hnV)
    rw [h.load hload] at hrest
    rw [hload, ok_bind]
    exact ih (.inr ⟨_, hnV, rfl⟩) hrest

theorem cd_ensures (e : Env) (name : Text) (hmeets : s.Meets (Known V) (.cd name)) :
    Ensures anyFault (Volume.Change V e v (.cd name)) (v.cd name) := by
  rw [Volume.cd]
  refine (Ensures.exactly (P := fun x => FileSys.pathSteps name name = .ok x) (fun _ hx => hx)
    fun _ _ => trivial).bind fun x _ hx => ?_
  cases x with
  | none => exact .ok (.same e _)
  | some names =>
    have hmet := hmeets names hx
    rw [h.currentDir_eq] at hmet
    exact (h.descend_ensures hw (.inl rfl) hmet).bind fun r _ hr => .ok (.cd hr)

end Shows

def Op.Quiet : Op → Prop
  | .fopen _ _ | .fread _ _ | .fclose _ | .ls | .cat _ | .find _ _ | .statfs => True
  | _ => False

namespace FileSys
variable {s t u : FileSys}

def SessionOnly (s t : FileSys) : Prop :=
  ∃ f, t = s.inSession f ∧ (f s.toSession).currentDir = s.currentDir

theorem SessionOnly.refl (s : FileSys) : SessionOnly s s := ⟨id, rfl, rfl⟩

theorem SessionOnly.trans (h : SessionOnly s t) (h' : SessionOnly t u) : SessionOnly s u := by
  obtain ⟨f, rfl, hf⟩ := h
  obtain ⟨g, rfl, hg⟩ := h'
  exact ⟨g ∘ f, rfl, hg.trans hf⟩

theorem sessionOnly_setDescriptor (k : Fin 32) (d : FileDescriptor) :
    SessionOnly s (s.setDescriptor k d) :=
  ⟨_, rfl, rfl⟩

theorem doFopen_sessionOnly {name : Text} {mode fd : UInt32}
    (h : s.doFopen name mode = .ok (fd, t)) :
    SessionOnly s t := by
  obtain ⟨x, -, h⟩ := exists_of_bind_ok h
  obtain ⟨n, -, h⟩ := exists_of_bind_ok h
  obtain ⟨c, -, h⟩ := exists_of_bind_ok h
  unfold openDescriptor at h
  split at h
  · cases h
    exact .refl _
  · split at h
    · cases h
      exact sessionOnly_setDescriptor _ _
    · cases h

theorem doFread_sessionOnly {fd length : UInt32} {data : List UInt8}
    (h : s.doFread fd length = .ok (data, t)) :
    SessionOnly s t := by
  obtain ⟨k, -, h⟩ := exists_of_bind_ok h
  obtain ⟨first, -, h⟩ := exists_of_bind_ok h
  obtain ⟨last, -, h⟩ := exists_of_bind_ok h
  obtain ⟨buffer, -, h⟩ := exists_of_bind_ok h
  obtain ⟨_, -, h⟩ := exists_of_bind_ok h
  cases h
  exact sessionOnly_setDescriptor _ _

theorem doLs_sessionOnly {e : Env} (h : s.doLs e = .ok t) : SessionOnly s t := by
  unfold doLs at h
  split_ifs at h
  · obtain ⟨target, -, h⟩ := exists_of_bind_ok h
    obtain ⟨_, -, h⟩ := exists_of_bind_ok h
    obtain ⟨inum, -, h⟩ := exists_of_bind_ok h
    obtain ⟨entries, -, h⟩ := exists_of_bind_ok h
    cases h
    exact ⟨_, rfl, rfl⟩
  · obtain ⟨entries, -, h⟩ := exists_of_bind_ok h
    cases h
    exact ⟨_, rfl, rfl⟩

theorem doCat_sessionOnly {name : Text} (h : s.doCat name = .ok t) : SessionOnly s t := by
  obtain ⟨x, hopen, h⟩ := exists_of_bind_ok h
  obtain ⟨k, -, h⟩ := exists_of_bind_ok h
  obtain ⟨y, hread, h⟩ := exists_of_bind_ok h
  cases h
  have hread' := (sessionOnly_setDescriptor _ _).trans (doFread_sessionOnly hread)
  exact ((doFopen_sessionOnly hopen).trans hread').trans ⟨_, rfl, rfl⟩

end FileSys

theorem exists_of_map_ok {ε α β : Type} {r : Except ε α} {f : α → β} {y : β} (h : f <$> r = .ok y) :
    ∃ x, r = .ok x ∧ f x = y := by
  cases r with
  | error e => cases h
  | ok x => exact ⟨x, rfl, Except.ok.inj h⟩

theorem exec_sessionOnly {s t : FileSys} {e : Env} {op : Op} (hs : Synced s) (hop : op.Quiet)
    (h : exec e op s = .ok t) : FileSys.SessionOnly s t := by
  cases op with
  | fopen name mode =>
    obtain ⟨x, hx, rfl⟩ := exists_of_map_ok h
    exact FileSys.doFopen_sessionOnly hx
  | fread fd length =>
    obtain ⟨x, hx, rfl⟩ := exists_of_map_ok h
    exact FileSys.doFread_sessionOnly hx
  | fclose fd =>
    obtain ⟨k, -, h⟩ := exists_of_bind_ok h
    cases h
    exact FileSys.sessionOnly_setDescriptor _ _
  | ls => exact FileSys.doLs_sessionOnly h
  | cat name => exact FileSys.doCat_sessionOnly h
  | find path name =>
    obtain ⟨x, -, rfl⟩ := exists_of_map_ok h
    exact .refl _
  | statfs =>
    rw [← Except.ok.inj h, FileSys.doStatfs, hs.reload_superblock_eq]
    exact .refl _
  | _ => exact hop.elim

theorem Shows.ready {s : FileSys} {v : Volume} {V : Set Nat} {op : Op} (h : Shows s v)
    (hroom : s.Room op)
    (hn : ∀ n name, s.target op = .ok (n, name) → Known V n) : Volume.Ready V v op :=
  fun n name htarget => by
  have htarget' := eq_ok_of_refines (h.target op) htarget
  refine ⟨hn n name htarget', fun i hload => ?_⟩
  rw [← h.load hload]
  exact hroom n name htarget'

theorem lt_of_doRmdir {s t : FileSys} {path name : Text} {n c : UInt32} (hs : Synced s)
    (h : s.doRmdir path = .ok t) (hn : s.parentOf path = .ok (n, name))
    (hc : s.findFile (s.syncFromDiskInode n) name = .ok c) : c.toNat < 8 * 4096 := by
  unfold FileSys.doRmdir at h
  rw [hs.reload_eq] at h
  obtain ⟨x, hsep, h⟩ := exists_of_bind_ok h
  obtain ⟨m, hm, h⟩ := exists_of_bind_ok h
  obtain ⟨c', hc', h⟩ := exists_of_bind_ok h
  obtain ⟨u, hu, -⟩ := exists_of_bind_ok h
  have hparent : s.parentOf path = .ok (m, x.2) := by
    simp only [FileSys.parentOf, hsep, ok_bind, hm, pure_eq_ok]
  obtain ⟨rfl, rfl⟩ := Prod.mk.inj (Except.ok.inj (hparent.symm.trans hn))
  obtain rfl := Except.ok.inj (hc'.symm.trans hc)
  unfold FileSys.unsetInodeBmp at hu
  split_ifs at hu with hlt
  exact hlt

theorem Volume.Does.change {V : Set Nat} {e : Env} {v v' : Volume} {op : Op}
    (h : Volume.Does V e v op v') :
    Volume.Change V e v op v' := by
  cases op with
  | mkdir path mode => exact Creates.change h
  | touch name mode => exact Creates.change h
  | link srcPath newPath => exact Links.change h
  | rmdir path => exact .rmdir h
  | _ => exact h

theorem Volume.Does.of_quiet {V : Set Nat} {e : Env} {v v' : Volume} {op : Op} (hop : op.Quiet)
    (h : Volume.Change V e v op v') : Volume.Does V e v op v' := by
  cases op with
  | mkdir | touch | link | rmdir => exact hop.elim
  | _ => exact h

theorem exec_does {s t : FileSys} {v : Volume} {V : Set Nat} {e : Env} {op : Op} (h : Shows s v)
    (hw : Well V v)
    (hmeets : s.Meets (Known V) op) (hroom : s.Room op) (hfits : s.Fits op)
    (hrmdir : Volume.Removable V v op)
    (hok : exec e op s = .ok t) : ∃ v', Shows t v' ∧ Volume.Does V e v op v' := by
  by_cases hquiet : op.Quiet
  · obtain ⟨f, rfl, hf⟩ := exec_sessionOnly h.toSynced hquiet hok
    rw [h.session] at hf
    exact ⟨v.inSession f, h.inSession f, .of_quiet hquiet (.session f hf)⟩
  have hready := h.ready (V := V) hroom
  have hsure : Ensures anyFault (Volume.Does V e v op) (v.exec e op) := by
    cases op with
    | mkdir path mode =>
      exact (Volume.mkdir_ensures hw e path mode (hready hmeets)).bind fun r _ hr => .ok hr
    | rmdir path =>
      refine Volume.rmdir_ensures hw path (hready fun n name hn => (hmeets n name hn).1) fun n name
        i c htarget hload hc => ?_
      have htarget' := eq_ok_of_refines (h.target _) htarget
      have hc' := eq_ok_of_refines (h.findFile _ _) hc
      rw [← h.load hload] at hc'
      have hlt := lt_of_doRmdir h.toSynced hok htarget' hc'
      have hcV : inodeKey c ∈ V := ((hmeets n name htarget').2 c hc' hlt).resolve_left fun hnf => by
        rw [hnf] at hlt
        simp [notFound] at hlt
      rw [inodeKey_of_lt (by omega)] at hcV
      exact ⟨hcV, hrmdir path n name i c rfl htarget hload hc hcV⟩
    | touch name mode =>
      exact (Volume.touch_ensures hw e name mode (hready hmeets)).bind fun r _ hr => .ok hr
    | rename oldName newName =>
      exact (Volume.rename_ensures hw oldName newName (hready hmeets)).weaken fun _ hr =>
        .rename hr
    | link srcPath newPath => exact h.link_ensures hw e srcPath newPath hmeets hroom
    | symlink srcPath newPath => exact h.symlink_ensures hw e srcPath newPath hmeets hroom
    | cd name => exact h.cd_ensures hw e name hmeets
    | fwrite fd data =>
      have htable : s.fileDescriptorTable = v.fileDescriptorTable :=
        congrArg Session.fileDescriptorTable h.session
      refine (Volume.fwrite_ensures hw e fd data fun k hk => ?_).bind fun r _ hr => .ok hr
      obtain ⟨hfit, hhas⟩ := hfits k hk
      have hknown := hmeets k hk
      rw [htable] at hfit hhas hknown
      refine ⟨hknown, hfit, fun hne i hload j hj => ?_⟩
      rw [← h.load hload]
      exact hhas hne j hj
    | _ => exact absurd trivial hquiet
  obtain ⟨v', -, hv', hdoes⟩ := hsure.exists_of_refines (exec_refines h e op) hok
  exact ⟨v', hv', hdoes⟩

theorem exec_renames {s t : FileSys} {v : Volume} {V : Set Nat} {e : Env} {oldName newName : Text}
    (h : Shows s v) (hw : Well V v)
    (hmeets : s.Meets (Known V) (.rename oldName newName)) (hroom : s.Room
    (.rename oldName newName))
    (hok : exec e (.rename oldName newName) s = .ok t) :
    ∃ v', Shows t v' ∧ Volume.Renames V v oldName newName v' := by
  have hsure := Volume.rename_ensures hw oldName newName (h.ready hroom hmeets)
  obtain ⟨v', -, hv', hrenames⟩ :=
    hsure.exists_of_refines (exec_refines h e (.rename oldName newName)) hok
  exact ⟨v', hv', hrenames⟩

end Ucas.Fs

import UcasOs.Fs.Shows

/-! Lookups, directory entries and the release of blocks on a file system that shows a volume are
what they are on the volume. -/

namespace Ucas.Fs
open Ucas.Lib

namespace FileSys
variable (s : FileSys) (i : Inode) (name : Text)

theorem getBlockIndex_of_blockIndex {idx : Nat} {p : UInt32} (h : Volume.blockIndex i idx = .ok p) :
    s.getBlockIndexInInode i idx = .ok p := by
  unfold Volume.blockIndex at h
  unfold getBlockIndexInInode
  split_ifs at h with hidx hptr
  · rw [dif_pos hidx]
    exact congrArg _ (Except.ok.inj h)
  · rw [dif_neg hidx, if_pos hptr.1, if_pos hptr.1, if_pos hptr.1, if_pos hptr.2, Except.ok.inj h]
    split_ifs <;> rfl

theorem getBlockIndex_refines (idx : Nat) :
    Refines Eq (s.getBlockIndexInInode i idx) (Volume.blockIndex i idx) := by
  cases hp : Volume.blockIndex i idx with
  | ok p => exact .done (s.getBlockIndex_of_blockIndex i hp) rfl
  | error e =>
    unfold Volume.blockIndex at hp
    split_ifs at hp
    cases hp
    exact .outside

theorem exists_getBlockIndex {idx : Nat} (h : idx < maxBlockIndex) :
    ∃ p, s.getBlockIndexInInode i idx = .ok p := by
  unfold getBlockIndexInInode
  rw [if_pos h]
  dsimp only
  split_ifs <;> exact ⟨_, rfl⟩

theorem lookup_rest (n k : Nat) (h : k + n ≤ maxBlockIndex) :
    s.lookup i name n k 32 = .ok none := by
  induction n generalizing k with
  | zero => rfl
  | succ n ih =>
    obtain ⟨p, hp⟩ := s.exists_getBlockIndex i (show k < maxBlockIndex by omega)
    rw [lookup, hp]
    exact ih (k + 1) (by omega)

theorem lookup_eq (n : Nat) (h : n + 1 ≤ maxBlockIndex) : s.lookup i name (n + 1) 0 0 = (do
    let slot ← scan (s.readBlock (i.iDirectTable 0)) name 32 0
    return slot.map fun j => (0, j, s.readBlock (i.iDirectTable 0))) := by
  have hindex : s.getBlockIndexInInode i 0 = .ok (i.iDirectTable 0) := rfl
  rw [lookup, hindex]
  change (scan (s.readBlock (i.iDirectTable 0)) name 32 0 >>= _) = _
  cases scan (s.readBlock (i.iDirectTable 0)) name 32 0 with
  | error e => rfl
  | ok slot =>
    cases slot with
    | none => exact s.lookup_rest i name n 1 (by omega)
    | some j => rfl

theorem releaseEach_direct {ps : List UInt32} (hps : ∀ p ∈ ps.takeWhile (· ≠ 0), p.toNat < 262144) :
    releaseEach (releaseTree 0) ps s = .ok (decide ((ps.takeWhile (· ≠ 0)).length < ps.length),
      { s with
        blockbmp := (ps.takeWhile (· ≠ 0)).foldl (fun b p => b.clearBit p.toNat) s.blockbmp }) := by
  induction ps generalizing s with
  | nil => rfl
  | cons p ps ih =>
    by_cases hp : p = 0
    · rw [releaseEach, if_pos hp]
      simp [hp]
    · have hcons : (p :: ps).takeWhile (· ≠ 0) = p :: ps.takeWhile (· ≠ 0) := by simp [hp]
      rw [hcons] at hps ⊢
      have hclear : releaseTree 0 p s = .ok (false,
          { s with blockbmp := s.blockbmp.clearBit p.toNat }) := by
        rw [releaseTree, unsetBlockBmp, if_pos (hps p List.mem_cons_self)]
        rfl
      rw [releaseEach, if_neg hp, hclear, ok_bind]
      dsimp only
      rw [if_neg (by simp), ih _ fun q hq => hps q (List.mem_cons_of_mem _ hq)]
      simp

theorem bit_foldl_clearBit (ps : List UInt32) (b : Buffer 32768) (hps : ∀ p ∈ ps, p.toNat < 262144)
    (k : Nat) :
    (ps.foldl (fun b p => b.clearBit p.toNat) b).bit k = (b.bit k && decide (∀ p ∈ ps,
    p.toNat ≠ k)) := by
  induction ps generalizing b with
  | nil => simp
  | cons p ps ih =>
    rw [List.foldl_cons, ih _ fun q hq => hps q (List.mem_cons_of_mem _ hq),
      Buffer.bit_clearBit _ _ (hps p List.mem_cons_self)]
    simp only [List.forall_mem_cons, Bool.decide_and, ne_comm (a := k)]
    cases b.bit k <;> simp

end FileSys

namespace Shows
variable {s : FileSys} {v : Volume} (h : Shows s v) (i : Inode) (name : Text)
include h

theorem lookupInum {bound : Nat} (hpos : 0 < bound) (hle : bound ≤ maxBlockIndex) :
    Refines Eq (s.lookupInum bound i name) (v.findFile i name) := by
  obtain ⟨n, rfl⟩ : ∃ n, bound = n + 1 := ⟨bound - 1, by omega⟩
  rw [FileSys.lookupInum, s.lookup_eq i name n hle, Volume.findFile, Volume.lookup]
  simp only [bind_assoc]
  apply h.reading
  refine (Refines.refl _).bind fun slot _ _ _ hslot => ?_
  subst hslot
  cases slot with
  | none => exact .ok rfl
  | some j => exact .ok rfl

theorem findFile : Refines Eq (s.findFile i name) (v.findFile i name) :=
  h.lookupInum i name (by decide) le_rfl

theorem findFile2 : Refines Eq (s.findFile2 i name) (v.findFile i name) :=
  h.lookupInum i name (by decide) (by decide)

theorem findDentry : Refines Eq (s.findDentry i name) (v.findDentry i name) := by
  rw [FileSys.findDentry, s.lookup_eq i name 11 (by decide), Volume.findDentry, Volume.lookup]
  simp only [bind_assoc]
  apply h.reading
  refine (Refines.refl _).bind fun slot _ _ _ hslot => ?_
  subst hslot
  cases slot with
  | none => exact .ok rfl
  | some j => exact .ok (by simp)

theorem walk (here : UInt32 × Inode) : Refines Eq (s.walk here name) (v.walk here name) := by
  refine (h.findFile here.2 name).bind fun inum _ _ _ hinum => ?_
  subst hinum
  apply h.loading
  exact .ok rfl

theorem parsePath (path : Text) : Refines Eq (s.parsePath path i) (v.parsePath path i) := by
  refine (Refines.refl _).bind fun _ _ _ _ _ => ?_
  refine (Refines.foldlM rfl fun x _ c hx => ?_).bind fun x _ _ _ hx => ?_
  · subst hx
    exact h.walk c x
  · subst hx
    exact .ok rfl

theorem descend {find : Inode → Text → Except Fault UInt32}
    (hfind : ∀ i name, Refines Eq (find i name) (v.findFile i name)) (names : List Text)
    (dir : Inode) :
    Refines Eq (s.descend find names dir) (v.descend names dir) := by
  induction names generalizing dir with
  | nil => exact .ok rfl
  | cons name rest ih =>
    rw [FileSys.descend, Volume.descend]
    refine (hfind dir name).bind fun inum _ _ _ hinum => ?_
    subst hinum
    split_ifs
    · exact .ok rfl
    · exact h.loading (ih _)

theorem store_twice {i j : Inode} {v' : Volume} (hnum : j.iNum = i.iNum) (hv : v.store j = .ok v') :
    Shows ((s.syncToDiskInode i).syncToDiskInode j) v' := by
  unfold Volume.store at hv
  split_ifs at hv with hlt
  obtain rfl := Except.ok.inj hv
  have hfirst : v.store i = .ok { v with inode := Function.update v.inode i.iNum.toNat i } := by
    rw [Volume.store, ← hnum, if_pos hlt]
  have h₁ := h.store hfirst
  apply h₁.store
  rw [Volume.store, if_pos hlt, hnum]
  dsimp only
  rw [Function.update_idem]

theorem write_twice {p : UInt32} {b c : Block} {v' : Volume} (hv : v.write p c = .ok v') :
    Shows ((s.writeBlock p b).writeBlock p c) v' := by
  unfold Volume.write at hv
  split_ifs at hv with hp
  obtain rfl := Except.ok.inj hv
  have hfirst : v.write p b = .ok { v with block := Function.update v.block (blockKey p) b } := by
    rw [Volume.write, if_pos hp]
  apply (h.write hfirst).write
  rw [Volume.write, if_pos hp]
  dsimp only
  rw [Function.update_idem]

theorem growDirectory {dnum : UInt32} (d : Dentry) (hmajor : (dnum / 32).toNat < 12) :
    Refines Agrees (do
      let (i, s, block) ← s.growDirectory i (dnum / 32).toNat
      let b ← s.getBlockIndexInInode i (dnum / 32).toNat
      return (i, s.writeBlock b (putDentry block (dnum % 32).toNat d)))
    (v.growDirectory i dnum d hmajor) := by
  unfold FileSys.growDirectory Volume.growDirectory
  simp only [bind_assoc]
  apply Agrees.bind h.takeBlock
  intro b s₁ v₁ _ h₁
  rw [FileSys.writeBlockIndexInInode, dif_pos hmajor]
  set j := i.point ⟨_, hmajor⟩ b with hj
  have hindex : ∀ t : FileSys, t.getBlockIndexInInode j.addSize.addEntry (dnum / 32).toNat = .ok
      b := fun t => by
    rw [FileSys.getBlockIndexInInode, dif_pos hmajor]
    simp [hj]
  simp only [ok_bind, pure_eq_ok, hindex]
  apply h₁.storing
  intro v₂ hv₂ _
  have h₂ := h₁.store_twice (i := j) (by simp) hv₂
  apply h₂.writing
  intro v₃ _ h₃
  exact .ok (.mk rfl h₃)

theorem fillSlot {p dnum : UInt32} (d : Dentry) (hp : Volume.blockIndex i (dnum / 32).toNat = .ok
    p) :
    Refines Agrees (do
      let (i, s, block) ← s.openDirectory i (dnum / 32).toNat
      let b ← s.getBlockIndexInInode i (dnum / 32).toNat
      return (i, s.writeBlock b (putDentry block (dnum % 32).toNat d)))
    (v.fillSlot i p dnum d) := by
  have hindex : ∀ t : FileSys, t.getBlockIndexInInode i.addEntry (dnum / 32).toNat = .ok p :=
      fun t =>
    t.getBlockIndex_of_blockIndex i.addEntry hp
  unfold FileSys.openDirectory Volume.fillSlot
  simp only [ok_bind, pure_eq_ok, hindex]
  apply h.storing
  intro v₁ _ h₁
  apply h₁.reading
  apply h₁.writing
  intro v₂ _ h₂
  exact .ok (.mk rfl h₂)

theorem writeDentry (dnum : UInt32) (d : Dentry) :
    Refines Agrees (s.writeDentry i dnum d) (v.writeDentry i dnum d) := by
  unfold FileSys.writeDentry Volume.writeDentry
  by_cases hlow : dnum < 2
  · rw [if_pos hlow, if_pos (Or.inl hlow)]
    exact .ok (.mk rfl h)
  by_cases hhigh : i.iFnum + 2 < dnum
  · rw [if_neg hlow, if_pos hhigh, if_pos (Or.inr hhigh)]
    exact .ok (.mk rfl h)
  rw [if_neg hlow, if_neg hhigh, if_neg (by tauto)]
  refine (s.getBlockIndex_refines i _).bind fun p _ _ hp heq => ?_
  subst heq
  by_cases hzero : p = 0 ∧ (dnum / 32).toNat < 12
  · rw [dif_pos hzero, if_pos hzero.1]
    exact h.growDirectory i d hzero.2
  · have hne : p ≠ 0 := by
      rintro rfl
      unfold Volume.blockIndex at hp
      split_ifs at hp with hlt
      · exact hzero ⟨rfl, hlt⟩
      · cases hp
    rw [dif_neg hzero, if_neg hne]
    exact h.fillSlot i d hp

theorem appendDentry (e : Env) (inum : UInt32) :
    Refines Shows (s.appendDentry e i inum name) (v.appendDentry e i inum name) := by
  unfold FileSys.appendDentry Volume.appendDentry
  apply Agrees.bind (h.writeDentry i _ _)
  intro j s₁ v₁ _ h₁
  exact .ok h₁

theorem freeInode (inum : UInt32) :
    Refines (fun t v' => Shows t.syncToDiskInodeBmp v') (s.unsetInodeBmp inum) (v.freeInode inum) :=
    by
  unfold Volume.freeInode
  split_ifs with hlt
  · have hunset : s.unsetInodeBmp inum = .ok
        { s with inodebmp := s.inodebmp.clearBit inum.toNat } := by
      rw [FileSys.unsetInodeBmp, if_pos (by omega)]
    rw [hunset]
    refine .ok (h.putInodebmp (h.tail_set hlt _) fun k hk => ?_)
    rw [Buffer.bit_clearBit _ _ (by omega), ← h.inodeBit k hk]
    by_cases hkq : k = inum.toNat <;> simp [hkq]
  · exact .outside

theorem release :
    Refines (fun t v' => Shows t.syncToDiskBlockBmp v') (s.releaseInodeBlock i) (v.release i) := by
  unfold Volume.release
  split_ifs with hrel
  · obtain ⟨hlt, hfull⟩ := hrel
    have heach := s.releaseEach_direct hlt
    have hrelease : s.releaseInodeBlock i = .ok { s with
        blockbmp := (Volume.leading i).foldl (fun b p => b.clearBit p.toNat) s.blockbmp } := by
      rw [FileSys.releaseInodeBlock, heach, ok_bind]
      dsimp only
      split_ifs with hstop
      · rfl
      · have hzero : i.iIndirectBlock1Ptr = 0 :=
          hfull.resolve_left (by simpa [Volume.leading] using hstop)
        rw [FileSys.releaseIndirect, if_pos hzero]
        rfl
    rw [hrelease]
    refine .ok (h.putBlockbmp fun k hk => ?_)
    rw [FileSys.bit_foldl_clearBit _ _ hlt, ← h.blockBit k hk]
  · exact .outside

end Shows

end Ucas.Fs

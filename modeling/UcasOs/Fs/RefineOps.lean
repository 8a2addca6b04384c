import UcasOs.Fs.Refine

/-! Every operation on a file system that shows a volume does what the volume's operation says, and
leaves a file system that shows the resulting volume. -/

namespace Ucas.Fs
open Ucas.Lib

namespace Shows
variable {s : FileSys} {v : Volume} (h : Shows s v) (e : Env)
include h

theorem currentDir_eq : s.currentDir = v.currentDir := congrArg Session.currentDir h.session

theorem doMkdir (path : Text) (mode : UInt16) :
    Refines Agrees (s.doMkdir e path mode) (v.mkdir e path mode) := by
  unfold FileSys.doMkdir Volume.mkdir
  refine (Refines.refl _).bind fun x _ _ _ hx => ?_
  subst hx
  obtain ⟨parent, name⟩ := x
  dsimp only
  rw [h.currentDir_eq]
  refine (h.findFile _ parent).bind fun parentInum _ _ _ hx => ?_
  subst hx
  rw [h.toSynced.reload_eq]
  apply h.loading
  refine (h.findDentry _ name).bind fun dnum _ _ _ hx => ?_
  subst hx
  split_ifs with hdup
  · exact .ok (.mk rfl h)
  unfold Volume.makeWithBlock
  simp only [bind_assoc]
  apply Agrees.bind h.takeInode
  intro inum s₁ v₁ _ h₁
  apply Agrees.bind h₁.takeBlock
  intro b s₂ v₂ _ h₂
  apply h₂.storing
  intro v₃ _ h₃
  apply h₃.writing
  intro v₄ _ h₄
  rw [pure_bind]
  refine (h₄.appendDentry _ _ _ _).bind fun s₅ v₅ _ _ h₅ => ?_
  exact .ok (.mk rfl h₅)

theorem doTouch (name : Text) (mode : UInt16) :
    Refines Agrees (s.doTouch e name mode) (v.touch e name mode) := by
  unfold FileSys.doTouch Volume.touch
  refine (Refines.refl _).bind fun x _ _ _ hx => ?_
  subst hx
  obtain ⟨parent, name⟩ := x
  dsimp only
  rw [h.currentDir_eq]
  refine (h.findFile _ parent).bind fun parentInum _ _ _ hx => ?_
  subst hx
  rw [h.toSynced.reload_eq]
  apply h.loading
  refine (h.findDentry _ name).bind fun dnum _ _ _ hx => ?_
  subst hx
  split_ifs with hdup
  · exact .ok (.mk rfl h)
  unfold Volume.makeEmpty
  simp only [bind_assoc]
  apply Agrees.bind h.takeInode
  intro inum s₁ v₁ _ h₁
  apply h₁.storing
  intro v₂ _ h₂
  rw [pure_bind]
  refine (h₂.appendDentry _ _ _ _).bind fun s₃ v₃ _ _ h₃ => ?_
  exact .ok (.mk rfl h₃)

theorem doRmdir (path : Text) : Refines Shows (s.doRmdir path) (v.rmdir path) := by
  unfold FileSys.doRmdir Volume.rmdir
  rw [h.toSynced.reload_eq]
  refine (Refines.refl _).bind fun x _ _ _ hx => ?_
  subst hx
  obtain ⟨parent, name⟩ := x
  dsimp only
  rw [h.currentDir_eq]
  refine (h.findFile _ parent).bind fun parentInum _ _ _ hx => ?_
  subst hx
  apply h.loading
  refine (h.findFile _ name).bind fun childInum _ _ _ hx => ?_
  subst hx
  apply h.loading
  refine (h.freeInode childInum).bind fun s₁ v₁ _ _ h₁ => ?_
  refine (h₁.release _).bind fun s₂ v₂ _ _ h₂ => ?_
  refine (h₂.findDentry _ name).bind fun dnum _ _ _ hx => ?_
  subst hx
  unfold FileSys.removeDentry Volume.removeDentry
  simp only [bind_assoc]
  apply Agrees.bind (h₂.writeDentry _ _ _)
  intro parentInode s₃ v₃ _ h₃
  -- the parent is stored by `remove_dentry` and once more by `do_rmdir`
  apply h₃.storing
  intro v₄ hv₄ _
  exact .ok (h₃.store_twice rfl hv₄)

theorem doRename (oldName newName : Text) :
    Refines Shows (s.doRename oldName newName) (v.rename oldName newName) := by
  unfold FileSys.doRename Volume.rename
  refine (Refines.refl _).bind fun x _ _ _ hx => ?_
  subst hx
  obtain ⟨parent, name⟩ := x
  dsimp only
  rw [h.currentDir_eq]
  refine (h.findFile _ parent).bind fun parentInum _ _ _ hx => ?_
  subst hx
  apply h.loading
  refine (h.findFile _ name).bind fun childInum _ _ _ hx => ?_
  subst hx
  refine (h.findDentry _ oldName).bind fun dnum _ _ _ hx => ?_
  subst hx
  refine (Refines.refl _).bind fun _ _ _ _ _ => ?_
  apply Agrees.bind (h.writeDentry _ _ _)
  intro _ s₁ v₁ _ h₁
  exact .ok h₁

theorem doLink (srcPath newPath : Text) :
    Refines Shows (s.doLink e srcPath newPath) (v.link e srcPath newPath) := by
  unfold FileSys.doLink Volume.link
  rw [h.currentDir_eq]
  refine (h.parsePath _ srcPath).bind fun srcInum _ _ _ hx => ?_
  subst hx
  apply h.loading
  dsimp only
  split_ifs with hdir
  · exact .ok h
  refine (Refines.refl _).bind fun x _ _ _ hx => ?_
  subst hx
  obtain ⟨parent, name⟩ := x
  refine (h.parsePath _ parent).bind fun parentInum _ _ _ hx => ?_
  subst hx
  apply h.loading
  apply h.storing
  intro v₁ _ h₁
  exact h₁.appendDentry _ _ _ _

theorem doSymlink (srcPath newPath : Text) :
    Refines Shows (s.doSymlink e srcPath newPath) (v.symlink e srcPath newPath) := by
  unfold FileSys.doSymlink Volume.symlink Volume.makeWithBlock
  refine (Refines.refl _).bind fun x _ _ _ hx => ?_
  subst hx
  obtain ⟨parent, name⟩ := x
  dsimp only
  rw [h.currentDir_eq]
  refine (h.parsePath _ newPath).bind fun parentInum _ _ _ hx => ?_
  subst hx
  rw [h.toSynced.reload_eq]
  apply h.loading
  simp only [bind_assoc]
  apply Agrees.bind h.takeInode
  intro inum s₁ v₁ _ h₁
  apply Agrees.bind h₁.takeBlock
  intro b s₂ v₂ _ h₂
  apply h₂.storing
  intro v₃ _ h₃
  -- what is read back is the block just written, and writing it again leaves only the last contents
  rw [FileSys.readBlock_writeBlock, if_pos rfl]
  apply h₃.writing
  intro v₄ hv₄ _
  rw [pure_bind]
  exact (h₃.write_twice hv₄).appendDentry _ _ _ _

theorem inSession (f : Session → Session) : Shows (s.inSession f) (v.inSession f) := by
  have hread : ∀ p, (s.inSession f).readBlock p = s.readBlock p := fun p => by
    simp only [FileSys.readBlock, FileSys.inSession]
  refine ⟨⟨?_, ?_, ?_⟩, h.counters, h.tail, h.blockBit, h.inodeBit, ?_, ?_, congrArg f h.session⟩
  · rw [hread, h.superblock]
    rfl
  · intro k hk
    rw [hread, h.blockbmp k hk]
    rfl
  · rw [hread, h.inodebmp]
    rfl
  · intro q hq
    rw [FileSys.syncFromDiskInode_congr (hread _)]
    exact h.inode q hq
  · intro k hk hk'
    rw [hread]
    exact h.block k hk hk'

theorem setDescriptor (k : Fin 32) (d : FileDescriptor) :
    Shows (s.setDescriptor k d) (v.setDescriptor k d) :=
  h.inSession _

theorem lsLoop (i : Inode) (n k : Nat) (acc : List Dentry) :
    Refines Eq (s.lsLoop e i n k acc) (v.lsLoop e i n k acc) := by
  induction n generalizing k acc with
  | zero => exact .ok rfl
  | succ n ih =>
    rw [FileSys.lsLoop, Volume.lsLoop]
    refine (s.getBlockIndex_refines i k).bind fun p _ _ _ hp => ?_
    subst hp
    apply h.reading
    cases FileSys.lsBlock e (s.readBlock p) 32 0 acc with
    | mk stop entries =>
      cases stop with
      | true => exact .ok rfl
      | false => exact ih _ _

theorem doLs : Refines Shows (s.doLs e) (v.ls e) := by
  unfold FileSys.doLs Volume.ls
  rw [h.currentDir_eq, congrArg Session.rootInode h.session]
  split_ifs
  · apply h.reading
    refine (Refines.refl _).bind fun target _ _ _ hx => ?_
    subst hx
    refine (Refines.refl _).bind fun _ _ _ _ _ => ?_
    refine (h.parsePath _ _).bind fun inum _ _ _ hx => ?_
    subst hx
    apply h.loading
    refine (h.lsLoop e _ _ _ _).bind fun entries _ _ _ hx => ?_
    subst hx
    exact .ok (h.inSession _)
  · refine (h.lsLoop e _ _ _ _).bind fun entries _ _ _ hx => ?_
    subst hx
    exact .ok (h.inSession _)

theorem doCd (name : Text) : Refines Shows (s.doCd name) (v.cd name) := by
  unfold FileSys.doCd Volume.cd
  refine (Refines.refl _).bind fun names _ _ _ hx => ?_
  subst hx
  cases names with
  | none => exact .ok h
  | some names =>
    dsimp only
    rw [h.currentDir_eq]
    refine (h.descend h.findFile names _).bind fun x _ _ _ hx => ?_
    subst hx
    exact .ok (h.inSession _)

theorem doFind (path name : Text) : Refines Eq (s.doFind path name) (v.find path name) := by
  unfold FileSys.doFind Volume.find
  refine (Refines.refl _).bind fun names _ _ _ hx => ?_
  subst hx
  cases names with
  | none => exact .ok rfl
  | some names =>
    dsimp only
    rw [h.currentDir_eq]
    refine (h.descend h.findFile2 names _).bind fun x _ _ _ hx => ?_
    subst hx
    exact .ok rfl

theorem openDescriptor (inum mode : UInt32) :
    Refines Agrees (s.openDescriptor inum mode) (v.openDescriptor inum mode) := by
  unfold FileSys.openDescriptor Volume.openDescriptor
  rw [h.session]
  cases v.firstDescriptor fun d => d.fdInum == inum with
  | some k => exact .ok (.mk rfl h)
  | none =>
    cases v.firstDescriptor FileDescriptor.isEmpty with
    | some k => exact .ok (.mk rfl (h.setDescriptor k _))
    | none => exact .error rfl

theorem doFopen (name : Text) (mode : UInt32) :
    Refines Agrees (s.doFopen name mode) (v.fopen name mode) := by
  unfold FileSys.doFopen Volume.fopen
  refine (Refines.refl _).bind fun x _ _ _ hx => ?_
  subst hx
  obtain ⟨parent, name⟩ := x
  dsimp only
  rw [h.currentDir_eq]
  refine (h.findFile _ parent).bind fun parentInum _ _ _ hx => ?_
  subst hx
  apply h.loading
  refine (h.findFile _ name).bind fun childInum _ _ _ hx => ?_
  subst hx
  exact h.openDescriptor childInum mode

theorem growFile (i : Inode) (k : Nat) :
    Refines Agrees (FileSys.growFile (i, s) k) (Volume.growFile (i, v) k) := by
  unfold FileSys.growFile Volume.growFile
  split_ifs with hk
  · apply Agrees.bind h.takeBlock
    intro b s₁ v₁ _ h₁
    dsimp only
    rw [Inode.setDirect_of_lt _ hk, ok_bind]
    apply h₁.writing
    intro v₂ _ h₂
    apply h₂.storing
    intro v₃ _ h₃
    exact .ok (.mk rfl h₃)
  · exact .outside

theorem readSpan (first last : UInt32) :
    Refines Eq (s.readSpan first last) (v.readSpan first last) := by
  unfold FileSys.readSpan Volume.readSpan
  split_ifs
  · generalize List.range (FileSys.spanOf first last) = l
    generalize (Buffer.zero : Buffer 20480) = b
    induction l generalizing b with
    | nil => exact .ok rfl
    | cons k l ih =>
      rw [List.foldlM_cons, List.foldl_cons, bind_assoc]
      apply h.reading
      exact ih _
  · exact .error rfl

theorem writeSpan (first last : UInt32) (b : Buffer 20480) :
    Refines Shows (.ok (s.writeSpan first last b) : Except Fault FileSys) (v.writeSpan first last
    b) := by
  unfold FileSys.writeSpan Volume.writeSpan
  generalize List.range (FileSys.spanOf first last) = l
  induction l generalizing s v with
  | nil => exact .ok h
  | cons k l ih =>
    rw [List.foldlM_cons, List.foldl_cons]
    apply h.writing
    intro v₁ _ h₁
    exact ih h₁

theorem descriptor_eq (k : Fin 32) : s.fileDescriptorTable k = v.fileDescriptorTable k :=
  congrArg (fun x : Session => x.fileDescriptorTable k) h.session

theorem doFwrite (fd : UInt32) (data : List UInt8) :
    Refines Agrees (s.doFwrite fd data) (v.fwrite fd data) := by
  unfold FileSys.doFwrite Volume.fwrite
  refine (Refines.refl _).bind fun k _ _ _ hx => ?_
  subst hx
  dsimp only
  rw [h.descriptor_eq]
  apply h.loading
  have hgrow := Refines.foldlM (l := FileSys.growIndices (v.fileDescriptorTable k).fdWOffset
    (UInt32.ofNat data.length))
    (Agrees.mk (x := s.syncFromDiskInode (v.fileDescriptorTable k).fdInum) rfl h)
    (f := FileSys.growFile) (g := Volume.growFile) fun x y idx hxy => ?_
  · apply Agrees.bind hgrow
    intro i s₁ v₁ _ h₁
    dsimp only
    refine (s₁.getBlockIndex_refines i _).bind fun first _ _ _ hx => ?_
    subst hx
    refine (s₁.getBlockIndex_refines i _).bind fun last _ _ _ hx => ?_
    subst hx
    refine (h₁.readSpan first last).bind fun buffer _ _ _ hx => ?_
    subst hx
    refine (Refines.refl _).bind fun _ _ _ _ _ => ?_
    refine ((h₁.setDescriptor k _).writeSpan first last _).bind (f := fun t => .ok (_, t)) fun s₂ v₂
      _ _ h₂ => ?_
    exact .ok (.mk rfl h₂)
  · obtain ⟨i, t⟩ := x
    obtain ⟨_, w⟩ := y
    obtain ⟨rfl, hw⟩ := hxy
    exact hw.growFile i idx

theorem doFread (fd length : UInt32) :
    Refines Agrees (s.doFread fd length) (v.fread fd length) := by
  unfold FileSys.doFread Volume.fread
  refine (Refines.refl _).bind fun k _ _ _ hx => ?_
  subst hx
  dsimp only
  rw [h.descriptor_eq]
  apply h.loading
  refine (s.getBlockIndex_refines _ _).bind fun first _ _ _ hx => ?_
  subst hx
  refine (s.getBlockIndex_refines _ _).bind fun last _ _ _ hx => ?_
  subst hx
  refine (h.readSpan first last).bind fun buffer _ _ _ hx => ?_
  subst hx
  refine (Refines.refl _).bind fun _ _ _ _ _ => ?_
  exact .ok (.mk rfl (h.setDescriptor k _))

theorem doFclose (fd : UInt32) : Refines Shows (s.doFclose fd) (v.fclose fd) := by
  unfold FileSys.doFclose Volume.fclose
  refine (Refines.refl _).bind fun k _ _ _ hx => ?_
  subst hx
  exact .ok (h.setDescriptor k _)

theorem doCat (name : Text) : Refines Shows (s.doCat name) (v.cat name) := by
  unfold FileSys.doCat Volume.cat
  apply Agrees.bind (h.doFopen name 2)
  intro fd s₁ v₁ _ h₁
  dsimp only
  refine (Refines.refl _).bind fun k _ _ _ hx => ?_
  subst hx
  rw [h₁.descriptor_eq]
  apply Agrees.bind ((h₁.setDescriptor k _).doFread fd 200)
  intro data s₂ v₂ _ h₂
  exact .ok (h₂.inSession _)

end Shows

theorem exec_refines {s : FileSys} {v : Volume} (h : Shows s v) (e : Env) (op : Op) :
    Refines Shows (exec e op s) (v.exec e op) := by
  have hsnd : ∀ {α : Type} {c : Except Fault (α × FileSys)} {a : Result (α × Volume)},
    Refines Agrees c a →
      Refines Shows ((·.2) <$> c) ((·.2) <$> a) := fun hr => hr.map fun _ _ hxy => hxy.2
  cases op with
  | mkdir path mode => exact hsnd (h.doMkdir e path mode)
  | rmdir path => exact h.doRmdir path
  | touch name mode => exact hsnd (h.doTouch e name mode)
  | rename oldName newName => exact h.doRename oldName newName
  | link srcPath newPath => exact h.doLink e srcPath newPath
  | symlink srcPath newPath => exact h.doSymlink e srcPath newPath
  | fopen name mode => exact hsnd (h.doFopen name mode)
  | fwrite fd data => exact hsnd (h.doFwrite fd data)
  | fread fd length => exact hsnd (h.doFread fd length)
  | fclose fd => exact h.doFclose fd
  | cd name => exact h.doCd name
  | ls => exact h.doLs e
  | cat name => exact h.doCat name
  | find path name => exact (h.doFind path name).map fun _ _ _ => h
  | statfs =>
    refine .ok ?_
    rw [FileSys.doStatfs, h.toSynced.reload_superblock_eq]
    exact h

end Ucas.Fs

import UcasOs.Fs.Missing

/-! Out of space. `find_free_inode` and `find_free_block` report a full bitmap with a negative
number, and every caller goes on with it as an index: the next bit is set far outside the bitmap. -/

namespace Ucas.Fs
open Ucas.Lib

namespace FileSys
variable (s : FileSys)

def reloaded : FileSys := s.syncFromDiskBlockBmp.syncFromDiskInodeBmp

def InodesFull : Prop := ∀ q < 8192, s.inodebmp.bit q = true ∧ s.reloaded.inodebmp.bit q = true

def BlocksFull : Prop := ∀ b < 262144, s.blockbmp.bit b = true ∧ s.reloaded.blockbmp.bit b = true

def MakesInode (op : Op) (n : UInt32) : Prop := ∃ name, s.target op = .ok (n, name) ∧
  match op with
  | .mkdir _ _ | .touch _ _ => s.findDentry (s.syncFromDiskInode n) name = .ok notFound
  | .symlink _ _ => True
  | _ => False

def LacksBlock (i : Inode) (idx : Nat) : Prop :=
  ∀ t : FileSys, (∀ p, 266 ≤ blockKey p → t.readBlock p = s.readBlock p) → t.getBlockIndexInInode i
    idx = .ok 0

/-- The operation needs a block: for the inode it makes, for the entry in the parent, or for the
data. -/
def NeedsBlock : Op → Prop
  | .fwrite fd data => ∃ k, descriptor fd = .ok k ∧
      growIndices (s.fileDescriptorTable k).fdWOffset (UInt32.ofNat data.length) ≠ []
  | .touch name mode =>
    ∃ n, s.MakesInode (.touch name mode) n ∧ 2 ≤ (s.syncFromDiskInode n).iFnum + 2 ∧
      s.LacksBlock (s.syncFromDiskInode n) (((s.syncFromDiskInode n).iFnum + 2) / 32).toNat
  | op => ∃ n, s.MakesInode op n

def Exhausts (op : Op) : Prop :=
  s.InodesFull ∧ (∃ n, s.MakesInode op n) ∨ s.BlocksFull ∧ s.NeedsBlock op

variable {s}

theorem takeFreeInode_of_full (h : ∀ q < 8192, s.inodebmp.bit q = true) :
    s.takeFreeInode = .error .bitmap := by
  rw [takeFreeInode, findFreeInode_eq, firstClear_eq_none.mpr h]
  rfl

theorem takeFreeBlock_of_full (h : ∀ b < 262144, s.blockbmp.bit b = true) :
    s.takeFreeBlock = .error .bitmap := by
  rw [takeFreeBlock, findFreeBlock_eq, firstClear_eq_none.mpr h]
  rfl

theorem of_takeFreeInode {q : UInt32} {t : FileSys} (h : s.takeFreeInode = .ok (q, t)) :
    q.toNat < 8192 ∧ t.blockbmp = s.blockbmp ∧ ∀ p, 10 ≤ blockKey p → t.readBlock p = s.readBlock
    p := by
  obtain ⟨u, hu, h⟩ := exists_of_bind_ok h
  obtain ⟨rfl, rfl⟩ := Prod.mk.inj (Except.ok.inj h)
  unfold setInodeBmp at hu
  split_ifs at hu with hlt
  obtain rfl := Except.ok.inj hu
  refine ⟨?_, rfl, fun p hp => ?_⟩
  · rw [findFreeInode_eq] at hlt ⊢
    cases hq : firstClear s.inodebmp.bit 8192 with
    | none =>
      rw [hq] at hlt
      exact absurd hlt (by decide)
    | some q =>
      have hq8192 := (firstClear_eq_some.mp hq).1
      rw [Option.elim_some, toNat_ofNat_of_lt (by omega)]
      exact hq8192
  rw [countInode, syncToDiskSuperblock, readBlock_writeBlock, if_neg (by rw [blockKey_zero]; omega)]
  exact (readBlock_writeBlock ..).trans (if_neg (by rw [blockKey_nine]; omega))

theorem appendDentry_of_full {e : Env} {i : Inode} {q : UInt32} {name : Text}
    (hfull : ∀ b < 262144, s.blockbmp.bit b = true)
    (hslot : 2 ≤ i.iFnum + 2) (hlacks : s.getBlockIndexInInode i ((i.iFnum + 2) / 32).toNat = .ok 0)
    (t : FileSys) :
    s.appendDentry e i q name ≠ .ok t := by
  intro h
  obtain ⟨x, hx, -⟩ := exists_of_bind_ok h
  rw [writeDentry, if_neg (UInt32.not_lt.mpr hslot), if_neg (UInt32.lt_irrefl _)] at hx
  dsimp only at hx
  rw [hlacks, ok_bind, if_pos rfl, growDirectory, takeFreeBlock_of_full hfull] at hx
  cases hx

theorem findDentry_reloaded (i : Inode) (name : Text) :
    s.reloaded.findDentry i name = s.findDentry i name := by
  rw [findDentry, findDentry, lookup_eq _ _ _ 11 (by decide), lookup_eq _ _ _ 11 (by decide)]
  rfl

theorem syncFromDiskInode_reloaded (n : UInt32) :
    s.reloaded.syncFromDiskInode n = s.syncFromDiskInode n :=
  rfl

end FileSys

namespace FileSys.Exhausts
variable {s : FileSys} {e : Env}

theorem takeFreeBlock_ne_ok (hfull : s.InodesFull ∨ s.BlocksFull) {x : UInt32 × FileSys}
    (hx : s.reloaded.takeFreeInode = .ok x) (y : UInt32 × FileSys) : x.2.takeFreeBlock ≠ .ok y := by
  intro hy
  obtain hfull | hfull := hfull
  · rw [takeFreeInode_of_full fun q hq => (hfull q hq).2] at hx
    cases hx
  · have hbmp := (of_takeFreeInode hx).2.1
    rw [takeFreeBlock_of_full fun b hb => hbmp ▸ (hfull b hb).2] at hy
    cases hy

theorem mkdir {path : Text} {mode : UInt16} (h : s.Exhausts (.mkdir path mode))
    (r : UInt32 × FileSys) :
    s.doMkdir e path mode ≠ .ok r := by
  intro hr
  obtain ⟨n, name, htarget, habsent⟩ : ∃ n, s.MakesInode (.mkdir path mode) n := h.elim (·.2) (·.2)
  obtain ⟨x, hsep, htarget⟩ := exists_of_bind_ok htarget
  obtain ⟨m, hm, htarget⟩ := exists_of_bind_ok htarget
  obtain ⟨rfl, rfl⟩ := Prod.mk.inj (Except.ok.inj htarget)
  rw [doMkdir, hsep, ok_bind] at hr
  dsimp only at hr
  rw [hm, ok_bind, ← reloaded, syncFromDiskInode_reloaded, findDentry_reloaded, habsent, ok_bind,
    if_neg (by simp)] at hr
  obtain ⟨⟨q, t⟩, hq, hr⟩ := exists_of_bind_ok hr
  obtain ⟨⟨b, u⟩, hb, -⟩ := exists_of_bind_ok hr
  exact takeFreeBlock_ne_ok (h.imp And.left And.left) hq _ hb

theorem touch {name : Text} {mode : UInt16} (h : s.Exhausts (.touch name mode))
    (r : UInt32 × FileSys) :
    s.doTouch e name mode ≠ .ok r := by
  intro hr
  have hmakes : ∃ n, s.MakesInode (.touch name mode) n ∧ (s.InodesFull ∨ s.BlocksFull ∧
    2 ≤ (s.syncFromDiskInode n).iFnum + 2 ∧
      s.LacksBlock (s.syncFromDiskInode n) (((s.syncFromDiskInode n).iFnum + 2) / 32).toNat) := by
    obtain ⟨hfull, n, hn⟩ | ⟨hfull, n, hn, hlacks⟩ := h
    · exact ⟨n, hn, .inl hfull⟩
    · exact ⟨n, hn, .inr ⟨hfull, hlacks⟩⟩
  obtain ⟨n, ⟨last, htarget, habsent⟩, hwhich⟩ := hmakes
  obtain ⟨x, hsep, htarget⟩ := exists_of_bind_ok htarget
  obtain ⟨m, hm, htarget⟩ := exists_of_bind_ok htarget
  obtain ⟨rfl, rfl⟩ := Prod.mk.inj (Except.ok.inj htarget)
  rw [doTouch, hsep, ok_bind] at hr
  dsimp only at hr
  rw [hm, ok_bind, ← reloaded, syncFromDiskInode_reloaded, findDentry_reloaded, habsent, ok_bind,
    if_neg (by simp)] at hr
  obtain ⟨⟨q, t⟩, hq, hr⟩ := exists_of_bind_ok hr
  obtain hfull | ⟨hfull, hslot, hlacks⟩ := hwhich
  · rw [takeFreeInode_of_full fun q hq => (hfull q hq).2] at hq
    cases hq
  · obtain ⟨hlt, hbmp, hread⟩ := of_takeFreeInode hq
    obtain ⟨u, hu, -⟩ := exists_of_bind_ok hr
    dsimp only at hu
    have hnum : (newInode e (sIfreg ||| mode) 0 0 q).iNum = q := rfl
    generalize newInode e (sIfreg ||| mode) 0 0 q = i at hnum hu
    refine appendDentry_of_full (fun b hb => ?_) hslot (hlacks _ fun p hp => ?_) u hu
    · rw [syncToDiskInode, (sameMemory_writeBlock _ _ _).blockbmp, hbmp]
      exact (hfull b hb).2
    · rw [syncToDiskInode, readBlock_writeBlock, if_neg, hread p (by omega)]
      · rfl
      · rw [hnum, blockKey_inodeBlock hlt]
        omega

theorem symlink {srcPath newPath : Text} (h : s.Exhausts (.symlink srcPath newPath)) (r : FileSys) :
    s.doSymlink e srcPath newPath ≠ .ok r := by
  intro hr
  obtain ⟨n, name, htarget, -⟩ : ∃ n, s.MakesInode (.symlink srcPath newPath) n :=
    h.elim (·.2) (·.2)
  obtain ⟨x, hsep, htarget⟩ := exists_of_bind_ok htarget
  obtain ⟨m, hm, htarget⟩ := exists_of_bind_ok htarget
  rw [doSymlink, hsep, ok_bind] at hr
  dsimp only at hr
  rw [hm, ok_bind, ← reloaded] at hr
  obtain ⟨⟨q, t⟩, hq, hr⟩ := exists_of_bind_ok hr
  obtain ⟨⟨b, u⟩, hb, -⟩ := exists_of_bind_ok hr
  exact takeFreeBlock_ne_ok (h.imp And.left And.left) hq _ hb

theorem fwrite {fd : UInt32} {data : List UInt8} (h : s.Exhausts (.fwrite fd data))
    (r : UInt32 × FileSys) :
    s.doFwrite fd data ≠ .ok r := by
  intro hr
  obtain ⟨-, n, name, htarget, -⟩ | ⟨hfull, k, hk, hgrow⟩ := h
  · cases htarget
  · rw [doFwrite, hk, ok_bind] at hr
    obtain ⟨x, hx, -⟩ := exists_of_bind_ok hr
    obtain ⟨first, rest, hindices⟩ := List.exists_cons_of_ne_nil hgrow
    rw [hindices, List.foldlM_cons, growFile, takeFreeBlock_of_full fun b hb =>
      (hfull b hb).1] at hx
    cases hx

end FileSys.Exhausts

/-- A call that needs what there is none of never leaves everything as it was: it does not return.
-/
theorem out_of_space_not_harmless {s : FileSys} {op : Op} (h : s.Exhausts op) (e : Env) :
    ¬ ∃ t, exec e op s = .ok t ∧ SameCard s t := by
  rintro ⟨t, ht, -⟩
  cases op with
  | mkdir path mode =>
    obtain ⟨r, hr, -⟩ := exists_of_map_ok ht
    exact h.mkdir r hr
  | touch name mode =>
    obtain ⟨r, hr, -⟩ := exists_of_map_ok ht
    exact h.touch r hr
  | symlink srcPath newPath => exact h.symlink t ht
  | fwrite fd data =>
    obtain ⟨r, hr, -⟩ := exists_of_map_ok ht
    exact h.fwrite r hr
  | _ =>
    obtain ⟨n, name, -, hfalse⟩ : ∃ n, s.MakesInode _ n := h.elim (·.2) (·.2)
    exact hfalse

def FileSys.full : FileSys :=
  { FileSys.blank with
    sd := fun _ => 0xff
    blockbmp := .ofFn fun _ => 0xff
    inodebmp := .ofFn fun _ => 0xff }

theorem FileSys.blocksFull_full : FileSys.full.BlocksFull := by
  have hread : ∀ p k, k < 4096 → (FileSys.full.readBlock p).get k = 0xff := fun p k hk => by
    rw [readBlock, Device.read, Buffer.get_ofFn, if_pos hk]
    rfl
  intro b hb
  refine ⟨Buffer.bit_of_byte_full ?_, Buffer.bit_of_byte_full ?_⟩
  · rw [show FileSys.full.blockbmp = .ofFn fun _ => 0xff from rfl, Buffer.get_ofFn, if_pos
      (by omega)]
  · rw [reloaded, syncFromDiskInodeBmp, syncFromDiskBlockBmp]
    dsimp only
    rw [Buffer.get_foldl_blit _ _ (by omega) (by omega), if_pos (by omega), hread _ _
      (Nat.mod_lt _ (by omega))]

theorem FileSys.needsBlock_full : FileSys.full.NeedsBlock (.fwrite 0 [0]) :=
  ⟨0, rfl, by decide⟩

theorem out_of_space_not_harmless_full :
    ¬ ∃ t, exec .blank (.fwrite 0 [0]) FileSys.full = .ok t ∧ SameCard FileSys.full t :=
  out_of_space_not_harmless (.inr ⟨FileSys.blocksFull_full, FileSys.needsBlock_full⟩) .blank

theorem fwrite_out_of_space : FileSys.full.BlocksFull ∧ FileSys.full.NeedsBlock (.fwrite 0 [0]) ∧
    exec .blank (.fwrite 0 [0]) FileSys.full = .error .bitmap ∧
    ¬ ∃ t, exec .blank (.fwrite 0 [0]) FileSys.full = .ok t ∧ SameCard FileSys.full t := by
  have hexec : exec .blank (.fwrite 0 [0]) FileSys.full = .error .bitmap := by
    have hindices : FileSys.growIndices (FileSys.full.fileDescriptorTable 0).fdWOffset
        (UInt32.ofNat [(0 : UInt8)].length) = [0] := by
      decide
    rw [exec, FileSys.doFwrite, show FileSys.descriptor 0 = .ok 0 from rfl, ok_bind]
    dsimp only
    rw [hindices, List.foldlM_cons, FileSys.growFile,
      FileSys.takeFreeBlock_of_full fun b hb => (FileSys.blocksFull_full b hb).1]
    rfl
  refine ⟨FileSys.blocksFull_full, FileSys.needsBlock_full, hexec, ?_⟩
  rintro ⟨t, ht, -⟩
  rw [hexec] at ht
  cases ht

end Ucas.Fs

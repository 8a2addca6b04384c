import UcasOs.Fs.Nested
import UcasOs.Fs.Runs

/-! The counters of the superblock. Every place that sets a bit counts it; `do_rmdir` clears bits
and counts nothing. -/

namespace Ucas.Fs
open Ucas.Lib

structure Counted (v : Volume) : Prop where
  blocks : v.freeBlocks.toNat = clearCount v.blockBit 262144
  inodes : v.freeInodes.toNat = clearCount v.inodeBit 8192

theorem toNat_sub_one {x : UInt32} {m n : Nat} (hx : x.toNat = m) (h : n + 1 = m) :
    (x - 1).toNat = n := by
  rw [UInt32.toNat_sub_of_le _ _ (UInt32.le_iff_toNat_le.mpr (by simp; omega))]
  simp
  omega

namespace Counted

section Parts
variable {v : Volume} (h : Counted v)
include h

theorem created {q : Nat} (hq : firstClear v.inodeBit 8192 = some q) (i : Inode) :
    Counted (v.created q i) :=
  ⟨h.blocks, toNat_sub_one h.inodes (clearCount_take hq)⟩

theorem allotted {b : Nat} (hb : firstClear v.blockBit 262144 = some b) (c : Block) :
    Counted (v.allotted b c) :=
  ⟨toNat_sub_one h.blocks (clearCount_take hb), h.inodes⟩

theorem stored (i : Inode) : Counted (v.stored i) := ⟨h.blocks, h.inodes⟩

theorem wrote (k : Nat) (c : Block) : Counted (v.wrote k c) := ⟨h.blocks, h.inodes⟩

theorem inSession (f : Session → Session) : Counted (v.inSession f) := ⟨h.blocks, h.inodes⟩

theorem made {e : Env} {fmode : UInt16} {content : Option (UInt32 → Block)} {q : Nat} {v₁ : Volume}
    (hmade : Volume.Made e v fmode content q v₁) : Counted v₁ := by
  cases hmade with
  | empty hq => exact h.created hq _
  | withBlock hq hb => exact (h.created hq _).allotted hb _

theorem wroteDentry {i : Inode} {dnum : UInt32} {d : Dentry} {r : Inode × Volume}
    (hr : Volume.Wrote v i dnum d r) :
    Counted r.2 := by
  cases hr with
  | refused => exact h
  | grown _ _ _ hb _ => exact (h.stored _).allotted hb _
  | filled => exact (h.stored _).wrote _ _
  | lost => exact (h.stored _).wrote _ _

end Parts

theorem grew {here r : Inode × Volume} {k : Nat} (h : Counted here.2)
    (hhere : (∀ k, k < 266 → here.2.blockBit k = true) ∧ here.1.iNum.toNat < 8192)
    (hgrew : Volume.Grew here k r) :
    Counted r.2 ∧ (∀ k, k < 266 → r.2.blockBit k = true) ∧ r.1.iNum.toNat < 8192 := by
  cases hgrew with
  | intro hk hb hi =>
    refine ⟨(h.allotted hb _).stored _, fun m hm => ?_, ?_⟩
    · simp [Volume.allotted, Volume.stored, Function.update_apply, hhere.1 m hm]
    · rw [hi, Inode.point_iNum, Inode.addSize_iNum, Inode.pointIndirect_iNum]
      exact hhere.2

theorem change {V : Set Nat} {e : Env} {op : Op} {v v' : Volume} (h : Counted v) (hw : Well V v)
    (hop : ∀ path, op ≠ .rmdir path) (hc : Volume.Change V e v op v') : Counted v' := by
  cases hc with
  | session f => exact h.inSession f
  | create hadds =>
    obtain ⟨_, _, _, _, hmade, hwrote⟩ := hadds
    exact (h.made hmade).wroteDentry hwrote
  | link hlinked =>
    obtain ⟨_, _, _, _, _, _, _, hwrote⟩ := hlinked
    exact (h.stored _).wroteDentry hwrote
  | rename hrenames =>
    obtain ⟨_, _, _, _, _, _, hwrote⟩ := hrenames
    exact h.wroteDentry hwrote
  | rmdir => exact absurd rfl (hop _)
  | cd => exact h.inSession _
  | @fwrite _ _ _ _ i' v₁ _ _ _ _ _ hknown hload hgrow _ hwrite =>
    have hgrown : Counted v₁ ∧ (∀ k, k < 266 → v₁.blockBit k = true) ∧ i'.iNum.toNat < 8192 :=
      Volume.grow_invariant (I := fun x => Counted x.2 ∧ (∀ k, k < 266 → x.2.blockBit k = true) ∧
        x.1.iNum.toNat < 8192)
        (fun _ hx => hx.2.1) (fun _ hx => hx.2.2) (fun _ _ _ hx hgrew => grew hx.1 hx.2 hgrew)
        ⟨h, hw.low, (hw.of_load hknown hload).1⟩ hgrow
    obtain ⟨f, rfl, -⟩ := Volume.writeSpan_spec hwrite
    exact ⟨hgrown.1.blocks, hgrown.1.inodes⟩

end Counted

theorem counted_mkfs (e : Env) (s : FileSys) : Counted (Volume.mkfs e s) := by
  have hblock : ∀ k, (Volume.mkfs e s).blockBit k = decide (k < 267) := fun k =>
    decide_eq_decide.mpr (show k ≤ 266 ↔ k < 267 by omega)
  have hinode : ∀ q, (Volume.mkfs e s).inodeBit q = decide (q < 1) := fun q =>
    decide_eq_decide.mpr (show q = 0 ↔ q < 1 by omega)
  refine ⟨?_, ?_⟩
  · rw [clearCount_of_lt hblock]
    rfl
  · rw [clearCount_of_lt hinode]
    rfl

def Op.Counts (op : Op) (s : FileSys) : Prop := op.Regular s ∧ ∀ path, op ≠ .rmdir path

theorem Reach.counted {t : FileSys} (h : Reach Op.Counts t) : ∃ v, Shows t v ∧ Counted v := by
  obtain ⟨v, hv, -, hcounted⟩ := h.invariant (I := fun v => Well (taken v) v ∧ Counted v)
    (fun e s => ⟨taken_mkfs e s ▸ well_mkfs e s, counted_mkfs e s⟩)
    fun {s t v e op} hs ⟨hw, hcounted⟩ hop hexec => by
      obtain ⟨v', hv', hdoes, hw'⟩ := hop.1.does hs hw (fun path _ _ _ _ hpath => absurd hpath
        (hop.2 path)) hexec
      exact ⟨v', hv', hw', hcounted.change hw hop.2 hdoes.change⟩
  exact ⟨v, hv, hcounted⟩

theorem Shows.counters_eq {s : FileSys} {v : Volume} (h : Shows s v) :
    s.sFreeBlocksCnt = v.freeBlocks ∧ s.sFreeInodeCnt = v.freeInodes := by
  rw [FileSys.sFreeBlocksCnt, FileSys.sFreeInodeCnt, h.counters, superblockOf_word_blocks,
    superblockOf_word_inodes]
  exact ⟨rfl, rfl⟩

theorem Counted.exact {s : FileSys} {v : Volume} (h : Counted v) (hv : Shows s v) :
    s.sFreeBlocksCnt.toNat = s.freeBlockCount ∧ s.sFreeInodeCnt.toNat = s.freeInodeCount := by
  rw [hv.counters_eq.1, hv.counters_eq.2, h.blocks, h.inodes]
  exact ⟨clearCount_congr hv.blockBit, clearCount_congr hv.inodeBit⟩

theorem counters_exact {t : FileSys} (h : Reach Op.Counts t) :
    t.sFreeBlocksCnt.toNat = t.freeBlockCount ∧ t.sFreeInodeCnt.toNat = t.freeInodeCount := by
  obtain ⟨v, hv, hcounted⟩ := h.counted
  exact hcounted.exact hv

def Volume.counts (op : Op) (v : Volume) : Bool :=
  v.regular op && match op with
  | .rmdir _ => false
  | _ => true

theorem Shows.of_counts (s : FileSys) (v : Volume) (op : Op) (h : Shows s v)
    (hop : v.counts op = true) : op.Counts s := by
  obtain ⟨hregular, hrmdir⟩ := Bool.and_eq_true_iff.mp hop
  refine ⟨h.of_regular hregular, ?_⟩
  rintro path rfl
  cases hrmdir

theorem counters_exact_written : ∃ s t, FileSys.blank.doMkfs .blank = .ok s ∧
    runOps [.mkdir (Text.dot.child .a) 0, .touch .b 0, .fopen .b 0, .fwrite 0 [1, 2, 3]] s =
      .ok t ∧
    t.sFreeBlocksCnt = 261875 ∧ t.freeBlockCount = 261875 ∧
    t.sFreeInodeCnt = 8189 ∧ t.freeInodeCount = 8189 := by
  obtain ⟨s, t, v, hs, ht, hreach, hv, hp⟩ := exists_run_checked Shows.of_counts
    [.mkdir (Text.dot.child .a) 0, .touch .b 0, .fopen .b 0, .fwrite 0 [1, 2, 3]]
    (p := fun v => v.freeBlocks == 261875 && v.freeInodes == 8189) (by decide +kernel)
  obtain ⟨hblocks, hinodes⟩ := Bool.and_eq_true_iff.mp hp
  have hblocks' : t.sFreeBlocksCnt = 261875 := hv.counters_eq.1.trans (eq_of_beq hblocks)
  have hinodes' : t.sFreeInodeCnt = 8189 := hv.counters_eq.2.trans (eq_of_beq hinodes)
  obtain ⟨hexactly, hexactly'⟩ := counters_exact hreach
  rw [hblocks'] at hexactly
  rw [hinodes'] at hexactly'
  exact ⟨s, t, hs, ht, hblocks', hexactly.symm, hinodes', hexactly'.symm⟩

theorem Volume.Removes.bits {V : Set Nat} {v v' : Volume} {path : Text}
    (h : Removes V v path v') (hw : Well V v) :
    ∃ n name i c, v.target (.rmdir path) = .ok (n, name) ∧ v.load n = .ok i ∧
      v.findFile i name = .ok c ∧ c.toNat < 8192 ∧ v'.inodeBit = (v.removed c.toNat).inodeBit ∧
      v'.blockBit = (v.removed c.toNat).blockBit ∧ v'.freeBlocks = v.freeBlocks ∧
      v'.freeInodes = v.freeInodes := by
  cases h with
  | @intro name n c dnum i i' v₁ hn htarget hload hchild hc hdnum hwrote =>
  refine ⟨n, name, i, c, htarget, hload, hchild, hw.lt _ hc, ?_⟩
  cases hwrote with
  | refused => exact ⟨rfl, rfl, rfl, rfl⟩
  | filled => exact ⟨rfl, rfl, rfl, rfl⟩
  | lost => exact ⟨rfl, rfl, rfl, rfl⟩
  | grown _ h12 hzero =>
    exact absurd hzero
      (present_of_findFile (hw.of_load hn hload).2 hchild (hw.lt _ hc) hdnum h12)

/-- What `do_rmdir` clears, and that it counts none of it. -/
theorem rmdir_clears {s t : FileSys} (h : Reach (fun op _ => op.WritesThrough) s) {path : Text}
    (ht : s.doRmdir path = .ok t) {n c : UInt32} {name : Text}
    (htarget : s.target (.rmdir path) = .ok (n, name))
    (hchild : s.findFile (s.syncFromDiskInode n) name = .ok c) :
    (∀ q < 8192, t.inodebmp.bit q = Function.update s.inodebmp.bit c.toNat false q) ∧
      (∀ k < 262144, t.blockbmp.bit k =
        (s.blockbmp.bit k && decide (∀ p ∈ Volume.leading (s.syncFromDiskInode c), p.toNat ≠ k))) ∧
      t.sFreeBlocksCnt = s.sFreeBlocksCnt ∧ t.sFreeInodeCnt = s.sFreeInodeCnt := by
  obtain ⟨v, hv, V, W, -, hw, hs⟩ := h.remountable
  obtain ⟨v', hv', hdoes⟩ := hs.does hv hw .blank (.rmdir path) trivial ht
  obtain ⟨n', name', i, c', htarget', hload, hchild', hc, hinode, hblock, hblocks, hinodes⟩ :=
    Volume.Removes.bits hdoes hw
  obtain ⟨rfl, rfl⟩ := Prod.mk.inj
    (Except.ok.inj (htarget.symm.trans (eq_ok_of_refines (hv.target _) htarget')))
  rw [hv.load hload] at hchild
  obtain rfl := Except.ok.inj (hchild.symm.trans (eq_ok_of_refines (hv.findFile _ _) hchild'))
  have hc' : v.inode c.toNat = s.syncFromDiskInode c :=
    (hv.load (Volume.load_of_lt hc)).symm
  refine ⟨fun q hq => ?_, fun k hk => ?_, ?_, ?_⟩
  · rw [← hv'.inodeBit q hq, hinode]
    simp only [Volume.removed, Function.update_apply, hv.inodeBit q hq]
  · rw [← hv'.blockBit k hk, ← hv.blockBit k hk, hblock, ← hc']
    rfl
  · rw [hv'.counters_eq.1, hv.counters_eq.1, hblocks]
  · rw [hv'.counters_eq.2, hv.counters_eq.2, hinodes]

/-- `mkdir ./a; rmdir ./a`. -/
theorem rmdir_not_counted : ∃ s₀ s t, FileSys.blank.doMkfs .blank = .ok s₀ ∧
    exec .blank (.mkdir (Text.dot.child .a) 0) s₀ = .ok s ∧ exec .blank (.rmdir (Text.dot.child .a))
    s = .ok t ∧
    t.sFreeBlocksCnt.toNat + 1 = t.freeBlockCount ∧ t.sFreeInodeCnt.toNat + 1 = t.freeInodeCount :=
    by
  obtain ⟨s₀, s, v, hs₀, hs, hreach, hv, hp⟩ := exists_run_checked
    (C := fun op s => op.Counts s ∧ op.WritesThrough)
    (c := fun op v => v.counts op && op.writesThrough)
    (fun s v op hv hop => ⟨Shows.of_counts s v op hv (Bool.and_eq_true_iff.mp hop).1,
      .of_bool (Bool.and_eq_true_iff.mp hop).2⟩)
    [.mkdir (Text.dot.child .a) 0]
    (p := fun v => (v.target (.rmdir (Text.dot.child .a))).toOption == some (0, .a) &&
      (v.findFile (v.inode 0) .a).toOption == some 1 && Volume.leading (v.inode 1) == [267] &&
      v.inodeBit 1 && v.blockBit 267 &&
      (v.exec .blank (.rmdir (Text.dot.child .a))).toOption.isSome)
    (by decide +kernel)
  rw [runOps_singleton] at hs
  simp only [Bool.and_eq_true, beq_iff_eq] at hp
  obtain ⟨⟨⟨⟨⟨htarget, hchild⟩, hleading⟩, hinode⟩, hblock⟩, hrmdir⟩ := hp
  obtain ⟨v', hrmdir⟩ := Option.isSome_iff_exists.mp hrmdir
  obtain ⟨t, ht, -⟩ := (hv.doRmdir _).exists_ok (eq_ok_of_toOption hrmdir)
  rw [show v.inode 0 = s.syncFromDiskInode 0 from hv.inode 0 (by omega)] at hchild
  rw [show v.inode 1 = s.syncFromDiskInode 1 from hv.inode 1 (by omega)] at hleading
  rw [hv.inodeBit 1 (by omega)] at hinode
  rw [hv.blockBit 267 (by omega)] at hblock
  obtain ⟨hinodes, hblocks, hcount, hcount'⟩ := rmdir_clears (hreach.mono fun _ _ h => h.2) ht
    (eq_ok_of_refines (hv.target _) (eq_ok_of_toOption htarget))
    (eq_ok_of_refines (hv.findFile _ _) (eq_ok_of_toOption hchild))
  obtain ⟨u, hu, hcounted⟩ := (hreach.mono fun _ _ h => h.1).counted
  obtain ⟨hexact, hexact'⟩ := hcounted.exact hu
  refine ⟨s₀, s, t, hs₀, hs, ht, ?_, ?_⟩
  · rw [hcount, hexact]
    refine clearCount_clear (show 267 < 262144 by omega) hblock fun k hk => ?_
    rw [hblocks k hk, hleading, Function.update_apply]
    by_cases h : k = 267
    · simp [h]
    · simp [h, Ne.symm h]
  · rw [hcount', hexact']
    exact clearCount_clear (show 1 < 8192 by omega) hinode hinodes

end Ucas.Fs

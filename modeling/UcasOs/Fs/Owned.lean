import UcasOs.Fs.Well
import Mathlib.Tactic.FinCases

/-! Who owns a block. A block is handed out only while its bit is clear, and the record that gets it
is the only one to have it, until `do_rmdir` clears the bits of an inode that is in use. -/

namespace Ucas.Fs
open Ucas.Lib

section Indirect
variable (i : Inode) (level : Fin 3)

theorem Inode.indirectPtr_addEntry : i.addEntry.indirectPtr level = i.indirectPtr level := by
  simp only [indirectPtr, addEntry]

theorem Inode.indirectPtr_dropEntry : i.dropEntry.indirectPtr level = i.indirectPtr level := by
  simp only [indirectPtr, dropEntry]

theorem Inode.indirectPtr_addSize : i.addSize.indirectPtr level = i.indirectPtr level := by
  simp only [indirectPtr, addSize]

theorem Inode.indirectPtr_addLink : i.addLink.indirectPtr level = i.indirectPtr level := by
  simp only [indirectPtr, addLink]

theorem Inode.indirectPtr_point (k : Fin 12) (b : UInt32) :
    (i.point k b).indirectPtr level = i.indirectPtr level := by
  simp only [indirectPtr, point]

theorem indirectPtr_newInode (e : Env) (fmode : UInt16) (fsize b inum : UInt32) :
    (newInode e fmode fsize b inum).indirectPtr level = 0 := by fin_cases level <;> rfl

theorem indirectPtr_zeroInode : zeroInode.indirectPtr level = 0 := by
  rw [zeroInode_eq]
  fin_cases level <;> rfl

end Indirect

namespace Volume

structure Holds (v : Volume) (p : Nat) (i : Inode) : Prop where
  bit : ∀ k, i.iDirectTable k ≠ 0 → v.blockBit (i.iDirectTable k).toNat = true
  apart : ∀ k, i.iDirectTable k ≠ 0 → ∀ k', i.iDirectTable k' = i.iDirectTable k → k' = k
  other : ∀ k, i.iDirectTable k ≠ 0 → ∀ q ∈ taken v, q ≠ p → ∀ k', (v.inode q).iDirectTable
    k' ≠ i.iDirectTable k

def Owned (v : Volume) : Prop := ∀ q ∈ taken v, v.Holds q (v.inode q)

namespace Holds
variable {v u : Volume} {p : Nat} {i : Inode}

theorem of_zero (v : Volume) (p : Nat) (hi : ∀ k, i.iDirectTable k = 0) : v.Holds p i :=
  ⟨fun k hk => absurd (hi k) hk, fun k hk => absurd (hi k) hk, fun k hk => absurd (hi k) hk⟩

theorem of_table (h : v.Holds p i) {j : Inode} (hj : j.iDirectTable = i.iDirectTable) :
    v.Holds p j := by
  refine ⟨fun k hk => ?_, fun k hk k' hk' => ?_, fun k hk q hq hqp k' => ?_⟩
  · rw [hj] at hk ⊢
    exact h.bit k hk
  · rw [hj] at hk hk'
    exact h.apart k hk k' hk'
  · rw [hj] at hk ⊢
    exact h.other k hk q hq hqp k'

theorem mono (h : v.Holds p i) (hbit : ∀ k, v.blockBit k = true → u.blockBit k = true)
    (hinode : ∀ q ∈ taken u, q ≠ p → q ∈ taken v ∧ u.inode q = v.inode q) : u.Holds p i := by
  refine ⟨fun k hk => hbit _ (h.bit k hk), h.apart, fun k hk q hq hqp k' => ?_⟩
  obtain ⟨hqv, hsame⟩ := hinode q hq hqp
  rw [hsame]
  exact h.other k hk q hqv hqp k'

theorem point (h : v.Holds p i) (howned : v.Owned) {b : Nat} (hb : b ∈ dataBlocks)
    (hclear : v.blockBit b = false) (c : Block)
    {k : Fin 12} {j : Inode} (hj : j.iDirectTable = Function.update i.iDirectTable k
    (UInt32.ofNat b)) :
    (v.allotted b c).Holds p j := by
  have hnat : (UInt32.ofNat b).toNat = b := toNat_of_mem_dataBlocks hb
  -- no record has the new block yet
  have hfresh : ∀ {x : UInt32}, v.blockBit x.toNat = true → x ≠ UInt32.ofNat b := fun hset heq => by
    rw [heq, hnat, hclear] at hset
    cases hset
  have hbit : ∀ m, v.blockBit m = true → (v.allotted b c).blockBit m = true := fun m hm => by
    simp [allotted, Function.update_apply, hm]
  refine ⟨fun m hm => ?_, fun m hm m' hm' => ?_, fun m hm q hq hqp m' heq => ?_⟩
  · rw [hj, Function.update_apply] at hm ⊢
    split_ifs at hm ⊢
    · rw [hnat]
      simp [allotted]
    · exact hbit _ (h.bit m hm)
  · rw [hj, Function.update_apply] at hm
    rw [hj, Function.update_apply, Function.update_apply] at hm'
    split_ifs at hm hm' with hmk hmk' hmk'
    · rw [hmk, hmk']
    · by_cases hzero : i.iDirectTable m' = 0
      · exact absurd (hm'.symm.trans hzero) hm
      · exact absurd hm' (hfresh (h.bit m' hzero))
    · exact absurd hm'.symm (hfresh (h.bit m hm))
    · exact h.apart m hm m' hm'
  · rw [hj, Function.update_apply] at hm heq
    split_ifs at hm heq with hmk
    · exact hfresh ((howned q hq).bit m' (heq ▸ hm)) heq
    · exact h.other m hm q hq hqp m' heq

end Holds

namespace Owned
variable {v : Volume} (h : v.Owned)
include h

theorem inSession (f : Session → Session) : (v.inSession f).Owned := fun q hq =>
  (h q hq).mono (fun _ hk => hk) fun _ hq _ => ⟨hq, rfl⟩

theorem allotted (b : Nat) (c : Block) : (v.allotted b c).Owned := fun q hq =>
  (h q hq).mono (fun k hk => by simp [Volume.allotted, Function.update_apply, hk]) fun _ hq _ =>
    ⟨hq, rfl⟩

theorem wrote (k : Nat) (c : Block) : (v.wrote k c).Owned := fun q hq =>
  (h q hq).mono (fun _ hk => hk) fun _ hq _ => ⟨hq, rfl⟩

theorem stored {i : Inode} (hi : i.iNum.toNat ∈ taken v → v.Holds i.iNum.toNat i) :
    (v.stored i).Owned := by
  intro q hq
  have hq : q ∈ taken v := hq
  simp only [Volume.stored, Function.update_apply]
  split_ifs with hqi
  · subst hqi
    exact (hi hq).mono (fun _ hk => hk) fun q' hq' hne => ⟨hq', Function.update_of_ne hne _ _⟩
  · refine ⟨(h q hq).bit, (h q hq).apart, fun k hk q' hq' hne k' => ?_⟩
    simp only [Function.update_apply]
    split_ifs with hq'i
    · subst hq'i
      intro heq
      exact (hi hq').other k' (heq ▸ hk) q hq hqi k heq.symm
    · exact (h q hq).other k hk q' hq' hne k'

theorem created {q : Nat} (hq : v.inodeBit q = false) {i : Inode} (hi : v.Holds q i) :
    (v.created q i).Owned := by
  have htaken : ∀ p ∈ taken (v.created q i), p ≠ q → p ∈ taken v ∧ (v.created q i).inode p = v.inode
      p := fun p hp hpq => by
    refine ⟨⟨hp.1, ?_⟩, Function.update_of_ne hpq _ _⟩
    have hbit := hp.2
    simpa [Volume.created, Function.update_of_ne hpq] using hbit
  have hfree : q ∉ taken v := fun hmem => by
    rw [hmem.2] at hq
    cases hq
  have hself : (v.created q i).inode q = i := Function.update_self ..
  intro p hp
  by_cases hpq : p = q
  · subst hpq
    rw [hself]
    exact hi.mono (fun _ hk => hk) htaken
  · obtain ⟨hpv, hsame⟩ := htaken p hp hpq
    rw [hsame]
    refine ⟨(h p hpv).bit, (h p hpv).apart, fun k hk p' hp' hne k' => ?_⟩
    by_cases hp'q : p' = q
    · subst hp'q
      rw [hself]
      exact fun heq => hi.other k' (heq ▸ hk) p hpv hpq k heq.symm
    · obtain ⟨hp'v, hsame'⟩ := htaken p' hp' hp'q
      rw [hsame']
      exact (h p hpv).other k hk p' hp'v hne k'

theorem removed {c : Nat} (hc : c ∈ taken v) : (v.removed c).Owned := by
  intro p hp
  obtain ⟨hpv, hpc⟩ := mem_taken_removed.mp hp
  refine ⟨fun k hk => ?_, (h p hpv).apart, fun k hk q hq hqp k' => (h p hpv).other k hk q
    (mem_taken_removed.mp hq).1 hqp k'⟩
  have hleft : ∀ x ∈ leading (v.inode c), x.toNat ≠ ((v.inode p).iDirectTable k).toNat :=
      fun x hx heq => by
    obtain ⟨hne, k', rfl⟩ := ne_zero_of_mem_leading hx
    exact (h p hpv).other k hk c hc (Ne.symm hpc) k' (UInt32.toNat_inj.mp heq)
  simp only [Volume.removed, (h p hpv).bit k hk, decide_eq_true hleft, Bool.and_self]

theorem made (hlow : ∀ k, k < 266 → v.blockBit k = true) {e : Env} {fmode : UInt16}
    {content : Option (UInt32 → Block)}
    {q : Nat} {v₁ : Volume} (hmade : Made e v fmode content q v₁) : v₁.Owned := by
  cases hmade with
  | empty hq =>
    exact h.created (firstClear_lt hq).2 (.of_zero v q fun k => by simp [newInode])
  | @withBlock content _ b hq hb =>
    have hzero : v.Holds q (newInode e fmode 4096 0 (UInt32.ofNat q)) :=
      .of_zero v q fun k => by simp [newInode]
    have hpoint := hzero.point h (firstClear_mem_dataBlocks hlow hb) (firstClear_lt hb).2
      (content (UInt32.ofNat q))
      (k := 0) (j := newInode e fmode 4096 (UInt32.ofNat b) (UInt32.ofNat q)) (by simp [newInode])
    exact (h.allotted b (content (UInt32.ofNat q))).created (firstClear_lt hq).2 hpoint

omit h in
theorem with_record {i : Inode} {u : Volume} (hu : u.Owned) (hself : u.inode i.iNum.toNat = i) :
    u.Owned ∧ (i.iNum.toNat ∈ taken u → u.Holds i.iNum.toNat i) :=
  ⟨hu, fun hmem => by
    have hholds := hu _ hmem
    rwa [hself] at hholds⟩

theorem wroteDentry (hlow : ∀ k, k < 266 → v.blockBit k = true) {i : Inode}
    (hi : i.iNum.toNat ∈ taken v → v.Holds i.iNum.toNat i)
    {dnum : UInt32} {d : Dentry} {r : Inode × Volume} (hr : Wrote v i dnum d r) :
    r.2.Owned ∧ (r.1.iNum.toNat ∈ taken r.2 → r.2.Holds r.1.iNum.toNat r.1) := by
  cases hr with
  | refused => exact ⟨h, hi⟩
  | @grown b i' _ h12 hzero hb hi' =>
    have htable : i'.iDirectTable = Function.update i.iDirectTable ⟨_, h12⟩ (UInt32.ofNat b) := by
      simp [hi']
    have hnum : i'.iNum = i.iNum := by simp [hi']
    have hholds : i'.iNum.toNat ∈ taken v →
        (v.allotted b (putDentry .zero (dnum % 32).toNat d)).Holds i'.iNum.toNat i' :=
      fun hmem => by
      rw [hnum] at hmem ⊢
      exact (hi hmem).point h (firstClear_mem_dataBlocks hlow hb) (firstClear_lt hb).2 _ htable
    rw [allotted_stored]
    exact ((h.allotted b _).stored hholds).with_record (Function.update_self ..)
  | filled =>
    have hstored := h.stored (i := i.addEntry) fun hmem => (hi hmem).of_table rfl
    exact (hstored.wrote _ _).with_record (Function.update_self ..)
  | lost =>
    have hstored := h.stored (i := i.addEntry) fun hmem => (hi hmem).of_table rfl
    exact (hstored.wrote _ _).with_record (Function.update_self ..)

theorem holds {i : Inode} (hi : (∀ k, i.iDirectTable k = 0) ∨ v.inode i.iNum.toNat = i)
    (hmem : i.iNum.toNat ∈ taken v) :
    v.Holds i.iNum.toNat i := by
  obtain hzero | hself := hi
  · exact .of_zero v _ hzero
  · have hholds := h _ hmem
    rwa [hself] at hholds

theorem holds_stored {x i : Inode} (hx : x.iNum.toNat ∈ taken v → v.Holds x.iNum.toNat x)
    (hi : (∀ k, i.iDirectTable k = 0) ∨ v.inode i.iNum.toNat = i) (hmem : i.iNum.toNat ∈ taken v) :
    (v.stored x).Holds i.iNum.toNat i := by
  by_cases hij : i.iNum.toNat = x.iNum.toNat
  · exact (h.holds hi hmem).mono (fun _ hk => hk) fun q hq hne => ⟨hq, Function.update_of_ne
      (hij ▸ hne) _ _⟩
  · refine (h.stored hx).holds (hi.imp_right fun hself => ?_) hmem
    simp only [Volume.stored, Function.update_of_ne hij, hself]

omit h in
theorem grew {here r : Inode × Volume} {k : Nat} (hhere : here.2.Owned) (hlow : ∀ k, k < 266 →
    here.2.blockBit k = true)
    (hi : here.1.iNum.toNat ∈ taken here.2 → here.2.Holds here.1.iNum.toNat here.1)
    (hgrew : Grew here k r) :
    r.2.Owned ∧ (r.1.iNum.toNat ∈ taken r.2 → r.2.Holds r.1.iNum.toNat r.1) := by
  cases hgrew with
  | @intro b i hk hb hi' =>
    have htable : i.iDirectTable = Function.update here.1.iDirectTable ⟨k, hk⟩ (UInt32.ofNat b) :=
      by simp [hi']
    have hnum : i.iNum = here.1.iNum := by simp [hi']
    have hholds : i.iNum.toNat ∈ taken here.2 → (here.2.allotted b .zero).Holds i.iNum.toNat i :=
        fun hmem => by
      rw [hnum] at hmem ⊢
      exact (hi hmem).point hhere (firstClear_mem_dataBlocks hlow hb) (firstClear_lt hb).2 _ htable
    exact ((hhere.allotted b .zero).stored hholds).with_record (Function.update_self ..)

end Owned

theorem loaded {V : Set Nat} {v : Volume} (hw : Well V v) {n : UInt32} (hn : Known V n) {i : Inode}
    (hload : v.load n = .ok i) :
    (∀ k, i.iDirectTable k = 0) ∨ i.iNum.toNat ∈ V ∧ v.inode i.iNum.toNat = i := by
  refine (hw.loaded hn hload).imp_left ?_
  rintro rfl
  exact zeroInode_iDirectTable

theorem Owned.change {v v' : Volume} {e : Env} {op : Op} (h : v.Owned) (hw : Well (taken v) v)
    (hc : Change (taken v) e v op v') : v'.Owned := by
  have hloaded : ∀ {n i}, Known (taken v) n → v.load n = .ok i → v.Holds i.iNum.toNat i :=
      fun hn hload =>
    (loaded hw hn hload).elim (.of_zero v _) fun hi => h.holds (.inr hi.2) hi.1
  cases hc with
  | session f => exact h.inSession f
  | @create op name i v' hadds =>
    obtain @⟨n, i', fmode, content, q, v₁, hn, htarget, hload, hmakes, hmade, hwrote⟩ := hadds
    obtain ⟨-, hclear, -⟩ := hmade.inodeBit
    refine ((h.made hw.low hmade).wroteDentry (fun k hk => hmade.low (hw.low k hk)) (fun hmem => ?_)
      hwrote).1
    refine (h.made hw.low hmade).holds ((loaded hw hn hload).imp_right fun ⟨hi, hself⟩ => ?_) hmem
    -- the directory is in use, so it is not the new inode
    have hne : i.iNum.toNat ≠ q := fun heq => by
      rw [← heq, hi.2] at hclear
      cases hclear
    rw [hmade.inode_of_ne hne, hself]
  | @link srcPath newPath v' hlinked =>
    obtain @⟨name, m, n, i, i', j, hm, hn, hsrc, hsrcload, hfile, htarget, hload, hwrote⟩ := hlinked
    have hstored := h.stored (i := j.addLink) fun _ => (hloaded hm hsrcload).of_table rfl
    refine (hstored.wroteDentry hw.low (fun hmem => ?_) hwrote).1
    exact h.holds_stored (fun _ => (hloaded hm hsrcload).of_table rfl)
      ((loaded hw hn hload).imp_right And.right) hmem
  | rename hrenames =>
    obtain ⟨hn, htarget, hload, hchild, hdnum, hfits, hwrote⟩ := hrenames
    exact (h.wroteDentry hw.low (fun _ => hloaded hn hload) hwrote).1
  | @rmdir path _ hremoves =>
    obtain @⟨name, n, c, dnum, i, i', v₁, hn, htarget, hload, hchild, hc, hdnum, hwrote⟩ := hremoves
    have hremoved := h.removed hc
    have hholds : i.iNum.toNat ∈ taken (v.removed c.toNat) → (v.removed c.toNat).Holds i.iNum.toNat
        i :=
      hremoved.holds ((loaded hw hn hload).imp_right And.right)
    obtain ⟨howned, hi'⟩ := hremoved.wroteDentry (hw.removed hc).low hholds hwrote
    exact howned.stored (i := i'.dropEntry) fun hmem => (hi' hmem).of_table rfl
  | cd => exact h.inSession _
  | @fwrite fd data k i i' v₁ v' first last buffer hk hknown hload hgrow hspan hwrite =>
    have hgrown := grow_invariant (I := fun x => x.2.Owned ∧ (∀ k, k < 266 → x.2.blockBit k = true)
      ∧
      (x.1.iNum.toNat ∈ taken x.2 → x.2.Holds x.1.iNum.toNat x.1) ∧ x.1.iNum.toNat < 8192)
        (fun x hx => hx.2.1)
      (fun x hx => hx.2.2.2) ?_ ⟨h, hw.low, fun _ => hloaded hknown hload,
        (hw.of_load hknown hload).1⟩ hgrow
    · obtain ⟨f, rfl, -⟩ := writeSpan_spec hwrite
      exact fun q hq => (hgrown.1 q hq).mono (fun _ hk => hk) fun _ hq _ => ⟨hq, rfl⟩
    · rintro x m r ⟨hx, hlow, hholds, hnum⟩ hgrew
      obtain ⟨hr, hrholds⟩ := hx.grew hlow hholds hgrew
      refine ⟨hr, fun k hk => ?_, hrholds, ?_⟩
      · cases hgrew with
        | intro hk' hb hi => simp [Volume.allotted, Volume.stored, Function.update_apply, hlow k hk]
      · cases hgrew with
        | intro hk' hb hi => simpa [hi] using hnum

def Straight (v : Volume) (level : Fin 3) : Prop := ∀ q ∈ taken v, (v.inode q).indirectPtr level = 0

namespace Straight
variable {v : Volume} {level : Fin 3} (h : v.Straight level)
include h

theorem stored {i : Inode} (hi : i.indirectPtr level = 0) : (v.stored i).Straight level := by
  intro q hq
  simp only [Volume.stored, Function.update_apply]
  split_ifs
  · exact hi
  · exact h q hq

theorem wroteDentry {i : Inode} (hi : i.indirectPtr level = 0) {dnum : UInt32} {d : Dentry}
    {r : Inode × Volume}
    (hr : Wrote v i dnum d r) : r.2.Straight level ∧ r.1.indirectPtr level = 0 := by
  cases hr with
  | refused => exact ⟨h, hi⟩
  | @grown b i' _ _ _ _ hi' =>
    have hind : i'.indirectPtr level = 0 := by
      rw [hi', Inode.indirectPtr_addEntry, Inode.indirectPtr_addSize, Inode.indirectPtr_point, hi]
    exact ⟨h.stored hind, hind⟩
  | filled =>
    have hind : i.addEntry.indirectPtr level = 0 := by rw [Inode.indirectPtr_addEntry, hi]
    exact ⟨h.stored hind, hind⟩
  | lost =>
    have hind : i.addEntry.indirectPtr level = 0 := by rw [Inode.indirectPtr_addEntry, hi]
    exact ⟨h.stored hind, hind⟩

theorem change {v' : Volume} {e : Env} {op : Op} (hw : Well (taken v) v)
    (hop : ∀ fd data, op ≠ .fwrite fd data)
    (hc : Change (taken v) e v op v') : v'.Straight level := by
  have hloaded : ∀ {n i}, Known (taken v) n → v.load n = .ok i → i.indirectPtr level = 0 :=
      fun hn hload => by
    obtain rfl | hq := hn
    · rw [v.load_notFound] at hload
      obtain rfl := Except.ok.inj hload
      exact indirectPtr_zeroInode level
    · obtain ⟨rfl, -⟩ := hw.of_mem hq hload
      exact h _ hq
  cases hc with
  | session f => exact h
  | @create op name i v' hadds =>
    obtain @⟨n, i', fmode, content, q, v₁, hn, htarget, hload, hmakes, hmade, hwrote⟩ := hadds
    have hmade' : v₁.Straight level := fun p hp => by
      by_cases hpq : p = q
      · subst hpq
        cases hmade <;> simp only [Volume.allotted, Volume.created, Function.update_self,
          indirectPtr_newInode]
      · have hset := hp.2
        rw [hmade.inodeBit.2.2, Function.update_of_ne hpq] at hset
        rw [hmade.inode_of_ne hpq]
        exact h p ⟨hp.1, hset⟩
    exact (hmade'.wroteDentry (hloaded hn hload) hwrote).1
  | @link srcPath newPath v' hlinked =>
    obtain @⟨name, m, n, i, i', j, hm, hn, hsrc, hsrcload, hfile, htarget, hload, hwrote⟩ := hlinked
    have hj : j.addLink.indirectPtr level = 0 := by
      rw [Inode.indirectPtr_addLink, hloaded hm hsrcload]
    exact ((h.stored hj).wroteDentry (hloaded hn hload) hwrote).1
  | rename hrenames =>
    obtain ⟨hn, htarget, hload, hchild, hdnum, hfits, hwrote⟩ := hrenames
    exact (h.wroteDentry (hloaded hn hload) hwrote).1
  | @rmdir path _ hremoves =>
    obtain @⟨name, n, c, dnum, i, i', v₁, hn, htarget, hload, hchild, hc, hdnum, hwrote⟩ := hremoves
    have hremoved : (v.removed c.toNat).Straight level := fun p hp => by
      have hset := hp.2
      simp only [Volume.removed, Function.update_apply] at hset
      split_ifs at hset
      exact h p ⟨hp.1, hset⟩
    obtain ⟨hv₁, hi'⟩ := hremoved.wroteDentry (hloaded hn hload) hwrote
    exact hv₁.stored (i := i'.dropEntry) ((Inode.indirectPtr_dropEntry i' level).trans hi')
  | cd => exact h
  | fwrite => exact absurd rfl (hop _ _)

end Straight

end Volume

theorem owned_mkfs (e : Env) (s : FileSys) : (Volume.mkfs e s).Owned := by
  have hinode : (Volume.mkfs e s).inode 0 = rootOf e := by simp [Volume.mkfs]
  have hzero : ∀ k, (rootOf e).iDirectTable k ≠ 0 → k = 0 := fun k hk => by
    by_contra hne
    exact hk (rootOf_direct_of_ne e hne)
  rw [Volume.Owned, taken_mkfs]
  rintro q rfl
  rw [hinode]
  refine ⟨fun k hk => ?_, fun k hk k' hk' => ?_, fun k hk q hq hne => ?_⟩
  · obtain rfl := hzero k hk
    simp [Volume.mkfs, rootOf, newInode]
  · rw [hzero k hk, hzero k' (hk' ▸ hk)]
  · rw [taken_mkfs] at hq
    exact absurd hq hne

theorem straight_mkfs (e : Env) (s : FileSys) (level : Fin 3) :
    (Volume.mkfs e s).Straight level := by
  rw [Volume.Straight, taken_mkfs]
  rintro q rfl
  simp only [Volume.mkfs, Function.update_self, rootOf, indirectPtr_newInode]

end Ucas.Fs

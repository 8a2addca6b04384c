import UcasOs.Fs.Change

/-! The loops of `do_fwrite` and `do_fread`: blocks taken one after the other for the direct table,
and ranges of block numbers read and written. -/

namespace Ucas.Fs
open Ucas.Lib

namespace Volume
variable {v : Volume}

inductive Grew (here : Inode × Volume) (k : Nat) : Inode × Volume → Prop
  | intro {b : Nat} {i : Inode} (hk : k < 12) (hb : firstClear here.2.blockBit 262144 = some b)
      (hi : i = ((here.1.pointIndirect (UInt32.ofNat b)).addSize.point ⟨k, hk⟩ (UInt32.ofNat b))) :
      Grew here k (i, (here.2.allotted b .zero).stored i)

structure Grown (here : Inode × Volume) (ks : List Nat) (r : Inode × Volume) : Prop where
  low : ∀ k, k < 266 → r.2.blockBit k = true
  iNum : r.1.iNum = here.1.iNum
  session : r.2.toSession = here.2.toSession
  within : Within dataBlocks r.1
  ne_zero : ∀ j : Fin 12, j.val ∈ ks → r.1.iDirectTable j ≠ 0
  other : ∀ j : Fin 12, j.val ∉ ks → r.1.iDirectTable j = here.1.iDirectTable j

theorem Grown.trans {here mid r : Inode × Volume} {ks ks' : List Nat} (h : Grown here ks mid)
    (h' : Grown mid ks' r) : Grown here (ks ++ ks') r := by
  refine ⟨h'.low, h'.iNum.trans h.iNum, h'.session.trans h.session, h'.within, fun j hj => ?_,
    fun j hj => ?_⟩
  · by_cases hj' : j.val ∈ ks'
    · exact h'.ne_zero j hj'
    · rw [h'.other j hj']
      exact h.ne_zero j ((List.mem_append.mp hj).resolve_right hj')
  · rw [h'.other j fun hj' => hj (List.mem_append_right _ hj'), h.other j fun hj' =>
      hj (List.mem_append_left _ hj')]

section Grow
variable {here : Inode × Volume} (hlow : ∀ k, k < 266 → here.2.blockBit k = true)
include hlow

theorem Grew.grown {k : Nat} {r : Inode × Volume} (h : Grew here k r)
    (hi : Within dataBlocks here.1) :
    Grown here [k] r := by
  cases h with
  | @intro b i hk hb hi' =>
    have hdata := firstClear_mem_dataBlocks hlow hb
    have htable : i.iDirectTable = Function.update here.1.iDirectTable ⟨k, hk⟩ (UInt32.ofNat b) :=
      by simp [hi']
    have hnat : (UInt32.ofNat b).toNat = b := toNat_of_mem_dataBlocks hdata
    have hother : ∀ j : Fin 12, j.val ∉ [k] → i.iDirectTable j = here.1.iDirectTable j :=
        fun j hj => by
      rw [htable, Function.update_of_ne fun hjk => hj (by simp [hjk])]
    have hself : ∀ j : Fin 12, j.val ∈ [k] → i.iDirectTable j = UInt32.ofNat b := fun j hj => by
      rw [htable, show j = ⟨k, hk⟩ from Fin.ext (by simpa using hj), Function.update_self]
    refine ⟨fun m hm => ?_, by simp [hi'], rfl, fun j => ?_, fun j hj => ?_, hother⟩
    · simp [allotted, stored, Function.update_apply, hlow m hm]
    · by_cases hj : j.val ∈ [k]
      · rw [hself j hj, hnat]
        exact .inr hdata
      · rw [hother j hj]
        exact hi j
    · rw [hself j hj, ← UInt32.toNat_inj.ne, hnat]
      have := hdata.1
      simp
      omega

theorem growFile_eq {k b : Nat} (hnum : here.1.iNum.toNat < 8192) (hk : k < 12)
    (hb : firstClear here.2.blockBit 262144 = some b) {i : Inode}
    (hi : i = (here.1.pointIndirect (UInt32.ofNat b)).addSize.point ⟨k, hk⟩ (UInt32.ofNat b)) :
    growFile here k = .ok (i, (here.2.allotted b .zero).stored i) := by
  obtain ⟨hge, hlt⟩ := firstClear_mem_dataBlocks hlow hb
  have hnum' : i.iNum.toNat < 8192 := by
    rw [hi, Inode.point_iNum, Inode.addSize_iNum, Inode.pointIndirect_iNum]
    exact hnum
  rw [growFile, dif_pos hk, takeBlock, hb]
  simp only [Option.elim_some, ok_bind, write, blockKey_ofNat (k := b) (by omega), if_pos hge]
  rw [← hi, store, if_pos hnum', ok_bind, pure_eq_ok]
  rfl

theorem growFile_ensures {k : Nat} (hnum : here.1.iNum.toNat < 8192) (hk : k < 12) :
    Ensures anyFault (Grew here k) (growFile here k) := by
  cases hb : firstClear here.2.blockBit 262144 with
  | none =>
    rw [growFile, dif_pos hk, takeBlock, hb]
    exact .error trivial
  | some b =>
    rw [growFile_eq hlow hnum hk hb rfl]
    exact .ok (.intro hk hb rfl)

theorem grow_ensures {ks : List Nat} (hks : ∀ k ∈ ks, k < 12) (hnum : here.1.iNum.toNat < 8192)
    (hi : Within dataBlocks here.1) :
    Ensures anyFault (Grown here ks) (ks.foldlM growFile here) := by
  induction ks generalizing here with
  | nil => exact .ok ⟨hlow, rfl, rfl, hi, by simp, by simp⟩
  | cons k ks ih =>
    rw [List.foldlM_cons]
    refine (growFile_ensures hlow hnum (hks k List.mem_cons_self)).bind fun mid _ hmid => ?_
    have hgrown := hmid.grown hlow hi
    refine (ih hgrown.low (fun m hm => hks m (List.mem_cons_of_mem _ hm)) ?_ hgrown.within).weaken
      fun r hr => hgrown.trans hr
    rw [hgrown.iNum]
    exact hnum

theorem grew_of_growFile {k : Nat} {r : Inode × Volume} (hnum : here.1.iNum.toNat < 8192)
    (h : growFile here k = .ok r) : Grew here k r := by
  by_cases hk : k < 12
  · exact (growFile_ensures hlow hnum hk).of_ok h
  · rw [growFile, dif_neg hk] at h
    cases h

end Grow

theorem grow_invariant {I : Inode × Volume → Prop} (hlow : ∀ x, I x → ∀ k, k < 266 →
    x.2.blockBit k = true)
    (hnum : ∀ x, I x → x.1.iNum.toNat < 8192) (hstep : ∀ x k r, I x → Grew x k r →
    I r) {ks : List Nat}
    {here r : Inode × Volume} (hhere : I here) (h : ks.foldlM growFile here = .ok r) : I r := by
  refine invariant_of_path ?_ hhere (path_of_foldlM h)
  rintro x x' hx ⟨k, -, hk⟩
  exact hstep x k x' hx (grew_of_growFile (hlow x hx) (hnum x hx) hk)

theorem growIndices_spec {w : UInt32} {n : Nat} (h : (w.toNat + n) / 4096 < 12) :
    ((w + UInt32.ofNat n) / 4096).toNat = (w.toNat + n) / 4096 ∧ (w / 4096).toNat ≤ (w.toNat + n) /
    4096 ∧
    ∀ k, k ∈ FileSys.growIndices w (UInt32.ofNat n) ↔
      (if w = 0 then (w / 4096).toNat ≤ k else (w / 4096).toNat < k) ∧
      k ≤ (w.toNat + n) / 4096 := by
  have hsum : (w + UInt32.ofNat n).toNat = w.toNat + n := by
    rw [UInt32.toNat_add, UInt32.toNat_ofNat']
    omega
  have hend : ((w + UInt32.ofNat n) / 4096).toNat = (w.toNat + n) / 4096 := by
    rw [UInt32.toNat_div, hsum]
    rfl
  have hbegin : (w / 4096).toNat = w.toNat / 4096 := UInt32.toNat_div ..
  have hle : (w / 4096).toNat ≤ (w.toNat + n) / 4096 := by
    rw [hbegin]
    omega
  have hneed : ((w + UInt32.ofNat n) / 4096 - w / 4096).toNat = (w.toNat + n) /
      4096 - (w / 4096).toNat := by
    rw [UInt32.toNat_sub_of_le _ _ (by rw [UInt32.le_iff_toNat_le, hend]; exact hle), hend]
  refine ⟨hend, hle, fun k => ?_⟩
  unfold FileSys.growIndices
  dsimp only
  rw [hneed]
  split_ifs with hw <;> rw [List.mem_range'_1] <;> omega

theorem spanOf_of_lt {first last : UInt32} (h : last.toNat < 0xffffffff) :
    FileSys.spanOf first last = last.toNat + 1 - first.toNat := by
  have hne : last ≠ 0xffffffff := by
    rintro rfl
    exact absurd h (by decide)
  rw [FileSys.spanOf, if_neg hne]
  split_ifs with hle <;> rw [UInt32.le_iff_toNat_le] at hle <;> omega

theorem span_mem_dataBlocks {first last : UInt32} (hfirst : first.toNat ∈ dataBlocks)
    (hlast : last.toNat ∈ dataBlocks)
    {j : Nat} (hj : j < FileSys.spanOf first last) :
    blockKey (first + UInt32.ofNat j) ∈ dataBlocks := by
  obtain ⟨hge, -⟩ := hfirst
  obtain ⟨-, hlt⟩ := hlast
  rw [spanOf_of_lt (by omega)] at hj
  have hsum : (first + UInt32.ofNat j).toNat = first.toNat + j := by
    rw [UInt32.toNat_add, UInt32.toNat_ofNat']
    omega
  rw [blockKey_of_lt (by omega), hsum]
  constructor <;> omega

theorem readSpan_ensures {first last : UInt32}
    (hspan : ∀ j < FileSys.spanOf first last, blockKey (first + UInt32.ofNat j) ∈ dataBlocks) :
    Ensures anyFault (fun _ => True) (v.readSpan first last) := by
  unfold readSpan
  split_ifs with hfive
  · refine Ensures.foldlM trivial fun b j hj _ => ?_
    rw [read, if_pos (hspan j (List.mem_range.mp hj)).1, ok_bind]
    exact .ok trivial
  · exact .error trivial

theorem writeSpan_ensures {first last : UInt32} (b : Buffer 20480)
    (hspan : ∀ j < FileSys.spanOf first last, blockKey (first + UInt32.ofNat j) ∈ dataBlocks) :
    Ensures anyFault (fun _ => True) (v.writeSpan first last b) := by
  refine Ensures.foldlM trivial fun v' j hj _ => ?_
  rw [write, if_pos (hspan j (List.mem_range.mp hj)).1]
  exact .ok trivial

theorem writeSpan_spec {first last : UInt32} {b : Buffer 20480} {v' : Volume}
    (h : v.writeSpan first last b = .ok v') :
    ∃ f, v' = { v with block := f } ∧
      ∀ k, (∀ j < FileSys.spanOf first last, k ≠ blockKey (first + UInt32.ofNat j)) →
      f k = v.block k := by
  refine invariant_of_path (I := fun u => ∃ f, u = { v with block := f } ∧
    ∀ k, (∀ j < FileSys.spanOf first last, k ≠ blockKey (first + UInt32.ofNat j)) → f k = v.block k)
    ?_ ⟨v.block, rfl, fun _ _ => rfl⟩ (path_of_foldlM h)
  rintro u u' ⟨f, rfl, hf⟩ ⟨j, hj, hwrite⟩
  unfold write at hwrite
  split_ifs at hwrite
  cases hwrite
  refine ⟨_, rfl, fun k hk => ?_⟩
  rw [Function.update_of_ne (hk j (List.mem_range.mp hj))]
  exact hf k hk

/-! The blocks that the allocating loop takes are the first free ones. -/

structure Took (i : Inode) (v : Volume) (a : Nat) (bs : List Nat) (r : Inode × Volume) : Prop where
  free : clears v.blockBit 262144 = bs ++ clears r.2.blockBit 262144
  iNum : r.1.iNum = i.iNum
  iFmode : r.1.iFmode = i.iFmode
  session : r.2.toSession = v.toSession
  inodeBit : r.2.inodeBit = v.inodeBit
  freeInodes : r.2.freeInodes = v.freeInodes
  direct : ∀ j : Fin 12, r.1.iDirectTable j =
    if a ≤ j.val ∧ j.val < a + bs.length then UInt32.ofNat (bs.getD (j.val - a) 0) else
      i.iDirectTable j
  indirect : r.1.iIndirectBlock1Ptr = (bs.getLast?.map UInt32.ofNat).getD i.iIndirectBlock1Ptr
  record : r.2.inode = Function.update v.inode i.iNum.toNat r.1
  block : ∀ k, k ∉ bs → r.2.block k = v.block k
  bit : ∀ k, r.2.blockBit k = (v.blockBit k || decide (k ∈ bs))

theorem Took.next {i : Inode} {a b : Nat} {bs : List Nat} {r : Inode × Volume} (h : Took i v a bs r)
    (hlow : ∀ k, k < 266 → v.blockBit k = true) (hnum : i.iNum.toNat < 8192)
    (hk : a + bs.length < 12)
    (hb : firstClear r.2.blockBit 262144 = some b) :
    ∃ r', growFile r (a + bs.length) = .ok r' ∧ Took i v a (bs ++ [b]) r' := by
  have hlow' : ∀ k, k < 266 → r.2.blockBit k = true := fun k hk' => by
    rw [h.bit, hlow k hk', Bool.true_or]
  refine ⟨_, growFile_eq hlow' (by rw [h.iNum]; exact hnum) hk hb rfl, ?_⟩
  constructor
  case free =>
    simp only [stored, allotted]
    rw [h.free, clears_eq_cons hb, List.append_assoc, List.singleton_append]
  case iNum => simpa using h.iNum
  case iFmode => simpa [Inode.pointIndirect] using h.iFmode
  case session => exact h.session
  case inodeBit => exact h.inodeBit
  case freeInodes => exact h.freeInodes
  case direct =>
    intro j
    simp only [Inode.point_iDirectTable, Inode.addSize_iDirectTable,
      Inode.pointIndirect_iDirectTable, Function.update_apply,
      Fin.ext_iff, h.direct, List.length_append, List.length_singleton]
    by_cases hj : j.val = a + bs.length
    · rw [if_pos hj, if_pos (by omega), hj, Nat.add_sub_cancel_left, List.getD_append_right _ _ _ _
        le_rfl, Nat.sub_self]
      rfl
    · rw [if_neg hj]
      by_cases hin : a ≤ j.val ∧ j.val < a + bs.length
      · rw [if_pos hin, if_pos (by omega), List.getD_append _ _ _ _ (by omega)]
      · rw [if_neg hin, if_neg (by omega)]
  case indirect => simp [Inode.pointIndirect]
  case record => simp [stored, allotted, h.iNum, h.record]
  case block =>
    intro k hk'
    rw [List.mem_append, List.mem_singleton, not_or] at hk'
    simp only [stored, allotted, Function.update_of_ne hk'.2, h.block k hk'.1]
  case bit =>
    intro k
    simp only [stored, allotted, Function.update_apply, h.bit, List.mem_append, List.mem_singleton]
    by_cases hkb : k = b
    · simp [hkb]
    · simp [hkb]

section Grow
variable {i : Inode} {a c : Nat} (hlow : ∀ k, k < 266 → v.blockBit k = true)
  (hnum : i.iNum.toNat < 8192) (hrecord : v.inode i.iNum.toNat = i) (hc : a + c ≤ 12)
include hlow hnum hrecord hc

theorem grow_took (hroom : c ≤ (clears v.blockBit 262144).length) :
    ∃ r, (List.range' a c).foldlM growFile (i, v) = .ok r ∧
    Took i v a ((clears v.blockBit 262144).take c) r := by
  have hstart : Took i v a ((clears v.blockBit 262144).take (a - a)) (i, v) := by
    rw [Nat.sub_self, List.take_zero]
    exact ⟨(List.nil_append _).symm, rfl, rfl, rfl, rfl, rfl,
      fun j => by rw [if_neg (by simp)], rfl, by rw [← hrecord]; simp [hrecord], fun _ _ => rfl,
      fun k => by simp⟩
  obtain ⟨r, hr, htook⟩ := foldlM_range'_ok (f := growFile)
    (I := fun k => Took i v a ((clears v.blockBit 262144).take (k - a))) (n := c) hstart fun k r hak
        hk hI => by
      have hlength : ((clears v.blockBit 262144).take (k - a)).length = k - a := by
        rw [List.length_take]
        omega
      -- the next block is the first of those that are left
      have hleft : clears r.2.blockBit 262144 = (clears v.blockBit 262144).drop (k - a) :=
        List.append_cancel_left (hI.free.symm.trans (List.take_append_drop _ _).symm)
      have hb : firstClear r.2.blockBit 262144 = some (clears v.blockBit 262144)[k - a] := by
        rw [← head?_clears, hleft, List.head?_drop, List.getElem?_eq_getElem (by omega)]
      obtain ⟨r', hr', hI'⟩ := hI.next hlow hnum (by omega) hb
      rw [hlength, show a + (k - a) = k by omega] at hr'
      refine ⟨r', hr', ?_⟩
      rw [show k + 1 - a = k - a + 1 by omega, List.take_succ_eq_append_getElem (by omega)]
      exact hI'
  exact ⟨r, hr, by rwa [Nat.add_sub_cancel_left] at htook⟩

theorem grow_exhausts (hroom : (clears v.blockBit 262144).length < c) :
    (List.range' a c).foldlM growFile (i, v) = .error (some .bitmap) := by
  generalize hn : (clears v.blockBit 262144).length = n at hroom
  obtain ⟨r, hr, htook⟩ := grow_took (a := a) (c := n) hlow hnum hrecord (by omega) hn.ge
  have hfree := htook.free
  rw [List.take_of_length_le hn.le, List.self_eq_append_right] at hfree
  have hnone : firstClear r.2.blockBit 262144 = none := by
    rw [← head?_clears, hfree, List.head?_nil]
  have hsplit : List.range' a c = List.range' a n ++ (a + n) ::
      List.range' (a + n + 1) (c - n - 1) := by
    rw [← List.range'_succ, show c - n - 1 + 1 = c - n by omega, List.range'_append_1,
      show n + (c - n) = c by omega]
  rw [hsplit, List.foldlM_append, hr, ok_bind, List.foldlM_cons, growFile, dif_pos (by omega),
    takeBlock, hnone]
  rfl

end Grow

/-! Where the blocks in use are those below a number, the new ones follow one another. -/

section Fresh
variable {i : Inode} {first a c : Nat} {r : Inode × Volume}

theorem take_clears {f : Nat → Bool} (hbits : ∀ k, f k = decide (k < first))
    (hroom : first + c ≤ 262144) : (clears f 262144).take c = List.range' first c := by
  rw [clears_of_lt hbits (by omega), show 262144 - first = c + (262144 - first - c) by omega,
    ← List.range'_append_1, List.take_left' List.length_range']

theorem Took.bit_fresh (h : Took i v a (List.range' first c) r)
    (hbits : ∀ k, v.blockBit k = decide (k < first)) (k : Nat) :
    r.2.blockBit k = decide (k < first + c) := by
  rw [h.bit, hbits, ← Bool.decide_or]
  exact decide_eq_decide.mpr (by rw [List.mem_range'_1]; omega)

theorem Took.direct_fresh (h : Took i v a (List.range' first c) r) (j : Fin 12) :
    r.1.iDirectTable j = if a ≤ j.val ∧ j.val < a + c then UInt32.ofNat (first + (j.val - a)) else
      i.iDirectTable j := by
  rw [h.direct, List.length_range']
  split_ifs with hj
  · rw [List.getD_eq_getElem _ _ (by rw [List.length_range']; omega), List.getElem_range',
      Nat.one_mul]
  · rfl

theorem Took.indirect_fresh (h : Took i v a (List.range' first c) r) :
    r.1.iIndirectBlock1Ptr = if c = 0 then i.iIndirectBlock1Ptr else
      UInt32.ofNat (first + c - 1) := by
  rw [h.indirect, List.getLast?_range']
  split_ifs with hc
  · rfl
  · simp

end Fresh

/-! Ranges of data blocks. -/

section Span
variable {first last : UInt32} {m : Nat} (hspan : FileSys.spanOf first last = m)
  (hge : 266 ≤ first.toNat)
  (hle : first.toNat + m ≤ 262144)
include hspan hge hle

omit hspan hge in
theorem blockKey_span {j : Nat} (hj : j < m) :
    blockKey (first + UInt32.ofNat j) = first.toNat + j := by
  have hsum : (first + UInt32.ofNat j).toNat = first.toNat + j := by
    rw [UInt32.toNat_add, UInt32.toNat_ofNat']
    omega
  rw [blockKey_of_lt (by omega), hsum]

theorem readSpan_eq (v : Volume) (hfive : m ≤ 5) : ∃ buffer, v.readSpan first last = .ok buffer ∧
    ∀ i < 4096 * m, buffer.get i = (v.block (first.toNat + i / 4096)).get (i % 4096) := by
  have hfold : ∀ n ≤ m, (List.range n).foldlM (fun (b : Buffer 20480) k => do
      let c ← v.read (first + UInt32.ofNat k)
      return b.blit (4096 * k) c) (.zero : Buffer 20480) =
        (.ok ((List.range n).foldl (fun b k => b.blit (4096 * k) (v.block (first.toNat + k)))
            .zero) : Result (Buffer 20480)) := by
    intro n hn
    induction n with
    | zero => rfl
    | succ n ih =>
      have hread : v.read (first + UInt32.ofNat n) = .ok (v.block (first.toNat + n)) := by
        rw [read, blockKey_span hle (by omega), if_pos (by omega)]
      rw [List.range_succ, List.foldlM_append, ih (by omega), ok_bind, List.foldl_append,
        List.foldlM_cons, hread, ok_bind]
      rfl
  refine ⟨(List.range m).foldl (fun b k => b.blit (4096 * k) (v.block (first.toNat + k))) .zero, ?_,
    fun i hi => ?_⟩
  · rw [readSpan, hspan, if_pos hfive]
    exact hfold m le_rfl
  · rw [Buffer.get_foldl_blit (fun k => v.block (first.toNat + k)) _ (by omega) (by omega),
      if_pos hi]

theorem writeSpan_eq (v : Volume) (b : Buffer 20480) : v.writeSpan first last b =
    .ok { v with
      block := fun k =>
        if first.toNat ≤ k ∧ k < first.toNat + m then b.slice (4096 * (k - first.toNat)) 4096
        else v.block k } := by
  have hfold : ∀ n ≤ m, (List.range n).foldlM (fun v k => v.write (first + UInt32.ofNat k)
    (b.slice (4096 * k) 4096)) v =
      .ok { v with block := fun k =>
        if first.toNat ≤ k ∧ k < first.toNat + n then b.slice (4096 * (k - first.toNat)) 4096 else
            v.block k } := by
    intro n hn
    induction n with
    | zero =>
      refine congrArg (fun f => Except.ok { v with block := f }) (funext fun k => ?_)
      rw [if_neg (by omega)]
    | succ n ih =>
      rw [List.range_succ, List.foldlM_append, ih (by omega), ok_bind, List.foldlM_cons, write,
        blockKey_span hle (by omega),
        if_pos (by omega), ok_bind]
      refine congrArg (fun f => Except.ok { v with block := f }) (funext fun k => ?_)
      rw [Function.update_apply]
      by_cases hk : k = first.toNat + n
      · rw [if_pos hk, if_pos (by omega), hk, Nat.add_sub_cancel_left]
      · rw [if_neg hk]
        refine if_congr ?_ rfl rfl
        omega
  rw [writeSpan, hspan]
  exact hfold m le_rfl

end Span

end Volume

end Ucas.Fs

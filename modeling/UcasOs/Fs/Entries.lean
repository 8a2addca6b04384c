import UcasOs.Fs.Remount
import Mathlib.Data.List.Find

/-! Directory entries by name. Where every `d_name` of a block ends with a NUL inside its entry, the
comparisons of a lookup are equality of texts, and a lookup finds the first entry with the name. -/

namespace Ucas.Fs
open Ucas.Lib

instance : DecidableEq Text :=
  fun a b => decidable_of_iff (a.bytes = b.bytes) ⟨Text.ext_bytes, congrArg Text.bytes⟩

def textFrom {m : Nat} (b : Buffer m) (n o : Nat) : List UInt8 :=
  ((List.range n).map fun k => b.get (o + k)).takeWhile (· ≠ 0)

namespace Dentry

def dName (d : Dentry) : Text :=
  ⟨textFrom d 124 4, fun h => by simpa using List.mem_takeWhile_imp h⟩

def Terminated (d : Dentry) : Prop := ∃ k < 124, d.get (4 + k) = 0

end Dentry

section TextFrom
variable {m : Nat} (b : Buffer m) {n o : Nat}

theorem textFrom_succ (n o : Nat) :
    textFrom b (n + 1) o = if b.get o = 0 then [] else b.get o :: textFrom b n (o + 1) := by
  have hmap : (List.range (n + 1)).map (fun k => b.get (o + k)) =
      b.get o :: (List.range n).map fun k => b.get (o + 1 + k) := by
    rw [List.range_succ_eq_map, List.map_cons, List.map_map]
    refine congrArg (b.get (o + 0) :: ·) (List.map_congr_left fun k _ => ?_)
    rw [Function.comp, Nat.succ_eq_add_one, Nat.add_comm k 1, Nat.add_assoc]
  rw [textFrom, hmap, List.takeWhile_cons]
  by_cases h0 : b.get o = 0
  · simp [h0]
  · simp [h0, textFrom]

theorem textFrom_eq {l : List UInt8} (hl : 0 ∉ l) (hlen : l.length ≤ n)
    (h : ∀ k, k ≤ l.length → k < n → b.get (o + k) = l.getD k 0) : textFrom b n o = l := by
  induction l generalizing n o with
  | nil =>
    cases n with
    | zero => rfl
    | succ n =>
      have h0 : b.get o = 0 := h 0 le_rfl (by omega)
      rw [textFrom_succ, if_pos h0]
  | cons c cs ih =>
    obtain ⟨n, rfl⟩ :=
      Nat.exists_eq_succ_of_ne_zero (Nat.ne_zero_of_lt (show 0 < n by simp at hlen; omega))
    rw [List.mem_cons, not_or] at hl
    have hc : b.get o = c := h 0 (Nat.zero_le _) (by omega)
    rw [Nat.succ_eq_add_one, textFrom_succ, if_neg (hc ▸ Ne.symm hl.1), hc]
    refine congrArg (c :: ·) (ih hl.2 (by simpa using hlen) fun k hk hkn => ?_)
    have := h (k + 1) (by simpa using hk) (by omega)
    rwa [Nat.add_comm k 1, ← Nat.add_assoc, Nat.add_comm 1 k, List.getD_cons_succ] at this

end TextFrom

theorem FileSys.sameName_eq {b : Block} {n o : Nat} {l : List UInt8} (hl : 0 ∉ l)
    (hnul : ∃ k < n, b.get (o + k) = 0) (ho : o + n ≤ 4096) :
    FileSys.sameName b l o = .ok (decide (l = textFrom b n o)) := by
  induction n generalizing o l with
  | zero =>
    obtain ⟨k, hk, -⟩ := hnul
    omega
  | succ n ih =>
    rw [textFrom_succ]
    cases l with
    | nil =>
      rw [FileSys.sameName, if_pos (by omega)]
      by_cases h0 : b.get o = 0 <;> simp [h0]
    | cons c cs =>
      rw [List.mem_cons, not_or] at hl
      rw [FileSys.sameName, if_pos (by omega)]
      by_cases hc : b.get o = c
      · have hne : b.get o ≠ 0 := hc ▸ Ne.symm hl.1
        obtain ⟨k, hk, hzero⟩ := hnul
        have hpos : 0 < k := by
          by_contra hk0
          obtain rfl : k = 0 := by omega
          exact hne hzero
        rw [if_pos hc, if_neg hne, ih hl.2 ⟨k - 1, by omega, by rw [← hzero]; congr 1; omega⟩
          (by omega)]
        simp [hc]
      · rw [if_neg hc]
        by_cases h0 : b.get o = 0
        · simp [h0]
        · rw [if_neg h0]
          simp [Ne.symm hc]

def Named (b : Block) : Prop := ∀ j < 32, (dentryAt b j).Terminated

def slotOf (b : Block) (name : Text) : Option Nat :=
  (List.range 32).find? fun j => decide ((dentryAt b j).dName = name)

section Entry
variable {b : Block} {j : Nat} {name : Text}

theorem get_dentryAt {k : Nat} (hk : k < 128) : (dentryAt b j).get k = b.get (128 * j + k) :=
  Buffer.get_slice _ _ hk

theorem textFrom_dentryAt : textFrom (dentryAt b j) 124 4 = textFrom b 124 (128 * j + 4) := by
  unfold textFrom
  refine congrArg (List.takeWhile fun x : UInt8 => x ≠ 0) (List.map_congr_left fun k hk => ?_)
  rw [List.mem_range] at hk
  rw [get_dentryAt (by omega), Nat.add_assoc]

theorem FileSys.sameName_dentryAt (hj : j < 32) (h : (dentryAt b j).Terminated) :
    FileSys.sameName b name.bytes (128 * j + 4) = .ok (decide ((dentryAt b j).dName = name)) := by
  obtain ⟨k, hk, hzero⟩ := h
  rw [get_dentryAt (by omega), ← Nat.add_assoc] at hzero
  rw [FileSys.sameName_eq name.zero_notMem ⟨k, hk, hzero⟩ (by omega), ← textFrom_dentryAt]
  refine congrArg Except.ok (decide_eq_decide.mpr ⟨fun h => Text.ext_bytes h.symm, fun h => ?_⟩)
  rw [← h]
  rfl

theorem FileSys.scan_eq {n : Nat} (hn : j + n ≤ 32) (h : ∀ k, j ≤ k → k < j + n →
    (dentryAt b k).Terminated) :
    FileSys.scan b name n j = .ok ((List.range' j n).find? fun k => decide
    ((dentryAt b k).dName = name)) := by
  induction n generalizing j with
  | zero => rfl
  | succ n ih =>
    rw [FileSys.scan, FileSys.sameName_dentryAt (by omega) (h j le_rfl (by omega)), ok_bind,
      List.range'_succ,
      List.find?_cons]
    by_cases hname : (dentryAt b j).dName = name
    · simp [hname, pure_eq_ok]
    · rw [decide_eq_false hname, ih (by omega) fun k hk hk' => h k (by omega) (by omega)]
      rfl

theorem scan_eq_slotOf (h : Named b) (name : Text) :
    FileSys.scan b name 32 0 = .ok (slotOf b name) := by
  rw [FileSys.scan_eq (by omega) fun k _ hk => h k (by omega), slotOf, List.range_eq_range']

theorem slotOf_eq_some {k : Nat} : slotOf b name = some k ↔
    k < 32 ∧ (dentryAt b k).dName = name ∧ ∀ j < k, (dentryAt b j).dName ≠ name := by
  rw [slotOf, List.find?_range_eq_some]
  simp only [decide_eq_true_eq, Bool.not_eq_true', decide_eq_false_iff_not, List.mem_range]
  tauto

theorem slotOf_eq_none : slotOf b name = none ↔ ∀ j < 32, (dentryAt b j).dName ≠ name := by
  simp [slotOf]

end Entry

section Written
variable {d : Dentry} {n : UInt32} {name : Text}

theorem get_fill (h : name.length < 124) {k : Nat} (hk : k ≤ name.length) :
    (d.fill n name).get (4 + k) = name.bytes.getD k 0 := by
  have hlen : name.bytes.length = name.length := rfl
  rw [Dentry.fill, Buffer.get_set]
  split_ifs with heq
  · rw [List.getD_eq_default _ _ (by omega)]
  · rw [Buffer.get_putBytes _ _ _ (by omega), if_pos (by omega), Nat.add_sub_cancel_left]

theorem dName_fill (h : name.length < 124) : (d.fill n name).dName = name :=
  Text.ext_bytes (textFrom_eq _ name.zero_notMem h.le fun _ hk _ => get_fill h hk)

theorem terminated_fill (h : name.length < 124) : (d.fill n name).Terminated := by
  refine ⟨name.length, h, ?_⟩
  rw [get_fill h le_rfl]
  exact List.getD_eq_default _ _ le_rfl

theorem dName_putBytes (h : name.length < 125) :
    Dentry.dName ((Buffer.zero.setWord 0 n).putBytes 4 name.bytes) = name := by
  have hlen : name.bytes.length = name.length := rfl
  refine Text.ext_bytes (textFrom_eq _ name.zero_notMem (by omega) fun k hk hkn => ?_)
  rw [Buffer.get_putBytes _ _ _ (by omega)]
  split_ifs with h
  · rw [Nat.add_sub_cancel_left]
  · rw [Buffer.get_setWord _ _ _ (by omega), if_neg (by omega), Buffer.get_zero,
      List.getD_eq_default _ _ (by omega)]

theorem terminated_putBytes (h : name.length < 124) :
    Dentry.Terminated ((Buffer.zero.setWord 0 n).putBytes 4 name.bytes) := by
  have hlen : name.bytes.length = name.length := rfl
  refine ⟨name.length, h, ?_⟩
  rw [Buffer.get_putBytes _ _ _ (by omega), if_neg (by omega), Buffer.get_setWord _ _ _ (by omega),
    if_neg (by omega),
    Buffer.get_zero]

theorem dInum_renamed : Dentry.dInum ((Buffer.zero.setWord 0 n).putBytes 4 name.bytes) = n := by
  rw [dInum_putBytes]
  exact Buffer.word_setWord _ _ (by omega)

theorem dName_zero : Dentry.dName .zero = .empty :=
  Text.ext_bytes (textFrom_eq (l := []) _ (by simp) (by simp) fun _ _ _ => by simp)

theorem terminated_zero : Dentry.Terminated .zero := ⟨0, by omega, Buffer.get_zero _⟩

theorem Named.put {b : Block} {k : Nat} (h : Named b) (hd : d.Terminated) :
    Named (putDentry b k d) := by
  intro j hj
  rw [dentryAt_putDentry _ _ hj]
  split_ifs
  · exact hd
  · exact h j hj

theorem named_zero : Named .zero := fun j _ => by
  rw [dentryAt_zero]
  exact terminated_zero

theorem named_directoryBlock (n m : UInt32) : Named (directoryBlock n m) :=
  (named_zero.put (terminated_fill (by decide))).put (terminated_fill (by decide))

end Written

section Put
variable {b : Block} {d : Dentry} {k : Nat} {name : Text}

theorem slotOf_put_of_ne (hd : d.dName ≠ name) (hold : (dentryAt b k).dName ≠ name) :
    slotOf (putDentry b k d) name = slotOf b name := by
  unfold slotOf
  refine List.find?_congr fun j hj => ?_
  rw [List.mem_range] at hj
  rw [dentryAt_putDentry _ _ hj]
  split_ifs with hjk
  · rw [hjk, decide_eq_false hd, decide_eq_false hold]
  · rfl

theorem slotOf_put_self (hk : k < 32) (hnew : ∀ j < k, (dentryAt b j).dName ≠ d.dName) :
    slotOf (putDentry b k d) d.dName = some k := by
  refine slotOf_eq_some.mpr ⟨hk, by rw [dentryAt_putDentry _ _ hk, if_pos rfl], fun j hj => ?_⟩
  rw [dentryAt_putDentry _ _ (by omega), if_neg (by omega)]
  exact hnew j hj

end Put

theorem slotOf_directoryBlock {n m : UInt32} {name : Text} (h : name.bytes ≠ []) :
    slotOf (directoryBlock n m) name = if name = .dot then some 0 else if name = .dotdot then
    some 1 else none := by
  have hname : ∀ j < 32, (dentryAt (directoryBlock n m) j).dName =
      if j = 1 then .dotdot else if j = 0 then .dot else .empty := by
    intro j hj
    rw [dentryAt_directoryBlock _ _ hj]
    split_ifs
    · exact dName_fill (by decide)
    · exact dName_fill (by decide)
    · exact dName_zero
  split_ifs with hdot hdotdot
  · exact slotOf_eq_some.mpr ⟨by omega, by rw [hname 0 (by omega), hdot]; rfl, fun j hj => absurd hj
      (by omega)⟩
  · refine slotOf_eq_some.mpr ⟨by omega, by rw [hname 1 (by omega), hdotdot]; rfl, fun j hj => ?_⟩
    obtain rfl : j = 0 := by omega
    rw [hname 0 (by omega)]
    exact fun heq => hdot heq.symm
  · refine slotOf_eq_none.mpr fun j hj => ?_
    rw [hname j hj]
    split_ifs
    · exact fun heq => hdotdot heq.symm
    · exact fun heq => hdot heq.symm
    · exact fun heq => h (congrArg Text.bytes heq.symm)

namespace Volume
variable {v : Volume} {i : Inode} {name : Text}

theorem lookup_eq (hb : (i.iDirectTable 0).toNat ∈ dataBlocks)
    (hnamed : Named (v.block (i.iDirectTable 0).toNat)) :
    v.lookup i name = .ok ((slotOf (v.block (i.iDirectTable 0).toNat) name).map
      fun j => (j, v.block (i.iDirectTable 0).toNat)) := by
  rw [lookup, read_data hb, ok_bind, scan_eq_slotOf hnamed]
  rfl

theorem findFile_eq (hb : (i.iDirectTable 0).toNat ∈ dataBlocks)
    (hnamed : Named (v.block (i.iDirectTable 0).toNat)) :
    v.findFile i name = .ok ((slotOf (v.block (i.iDirectTable 0).toNat) name).elim notFound
      fun j => (dentryAt (v.block (i.iDirectTable 0).toNat) j).dInum) := by
  rw [findFile, lookup_eq hb hnamed, ok_bind]
  cases slotOf (v.block (i.iDirectTable 0).toNat) name <;> rfl

theorem findDentry_eq (hb : (i.iDirectTable 0).toNat ∈ dataBlocks)
    (hnamed : Named (v.block (i.iDirectTable 0).toNat)) :
    v.findDentry i name = .ok ((slotOf (v.block (i.iDirectTable 0).toNat) name).elim notFound
    UInt32.ofNat) := by
  rw [findDentry, lookup_eq hb hnamed, ok_bind]
  cases slotOf (v.block (i.iDirectTable 0).toNat) name <;> rfl

theorem findFile_new {n m : UInt32} (hb : (i.iDirectTable 0).toNat ∈ dataBlocks)
    (hblock : v.block (i.iDirectTable 0).toNat = directoryBlock n m) (hname : name.bytes ≠ []) :
    v.findFile i name = .ok (if name = .dot then n else if name = .dotdot then m else notFound) :=
    by
  rw [findFile_eq hb (hblock ▸ named_directoryBlock n m), hblock, slotOf_directoryBlock hname]
  split_ifs
  · rw [Option.elim_some, dentryAt_directoryBlock _ _ (by omega), if_neg (by omega), if_pos rfl,
      dInum_fill]
  · rw [Option.elim_some, dentryAt_directoryBlock _ _ (by omega), if_pos rfl, dInum_fill]
  · rfl

theorem lookup_of_zero (h : i.iDirectTable 0 = 0) (hname : name.bytes ≠ []) :
    v.lookup i name = .ok none := by
  rw [lookup, h, read_zero, ok_bind, scan_superblockOf, if_neg hname]
  rfl

end Volume

/-! The root directory right after `do_mkfs`. -/

section Mkfs
variable {t s : FileSys} {e : Env} {name : Text}

theorem block_rootOf : ((rootOf e).iDirectTable 0).toNat = 266 := by simp [rootOf, newInode]

theorem Volume.mkfs_block :
    (Volume.mkfs e s).block ((rootOf e).iDirectTable 0).toNat = directoryBlock 0 0 := by
  rw [block_rootOf]
  simp [Volume.mkfs]

theorem Volume.mkfs_findDentry (h : name.bytes ≠ []) :
    (Volume.mkfs e s).findDentry (rootOf e) name =
    .ok (if name = .dot then 0 else if name = .dotdot then 1 else notFound) := by
  have hblock := Volume.mkfs_block (e := e) (s := s)
  rw [Volume.findDentry_eq (block_rootOf ▸ ⟨by omega, by omega⟩) (hblock ▸ named_directoryBlock 0
    0), hblock,
    slotOf_directoryBlock h]
  split_ifs <;> rfl

theorem Volume.mkfs_findFile (h : name.bytes ≠ []) : (Volume.mkfs e s).findFile (rootOf e) name =
    .ok (if name = .dot ∨ name = .dotdot then 0 else notFound) := by
  rw [Volume.findFile_new (block_rootOf ▸ ⟨by omega, by omega⟩) Volume.mkfs_block h]
  split_ifs <;> tauto

theorem Shows.mkfs_findFile (ht : Shows t (Volume.mkfs e s)) (h : name.bytes ≠ []) :
    t.findFile t.currentDir name = .ok (if name = .dot ∨ name = .dotdot then 0 else notFound) := by
  rw [ht.currentDir_eq]
  exact eq_ok_of_refines (ht.findFile _ _) (Volume.mkfs_findFile h)

theorem Volume.mkfs_load : (Volume.mkfs e s).load 0 = .ok (rootOf e) := by
  simp [Volume.load, Volume.mkfs, inodeKey]

theorem Shows.mkfs_syncFromDiskInode (ht : Shows t (Volume.mkfs e s)) :
    t.syncFromDiskInode 0 = t.currentDir := by
  rw [ht.currentDir_eq, ht.load Volume.mkfs_load]
  rfl

end Mkfs

end Ucas.Fs

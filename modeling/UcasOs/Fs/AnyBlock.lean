import UcasOs.Fs.Entries

/-! The lookups on a block with any content. `strcmp` is not bounded by the length of `d_name`, so a
name is compared with all bytes of the block from the `d_name` of a slot on. -/

namespace Ucas.Fs
open Ucas.Lib

namespace FileSys

theorem sameName_iff (b : Block) (l : List UInt8) (o : Nat) (ho : o ≤ 4096) : sameName b l o =
    if b.HasText l o then if o + l.length < 4096 then .ok true else .error .text else
    .ok false := by
  induction l generalizing o with
  | nil =>
    rw [sameName]
    by_cases hlt : o < 4096
    · rw [if_pos hlt, List.length_nil, Nat.add_zero, if_pos hlt]
      by_cases h0 : b.get o = 0 <;> simp [Buffer.hasText_nil hlt, h0]
    · rw [if_neg hlt, if_pos (Buffer.hasText_of_le hlt), if_neg (by simpa using hlt)]
  | cons c l ih =>
    rw [sameName]
    by_cases hlt : o < 4096
    · rw [if_pos hlt, ih (o + 1) hlt, List.length_cons, show o + (l.length + 1) =
        o + 1 + l.length by omega]
      by_cases hc : b.get o = c <;> simp [Buffer.hasText_cons hlt, hc]
    · rw [if_neg hlt, if_pos (Buffer.hasText_of_le hlt), if_neg (by rw [List.length_cons]; omega)]

theorem scan_iff (b : Block) (name : Text) (n j : Nat) (hn : j + n ≤ 32) : scan b name n j =
    match (List.range' j n).find? fun k => b.HasText name.bytes (128 * k + 4) with
    | none => .ok none
    | some k => if 128 * k + 4 + name.length < 4096 then .ok (some k) else .error .text := by
  induction n generalizing j with
  | zero => rfl
  | succ n ih =>
    rw [scan, sameName_iff b name.bytes _ (by omega), List.range'_succ, List.find?_cons]
    by_cases hj : b.HasText name.bytes (128 * j + 4)
    · rw [if_pos hj, decide_eq_true hj]
      dsimp only
      by_cases hfit : 128 * j + 4 + name.length < 4096
      · rw [if_pos (show 128 * j + 4 + name.bytes.length < 4096 from hfit), if_pos hfit]
        rfl
      · rw [if_neg (show ¬ 128 * j + 4 + name.bytes.length < 4096 from hfit), if_neg hfit]
        rfl
    · rw [if_neg hj, decide_eq_false hj, ok_bind]
      exact ih (j + 1) (by omega)

/-- All three lookups find nothing, or they find the same entry and it has the name. -/
def LookupsAgree (s : FileSys) (i : Inode) (name : Text) : Prop :=
  (s.findFile i name = .ok notFound ∧ s.findFile2 i name = .ok notFound ∧ s.findDentry i name = .ok
    notFound) ∨
    ∃ dnum d, s.findDentry i name = .ok dnum ∧ s.readDentry i dnum = .ok d ∧
      s.findFile i name = .ok d.dInum ∧
      s.findFile2 i name = .ok d.dInum ∧ d.Terminated ∧ d.dName = name

section AnyBlock
variable {s : FileSys} {i : Inode} {name : Text}

theorem lookupInum_eq (s : FileSys) (i : Inode) (name : Text) (bound : Nat) (hpos : 0 < bound)
    (hle : bound ≤ maxBlockIndex) :
    s.lookupInum bound i name = (do
      return ((← scan (s.readBlock (i.iDirectTable 0)) name 32 0).map
        fun j => (dentryAt (s.readBlock (i.iDirectTable 0)) j).dInum).getD notFound) := by
  obtain ⟨n, rfl⟩ := Nat.exists_eq_add_of_lt hpos
  rw [lookupInum, lookup_eq s i name _ (by omega), bind_assoc]
  cases scan (s.readBlock (i.iDirectTable 0)) name 32 0 with
  | error e => rfl
  | ok slot => cases slot <;> rfl

theorem findDentry_eq (s : FileSys) (i : Inode) (name : Text) : s.findDentry i name = (do
    let slot ← scan (s.readBlock (i.iDirectTable 0)) name 32 0
    return (slot.map UInt32.ofNat).getD notFound) := by
  rw [findDentry, lookup_eq s i name 11 (by decide), bind_assoc]
  cases scan (s.readBlock (i.iDirectTable 0)) name 32 0 with
  | error e => rfl
  | ok slot =>
    cases slot with
    | none => rfl
    | some j => simp [ok_bind, pure_eq_ok]

theorem readDentry_slot {j : Nat} (hj : j < 32) :
    s.readDentry i (UInt32.ofNat j) = .ok (dentryAt (s.readBlock (i.iDirectTable 0)) j) := by
  rw [readDentry, major_of_lt hj, minor_of_lt hj]
  rfl

theorem textFrom_sublist (d : Dentry) :
    (textFrom d 124 4).Sublist ((List.range 124).map fun k => d.get (4 + k)) :=
  List.takeWhile_sublist _

theorem length_dName_le (d : Dentry) : d.dName.length ≤ 124 := by
  have hle := (textFrom_sublist d).length_le
  rwa [List.length_map, List.length_range] at hle

theorem length_lt_of_terminated {d : Dentry} (h : d.Terminated) : d.dName.length < 124 := by
  obtain ⟨k, hk, hzero⟩ := h
  refine Nat.lt_of_le_of_ne (length_dName_le d) fun heq => ?_
  have hall := List.takeWhile_eq_self_iff.mp ((textFrom_sublist d).eq_of_length
    (heq.trans (by rw [List.length_map, List.length_range])))
  have hne := hall (d.get (4 + k)) (List.mem_map.mpr ⟨k, List.mem_range.mpr hk, rfl⟩)
  simp [hzero] at hne

theorem dName_of_hasText {b : Block} {j : Nat} (hj : j < 32) (hlen : name.length < 124)
    (h : b.HasText name.bytes (128 * j + 4)) :
    (dentryAt b j).Terminated ∧ (dentryAt b j).dName = name := by
  have hget : ∀ k ≤ name.length, (dentryAt b j).get (4 + k) = name.bytes.getD k 0 := by
    intro k hk
    rw [get_dentryAt (by omega), ← Nat.add_assoc]
    exact h k hk (by omega)
  refine ⟨⟨name.length, hlen, ?_⟩, Text.ext_bytes (textFrom_eq _ name.zero_notMem
    (Nat.le_of_lt hlen) fun k hk _ => hget k hk)⟩
  rw [hget _ le_rfl]
  exact List.getD_eq_default _ _ le_rfl

/-- The lookups agree exactly if the name fits in an entry, or no slot agrees with it as far as the
block goes. -/
theorem lookups_agree_iff
    (hvalid : ∀ j < 32, (s.readBlock (i.iDirectTable 0)).HasText name.bytes (128 * j + 4) →
      (dentryAt (s.readBlock (i.iDirectTable 0)) j).dInum ≠ notFound) :
    s.LookupsAgree i name ↔
      name.length < 124 ∨ ∀ j < 32, ¬ (s.readBlock (i.iDirectTable 0)).HasText name.bytes
      (128 * j + 4) := by
  have hfile := lookupInum_eq s i name maxBlockIndex (by decide) le_rfl
  have hfile2 := lookupInum_eq s i name 2 (by decide) (by decide)
  have hdentry := findDentry_eq s i name
  have hscan := scan_iff (s.readBlock (i.iDirectTable 0)) name 32 0 (by decide)
  cases hfind : (List.range' 0 32).find? fun k => (s.readBlock (i.iDirectTable 0)).HasText
      name.bytes (128 * k + 4) with
  | none =>
    have hnone : ∀ j < 32, ¬ (s.readBlock (i.iDirectTable 0)).HasText name.bytes (128 * j + 4) := by
      intro j hj
      simpa using List.find?_eq_none.mp hfind j (by simpa using hj)
    rw [hfind] at hscan
    rw [hscan] at hfile hfile2 hdentry
    exact iff_of_true (.inl ⟨hfile, hfile2, hdentry⟩) (.inr hnone)
  | some j =>
    have hj : j < 32 := by simpa using List.mem_of_find?_eq_some hfind
    have htext : (s.readBlock (i.iDirectTable 0)).HasText name.bytes (128 * j + 4) := by
      simpa using List.find?_some hfind
    rw [hfind] at hscan
    dsimp only at hscan
    constructor
    · rintro (⟨hnot, -⟩ | ⟨dnum, d, hdnum, hread, -, -, hterm, hname⟩)
      · exfalso
        -- `find_file` found nothing, but it stops at slot `j`
        rw [findFile, hfile, hscan] at hnot
        split_ifs at hnot
        · exact hvalid j hj htext (Except.ok.inj hnot)
        · cases hnot
      · exact .inl (hname ▸ length_lt_of_terminated hterm)
    · rintro (hlen | hnone)
      · rw [if_pos (by omega)] at hscan
        rw [hscan] at hfile hfile2 hdentry
        obtain ⟨hterm, hname⟩ := dName_of_hasText hj hlen htext
        exact .inr ⟨_, _, hdentry, readDentry_slot hj, hfile, hfile2, hterm, hname⟩
      · exact absurd htext (hnone j hj)

end AnyBlock

theorem exists_readBlock (b : Block) :
    ∃ (s : FileSys) (i : Inode), s.readBlock (i.iDirectTable 0) = b := by
  refine ⟨blank.writeBlock 266 b, zeroInode.point 0 266, ?_⟩
  have hdirect : (zeroInode.point 0 266).iDirectTable 0 = 266 := by simp [Inode.point]
  rw [readBlock_writeBlock, hdirect, if_pos rfl]

theorem lookups_agree_entered : ∃ s t, blank.doMkfs .blank = .ok s ∧
    runOps [.mkdir (Text.dot.child .a) 0, .touch .b 0] s = .ok t ∧
    t.findDentry (t.syncFromDiskInode 0) .b = .ok 3 ∧
    t.LookupsAgree (t.syncFromDiskInode 0) .b := by
  obtain ⟨s, t, v, hs, ht, -, hv, hp⟩ := exists_run_writesThrough
    [.mkdir (Text.dot.child .a) 0, .touch .b 0]
    (p := fun v => (v.findDentry (v.inode 0) .b).toOption == some 3 &&
      (v.read ((v.inode 0).iDirectTable 0)).sure fun b =>
        (List.range 32).all fun j => (dentryAt b j).dInum != notFound) (by decide +kernel)
  rw [show v.inode 0 = t.syncFromDiskInode 0 from hv.inode 0 (by omega)] at hp
  obtain ⟨hslot, hread⟩ := Bool.and_eq_true_iff.mp hp
  have hall := hv.of_sure_read hread
  refine ⟨s, t, hs, ht, eq_ok_of_refines (hv.findDentry _ _) (eq_ok_of_toOption (eq_of_beq hslot)),
    (lookups_agree_iff fun j hj _ => ?_).mpr (.inl (by decide))⟩
  exact bne_iff_ne.mp (List.all_eq_true.mp hall j (List.mem_range.mpr hj))

def longBlock : Block := .ofFn fun k => if 4 ≤ k ∧ k < 129 then 0x61 else 0

def longName : Text := ⟨List.replicate 125 0x61, by simp⟩

theorem length_longName : longName.length = 125 := List.length_replicate ..

theorem hasText_longBlock : longBlock.HasText longName.bytes (128 * 0 + 4) := by
  intro k hk hlt
  have hlen : k ≤ 125 := by simpa [longName] using hk
  rw [longBlock, Buffer.get_ofFn, if_pos hlt]
  by_cases hlast : k = 125
  · rw [if_neg (by omega), List.getD_eq_default _ _ (by simp [longName, hlast])]
  · rw [if_pos (by omega), longName, List.getD_replicate _ (by omega)]

theorem dInum_longBlock : (dentryAt longBlock 0).dInum = 0 := by
  rw [Dentry.dInum, dentryAt, Buffer.word_slice _ _ (by decide)]
  refine Buffer.word_of_bytes fun k hk => ?_
  rw [longBlock, Buffer.get_ofFn, if_pos (by omega), if_neg (by omega)]
  simp [Buffer.wordByte]

theorem lookups_disagree : ∃ (s : FileSys) (i : Inode),
    (∀ j < 32, (s.readBlock (i.iDirectTable 0)).HasText longName.bytes (128 * j + 4) →
      (dentryAt (s.readBlock (i.iDirectTable 0)) j).dInum ≠ notFound) ∧
    s.findDentry i longName = .ok 0 ∧ s.readDentry i 0 = .ok (dentryAt longBlock 0) ∧
    (dentryAt longBlock 0).dName ≠ longName ∧ ¬ s.LookupsAgree i longName := by
  obtain ⟨s, i, hblock⟩ := exists_readBlock longBlock
  have hscan : scan longBlock longName 32 0 = .ok (some 0) := by
    rw [scan_iff _ _ _ _ (by decide), List.range'_succ, List.find?_cons_of_pos
      (by simpa using hasText_longBlock)]
    exact if_pos (by rw [length_longName]; decide)
  have hdentry : s.findDentry i longName = .ok 0 := by
    rw [findDentry_eq, hblock, hscan]
    rfl
  have hfile : s.findFile i longName = .ok 0 := by
    rw [findFile, lookupInum_eq s i longName _ (by decide) le_rfl, hblock, hscan]
    simp [ok_bind, pure_eq_ok, dInum_longBlock]
  have hread : s.readDentry i 0 = .ok (dentryAt longBlock 0) := by
    rw [← hblock]
    exact readDentry_slot (j := 0) (by decide)
  refine ⟨s, i, fun j hj htext => ?_, hdentry, hread, fun h => ?_, ?_⟩
  · have hfirst := htext 0 (Nat.zero_le _) (by omega)
    rw [hblock, longBlock, Buffer.get_ofFn, if_pos (by omega)] at hfirst
    obtain rfl : j = 0 := by
      by_contra hne
      rw [if_neg (by omega)] at hfirst
      cases hfirst
    rw [hblock, dInum_longBlock]
    decide
  · have hle := length_dName_le (dentryAt longBlock 0)
    rw [h, length_longName] at hle
    omega
  · rintro (⟨-, -, hnot⟩ | ⟨dnum, d, -, -, -, -, hterm, hname⟩)
    · cases hdentry.symm.trans hnot
    · have hlt := length_lt_of_terminated hterm
      rw [hname, length_longName] at hlt
      omega

end FileSys

end Ucas.Fs

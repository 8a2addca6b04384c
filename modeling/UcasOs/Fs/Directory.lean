import UcasOs.Fs.Well

/-! Blocks of directory entries: what a written entry reads as, what a lookup finds, and where a
path is taken apart. -/

namespace Ucas.Fs
open Ucas.Lib

section Entries
variable (b : Block) {j k : Nat} (d : Dentry)

theorem dentryAt_putDentry (hj : j < 32) :
    dentryAt (putDentry b k d) j = if j = k then d else dentryAt b j := by
  unfold dentryAt putDentry
  split_ifs with hjk
  · rw [hjk, Buffer.slice_blit _ _ (by omega)]
  · rw [Buffer.slice_blit_of_disjoint _ _ (by omega) (by omega)]

@[simp] theorem dentryAt_zero (j : Nat) : dentryAt .zero j = .zero := by
  refine Buffer.ext fun i hi => ?_
  rw [dentryAt, Buffer.get_slice _ _ hi, Buffer.get_zero, Buffer.get_zero]

@[simp] theorem dInum_zero : Dentry.dInum .zero = 0 := Buffer.word_zero 0

theorem dInum_putBytes (d : Dentry) (l : List UInt8) : Dentry.dInum (d.putBytes 4 l) = d.dInum :=
  Buffer.word_congr fun k hk => by rw [Buffer.get_putBytes _ _ _ (by omega), if_neg (by omega)]

@[simp] theorem dInum_fill (d : Dentry) (inum : UInt32) (name : Text) :
    (d.fill inum name).dInum = inum := by
  have hset : (d.fill inum name).dInum = Dentry.dInum ((d.setWord 0 inum).putBytes 4 name.bytes) :=
    Buffer.word_congr fun k hk => by rw [Dentry.fill, Buffer.get_set, if_neg (by omega)]
  rw [hset, dInum_putBytes]
  exact Buffer.word_setWord _ _ (by omega)

theorem dentryAt_directoryBlock (inum parent : UInt32) (hj : j < 32) :
    dentryAt (directoryBlock inum parent) j = if j = 1 then Dentry.fill .zero parent .dotdot
      else if j = 0 then Dentry.fill .zero inum .dot else .zero := by
  rw [directoryBlock, dentryAt_putDentry _ _ hj, dentryAt_putDentry _ _ hj, dentryAt_zero]

end Entries

namespace FileSys
variable {b : Block} {name : Text}

theorem sameName_of_get_eq_zero {l : List UInt8} {o : Nat} (hl : l ≠ []) (hzero : 0 ∉ l)
    (ho : o < 4096)
    (hb : b.get o = 0) : sameName b l o = .ok false := by
  cases l with
  | nil => exact absurd rfl hl
  | cons c cs =>
    have hne : b.get o ≠ c := fun hc => hzero (by rw [← hc, hb]; exact List.mem_cons_self)
    rw [sameName, if_pos ho, if_neg hne]

theorem scan_eq_none {n j : Nat} (h : ∀ k, j ≤ k → k < j + n → sameName b name.bytes (128 * k + 4) =
    .ok false) :
    scan b name n j = .ok none := by
  induction n generalizing j with
  | zero => rfl
  | succ n ih =>
    rw [scan, h j le_rfl (by omega), ok_bind]
    exact ih fun k hjk hk => h k (by omega) (by omega)

theorem of_scan_eq_some {n j k : Nat} (h : scan b name n j = .ok (some k)) :
    (j ≤ k ∧ k < j + n) ∧ sameName b name.bytes (128 * k + 4) = .ok true := by
  induction n generalizing j with
  | zero => cases h
  | succ n ih =>
    rw [scan] at h
    obtain ⟨same, hsame, h⟩ := exists_of_bind_ok h
    cases same with
    | true =>
      cases h
      exact ⟨⟨le_rfl, by omega⟩, hsame⟩
    | false =>
      obtain ⟨hk, hname⟩ := ih h
      exact ⟨by omega, hname⟩

end FileSys

theorem superblockOf_get_entry (fb fi : UInt32) {j : Nat} (hj : j < 32) :
    (superblockOf fb fi).get (128 * j + 4) = 0 := by
  unfold superblockOf mkfsSuperblock
  repeat rw [Buffer.get_setWord _ _ _ (by omega)]
  obtain rfl | hpos := Nat.eq_zero_or_pos j
  · rfl
  · repeat rw [if_neg (by omega)]
    exact Buffer.get_zero _

theorem scan_superblockOf (fb fi : UInt32) (name : Text) :
    FileSys.scan (superblockOf fb fi) name 32 0 = .ok (if name.bytes = [] then some 0 else none) :=
    by
  split_ifs with hname
  · rw [FileSys.scan, hname, FileSys.sameName, if_pos (by omega), superblockOf_get_entry fb fi
      (j := 0) (by omega)]
    rfl
  · refine FileSys.scan_eq_none fun k _ hk => ?_
    exact FileSys.sameName_of_get_eq_zero hname name.zero_notMem (by omega) (superblockOf_get_entry
      fb fi (by omega))

theorem dInum_superblockOf (fb fi : UInt32) : (dentryAt (superblockOf fb fi) 0).dInum = fsSize := by
  rw [Dentry.dInum, dentryAt, Buffer.word_slice _ _ (by omega)]
  simp (disch := omega) only [superblockOf, mkfsSuperblock, Buffer.word_setWord_of_disjoint,
    Buffer.word_setWord]

namespace Volume
variable {v : Volume} {i : Inode} {name : Text}

theorem read_data {p : UInt32} (h : p.toNat ∈ dataBlocks) : v.read p = .ok (v.block p.toNat) := by
  obtain ⟨hge, hlt⟩ := h
  rw [read, blockKey_of_lt (by omega), if_pos hge]

theorem read_zero : v.read 0 = .ok (superblockOf v.freeBlocks v.freeInodes) := by
  simp [read, blockKey]

theorem lookup_cases {r : Option (Nat × Block)} (hi : Within dataBlocks i)
    (h : v.lookup i name = .ok r) :
    (r = none) ∨ (∃ j < 32, i.iDirectTable 0 ≠ 0 ∧ r = some (j, v.block (i.iDirectTable 0).toNat) ∧
        FileSys.sameName (v.block (i.iDirectTable 0).toNat) name.bytes (128 * j + 4) = .ok true) ∨
      (name.bytes = [] ∧ r = some (0, superblockOf v.freeBlocks v.freeInodes)) := by
  unfold lookup at h
  obtain hzero | hdata := hi 0
  · rw [hzero, read_zero, ok_bind, scan_superblockOf, exactly_ok, ok_bind] at h
    obtain rfl := Except.ok.inj h
    split_ifs with hname
    · exact .inr (.inr ⟨hname, rfl⟩)
    · exact .inl rfl
  · rw [read_data hdata, ok_bind] at h
    cases hscan : FileSys.scan (v.block (i.iDirectTable 0).toNat) name 32 0 with
    | error e =>
      rw [hscan, exactly_error] at h
      cases h
    | ok slot =>
      rw [hscan, exactly_ok, ok_bind] at h
      obtain rfl := Except.ok.inj h
      cases slot with
      | none => exact .inl rfl
      | some j =>
        obtain ⟨hj, hsame⟩ := FileSys.of_scan_eq_some hscan
        refine .inr (.inl ⟨j, by omega, fun h0 => ?_, rfl, hsame⟩)
        have hge := hdata.1
        rw [h0] at hge
        simp at hge

theorem of_findFile {n : UInt32} (hi : Within dataBlocks i) (h : v.findFile i name = .ok n) :
    n = notFound ∨ (∃ j < 32, i.iDirectTable 0 ≠ 0 ∧ v.findDentry i name = .ok (UInt32.ofNat j) ∧
        n = (dentryAt (v.block (i.iDirectTable 0).toNat) j).dInum ∧
        FileSys.sameName (v.block (i.iDirectTable 0).toNat) name.bytes (128 * j + 4) = .ok true) ∨
      (name.bytes = [] ∧ n = fsSize) := by
  obtain ⟨r, hr, h⟩ := exists_of_bind_ok h
  obtain rfl := Except.ok.inj h
  obtain rfl | ⟨j, hj, hne, rfl, hsame⟩ | ⟨hname, rfl⟩ := lookup_cases hi hr
  · exact .inl rfl
  · refine .inr (.inl ⟨j, hj, hne, ?_, rfl, hsame⟩)
    rw [findDentry, hr, ok_bind]
    rfl
  · exact .inr (.inr ⟨hname, dInum_superblockOf _ _⟩)

theorem present_of_findFile {c dnum : UInt32} (hi : Within dataBlocks i)
    (hchild : v.findFile i name = .ok c) (hc : c.toNat < 8192)
    (hdnum : v.findDentry i name = .ok dnum) (h12 : (dnum / 32).toNat < 12) :
    i.iDirectTable ⟨_, h12⟩ ≠ 0 := by
  obtain rfl | ⟨j, hj, hne, hdnum', -, -⟩ | ⟨-, rfl⟩ := of_findFile hi hchild
  · exact absurd hc (by decide)
  · obtain rfl := Except.ok.inj (hdnum.symm.trans hdnum')
    rwa [show (⟨_, h12⟩ : Fin 12) = 0 from Fin.ext (major_of_lt hj)]
  · exact absurd hc (by decide)

end Volume

namespace Text

theorem strrchr_append (c : UInt8) (a b : List UInt8) (pos p : Nat) :
    strrchr c (a ++ b) pos p = strrchr c b (pos + a.length) (strrchr c a pos p) := by
  induction a generalizing pos p with
  | nil => rfl
  | cons x xs ih =>
    rw [List.cons_append, strrchr, ih, strrchr, List.length_cons, Nat.add_right_comm, Nat.add_assoc]

theorem strrchr_of_notMem {c : UInt8} {l : List UInt8} (h : c ∉ l) (pos p : Nat) :
    strrchr c l pos p = p := by
  induction l generalizing pos with
  | nil => rfl
  | cons x xs ih =>
    rw [List.mem_cons, not_or] at h
    rw [strrchr, if_neg (Ne.symm h.1), ih h.2]

def a : Text := ⟨[97], by decide⟩
def b : Text := ⟨[98], by decide⟩

def child (dir name : Text) : Text := (dir.append ⟨[slash], by decide⟩).append name

theorem child_bytes (dir name : Text) :
    (dir.child name).bytes = dir.bytes ++ slash :: name.bytes := by
  simp [child, append]

theorem lastSlash_child {dir name : Text} (h : slash ∉ name.bytes) :
    (dir.child name).lastSlash = dir.bytes.length := by
  rw [lastSlash, child_bytes, strrchr_append, strrchr, if_pos rfl, strrchr_of_notMem h,
    Nat.zero_add]

theorem drop_child (dir name : Text) : (dir.child name).drop (dir.bytes.length + 1) = name :=
  ext_bytes (by simp [drop, child_bytes])

theorem dotSlash_append (name : Text) : dotSlash.append name = dot.child name := ext_bytes rfl

theorem take_child (dir name : Text) : (dir.child name).take dir.bytes.length = dir :=
  ext_bytes (by simp [take, child_bytes])

theorem separatePath_child {dir name : Text} {size : Nat} (hdir : dir.bytes ≠ [])
    (hname : slash ∉ name.bytes)
    (hlen : name.length < size) (hfits : (dir.child name).length < 512) :
    separatePath (dir.child name) size = .ok (dir, name) := by
  simp only [separatePath, fits, if_pos hfits, lastSlash_child hname, drop_child, if_pos hlen,
    ok_bind]
  rw [if_neg (by simpa using hdir), take_child, pure_eq_ok]

theorem of_separatePath_child {dir name : Text} {size : Nat} {x : Text × Text}
    (hdir : dir.bytes ≠ [])
    (hname : slash ∉ name.bytes) (h : separatePath (dir.child name) size = .ok x) :
    x = (dir, name) ∧ name.length < size := by
  have hlen := length_of_separatePath h
  obtain ⟨_, -, h⟩ := exists_of_bind_ok h
  obtain ⟨_, -, h⟩ := exists_of_bind_ok h
  rw [lastSlash_child hname, drop_child, if_neg (by simpa using hdir), take_child] at h
  obtain rfl := Except.ok.inj h
  exact ⟨rfl, hlen⟩

end Text

theorem Text.zero_notMem_nil : (0 : UInt8) ∉ ([] : List UInt8) := List.not_mem_nil

def Text.empty : Text := ⟨[], Text.zero_notMem_nil⟩

theorem Text.zero_notMem_slash : 0 ∉ [Text.slash] := by decide

def Text.root : Text := ⟨[Text.slash], Text.zero_notMem_slash⟩

inductive Splits : Text → Text → Text → Prop
  | plain {name : Text} (h : Text.slash ∉ name.bytes) : Splits name .dot name
  | root {name : Text} (h : Text.slash ∉ name.bytes) : Splits (Text.root.append name) .root name
  | child {dir name : Text} (hdir : dir.bytes ≠ []) (h : Text.slash ∉ name.bytes) :
    Splits (dir.child name) dir name

namespace Text

theorem exists_child {path : Text} (h : slash ∈ path.bytes) :
    ∃ dir name : Text, path = dir.child name ∧ slash ∉ name.bytes := by
  obtain ⟨as, bs, hpath, hbs⟩ := List.eq_append_cons_of_mem (List.mem_reverse.mpr h)
  have hbytes : path.bytes = bs.reverse ++ slash :: as.reverse := by
    rw [← List.reverse_reverse path.bytes, hpath]
    simp
  have hzero := path.zero_notMem
  rw [hbytes] at hzero
  refine ⟨⟨bs.reverse, fun h0 => hzero (List.mem_append_left _ h0)⟩,
    ⟨as.reverse, fun h0 => hzero (List.mem_append_right _ (List.mem_cons_of_mem _ h0))⟩,
      ext_bytes ?_, by simpa using hbs⟩
  rw [child_bytes, hbytes]

theorem slash_mem_child (dir name : Text) : slash ∈ (dir.child name).bytes := by
  rw [child_bytes]
  exact List.mem_append_right _ List.mem_cons_self

theorem take_child_eq (dir name : Text) :
    (dir.child name).take (if dir.bytes.length = 0 then 1 else dir.bytes.length) =
    if dir.bytes = [] then root else dir := by
  split_ifs with hlen hdir hdir
  · refine ext_bytes ?_
    simp [take, child_bytes, hdir, root]
  · exact absurd (List.length_eq_zero_iff.mp hlen) hdir
  · exact absurd (by rw [hdir]; rfl) hlen
  · exact take_child dir name

theorem separatePath_child_eq {dir name : Text} (h : slash ∉ name.bytes) {size : Nat}
    {x : Text × Text} :
    separatePath (dir.child name) size = .ok x ↔
      ((dir.child name).length < 512 ∧ name.length < size) ∧ x = (if dir.bytes = [] then root else
      dir, name) := by
  rw [separatePath, fits]
  by_cases hpath : (dir.child name).length < 512
  · rw [if_pos hpath, ok_bind, lastSlash_child h]
    dsimp only
    rw [drop_child, take_child_eq, fits]
    by_cases hname : name.length < size
    · rw [if_pos hname, ok_bind, pure_eq_ok, Except.ok.injEq, eq_comm]
      tauto
    · rw [if_neg hname]
      exact iff_of_false (fun heq => by cases heq) fun hc => hname hc.1.2
  · rw [if_neg hpath]
    exact iff_of_false (fun heq => by cases heq) fun hc => hpath hc.1.1

end Text

namespace Splits
variable {path parent name : Text}

theorem eq_of_plain (h : Splits path parent name) (hplain : Text.slash ∉ path.bytes) :
    name = path := by
  cases h with
  | plain => rfl
  | root => exact absurd (List.mem_cons_self) hplain
  | child => exact absurd (Text.slash_mem_child _ _) hplain

theorem separatePath (h : Splits path parent name) (hslash : Text.slash ∈ path.bytes)
    (hpath : path.length < 512)
    (hname : name.length < 64) : Fs.separatePath path 64 = .ok (parent, name) := by
  cases h with
  | plain h => exact absurd hslash h
  | root h =>
    have hroot : Text.root.append name = Text.empty.child name :=
      Text.ext_bytes (by rw [Text.child_bytes]; rfl)
    rw [hroot] at hpath ⊢
    exact (Text.separatePath_child_eq h).mpr ⟨⟨hpath, hname⟩, rfl⟩
  | child hdir h => exact Text.separatePath_child hdir h hname hpath

/-- A last component that is not empty is lost only where it is the whole path and one byte long. -/
theorem one_byte (h : Splits path parent name) (hne : name.bytes ≠ []) {dir : Text}
    (hsep : Fs.separatePath path 64 = .ok (dir, .empty)) : path.bytes.length = 1 ∧ dir = path := by
  cases h with
  | plain hslash =>
    obtain ⟨_, -, hsep⟩ := exists_of_bind_ok hsep
    obtain ⟨_, -, hsep⟩ := exists_of_bind_ok hsep
    obtain ⟨rfl, hrest⟩ := Prod.mk.inj (Except.ok.inj hsep)
    rw [Text.lastSlash, Text.strrchr_of_notMem hslash] at hrest
    have hlen := congrArg (fun t => t.bytes.length) hrest
    have hpos := List.length_pos_of_ne_nil hne
    simp only [Text.drop, Text.empty, List.length_drop, List.length_nil] at hlen
    refine ⟨by omega, Text.ext_bytes ?_⟩
    rw [Text.lastSlash, Text.strrchr_of_notMem hslash]
    exact List.take_of_length_le (show path.bytes.length ≤ 1 by omega)
  | root hslash =>
    have hroot : Text.root.append name = Text.empty.child name :=
      Text.ext_bytes (by rw [Text.child_bytes]; rfl)
    rw [hroot] at hsep
    obtain ⟨-, hsep⟩ := (Text.separatePath_child_eq hslash).mp hsep
    exact absurd (congrArg Text.bytes (Prod.mk.inj hsep).2.symm) hne
  | child hdir hslash =>
    obtain ⟨hsep, -⟩ := Text.of_separatePath_child hdir hslash hsep
    exact absurd (congrArg Text.bytes (Prod.mk.inj hsep).2.symm) hne

theorem separatePath_one_byte (h : Splits path parent name) (hne : name.bytes ≠ [])
    (hone : path.bytes.length = 1) : Fs.separatePath path 64 = .ok (path, .empty) := by
  have hpos := List.length_pos_of_ne_nil hne
  cases h with
  | plain hslash =>
    have hdrop : path.drop 1 = .empty := Text.ext_bytes (List.drop_of_length_le (by omega))
    have htake : path.take 1 = path := Text.ext_bytes (List.take_of_length_le (by omega))
    have hfits : path.length < 512 := show path.bytes.length < 512 by omega
    rw [Fs.separatePath, fits, if_pos hfits, ok_bind, Text.lastSlash, Text.strrchr_of_notMem hslash]
    dsimp only
    rw [hdrop, if_pos rfl, htake]
    rfl
  | root =>
    rw [Text.append, List.length_append, show Text.root.bytes.length = 1 from rfl] at hone
    omega
  | child =>
    rw [Text.child_bytes, List.length_append, List.length_cons] at hone
    omega

end Splits

end Ucas.Fs

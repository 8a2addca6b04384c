import UcasOs.Fs.Entries

/-! Open files. A descriptor is recognised as free by being all zero, `-1` is stored like any other
inode number, and the search for a free descriptor does not stop at the end of the table. -/

namespace Ucas.Fs
open Ucas.Lib Relation

/-- The inode number that `do_fopen` finds under a name, `-1` if there is none. -/
def FileSys.numberOf (s : FileSys) (name : Text) : Except Fault UInt32 := do
  let (parent, name) ← separatePath (Text.dotSlash.append name) 64
  let parentInum ← s.findFile s.currentDir parent
  s.findFile (s.syncFromDiskInode parentInum) name

theorem FileSys.numberOf_eq (s : FileSys) (name : Text) :
    s.numberOf name = s.parentOf (Text.dotSlash.append name) >>= fun x =>
      s.findFile (s.syncFromDiskInode x.1) x.2 := by
  simp only [FileSys.numberOf, FileSys.parentOf, bind_assoc, pure_bind]

theorem FileSys.doFopen_eq (s : FileSys) (name : Text) (mode : UInt32) :
    s.doFopen name mode = s.numberOf name >>= fun n => s.openDescriptor n mode := by
  simp only [FileSys.doFopen, FileSys.numberOf, bind_assoc]

/-- The current directory has an entry with the name, which must not be empty, for inode `n`. -/
def FileSys.NamesFile (s : FileSys) (name : Text) (n : UInt32) : Prop :=
  name.bytes ≠ [] ∧ n.toNat < 8192 ∧ ∃ (k : Fin 12) (j : Fin 32),
    (s.syncFromDiskInode s.currentDir.iNum).iDirectTable k ≠ 0 ∧
    (dentryAt (s.readBlock ((s.syncFromDiskInode s.currentDir.iNum).iDirectTable k)) j).dName
      = name ∧
    (dentryAt (s.readBlock ((s.syncFromDiskInode s.currentDir.iNum).iDirectTable k)) j).dInum = n

section First
variable {s : Session} {p : FileDescriptor → Bool}

theorem Session.of_firstDescriptor {k : Fin 32} (h : s.firstDescriptor p = some k) :
    p (s.fileDescriptorTable k) = true :=
  List.find?_some (p := fun k => p (s.fileDescriptorTable k)) h

theorem Session.firstDescriptor_eq_none :
    s.firstDescriptor p = none ↔ ∀ k, p (s.fileDescriptorTable k) = false := by
  simp [Session.firstDescriptor]

end First

namespace Volume
variable (v : Volume)

def numberOf (name : Text) : Result UInt32 := do
  let (parentInum, name) ← v.parentOf (Text.dotSlash.append name)
  let parentInode ← v.load parentInum
  v.findFile parentInode name

def namesFile (name : Text) (n : UInt32) : Bool :=
  decide (name.bytes ≠ [] ∧ n.toNat < 8192) && (v.load v.currentDir.iNum).sure fun i =>
    (List.finRange 12).any fun k => decide (i.iDirectTable k ≠ 0) &&
      (v.read (i.iDirectTable k)).sure fun b => (List.finRange 32).any fun j =>
        decide ((dentryAt b j).dName = name ∧ (dentryAt b j).dInum = n)

end Volume

theorem Shows.numberOf {s : FileSys} {v : Volume} (h : Shows s v) (name : Text) :
    Refines Eq (s.numberOf name) (v.numberOf name) := by
  rw [FileSys.numberOf_eq, Volume.numberOf]
  refine (h.parentOf _).bind fun x _ _ _ hx => hx ▸ h.loading ?_
  exact h.findFile _ _

theorem Shows.of_namesFile {s : FileSys} {v : Volume} (h : Shows s v) {name : Text} {n : UInt32}
    (hname : v.namesFile name n = true) : s.NamesFile name n := by
  rw [Volume.namesFile, ← h.currentDir_eq] at hname
  obtain ⟨hproper, hentry⟩ := Bool.and_eq_true_iff.mp hname
  obtain ⟨hne, hlt⟩ := of_decide_eq_true hproper
  have hblocks := h.of_sure_load hentry
  obtain ⟨k, -, hk⟩ := List.any_eq_true.mp hblocks
  obtain ⟨hpointer, hread⟩ := Bool.and_eq_true_iff.mp hk
  have hslots := h.of_sure_read hread
  obtain ⟨j, -, hj⟩ := List.any_eq_true.mp hslots
  exact ⟨hne, hlt, k, j, of_decide_eq_true hpointer, of_decide_eq_true hj⟩

structure OpenFiles where
  fs : FileSys
  opened : Fin 32 → Option UInt32

namespace OpenFiles

/-- `find_file` finds the entry, its inode is not 0, and there is a descriptor for it. -/
def CanOpen (c : OpenFiles) (name : Text) (n : UInt32) : Prop :=
  c.fs.NamesFile name n ∧ c.fs.numberOf name = .ok n ∧ n ≠ 0 ∧
    ((∃ k, c.opened k = some n) ∨ ∃ k, c.opened k = none)

/-- A call of `do_fopen` that can open its file, or a call of `do_fclose`. -/
inductive Step (c : OpenFiles) : OpenFiles → Prop
  | fopen {name : Text} {mode n : UInt32} {k : Fin 32} {s : FileSys} (hopen : c.CanOpen name n)
      (hs : c.fs.doFopen name mode = .ok (UInt32.ofNat k, s)) :
      Step c ⟨s, Function.update c.opened k (some n)⟩
  | fclose {fd : UInt32} {k : Fin 32} {s : FileSys} (hk : FileSys.descriptor fd = .ok k)
      (hs : c.fs.doFclose fd = .ok s) : Step c ⟨s, Function.update c.opened k none⟩

/-- The states that runs reach from a table with no file open. -/
def Reached (c : OpenFiles) : Prop :=
  ∃ s : FileSys, (∀ k, s.fileDescriptorTable k = .zero) ∧ ReflTransGen Step ⟨s, fun _ => none⟩ c

/-- A file of the current directory has the name, and is open or can get a descriptor. -/
def Openable (c : OpenFiles) (name : Text) : Prop :=
  ∃ n, c.fs.NamesFile name n ∧ ((∃ k, c.opened k = some n) ∨ ∃ k, c.opened k = none)

/-- What `do_fopen` should do: give the file the descriptor it has or one that is not in use, and
with no such file or no such descriptor return an error and leave the table alone. -/
def OpensWell (c : OpenFiles) (name : Text) (mode : UInt32) : Prop :=
  ∃ r s, c.fs.doFopen name mode = .ok (r, s) ∧
    (c.Openable name → ∃ (n : UInt32) (k : Fin 32), c.fs.NamesFile name n ∧ r = UInt32.ofNat k ∧
      (s.fileDescriptorTable k).fdInum = n ∧ (s.fileDescriptorTable k).isEmpty = false ∧
      (c.opened k = some n ∧ s = c.fs ∨
        c.opened k = none ∧ (∀ j, c.opened j ≠ some n) ∧
          ∀ j, j ≠ k → s.fileDescriptorTable j = c.fs.fileDescriptorTable j)) ∧
    (¬ c.Openable name → 2 ^ 31 ≤ r.toNat ∧ s.fileDescriptorTable = c.fs.fileDescriptorTable)

structure Consistent (c : OpenFiles) : Prop where
  free : ∀ k, c.opened k = none → c.fs.fileDescriptorTable k = .zero
  inum : ∀ k n, c.opened k = some n → (c.fs.fileDescriptorTable k).fdInum = n
  proper : ∀ k n, c.opened k = some n → n ≠ 0
  unique : ∀ j k n, c.opened j = some n → c.opened k = some n → j = k

section Open
variable {c : OpenFiles} {n mode : UInt32}

theorem Consistent.opened_of_inum (h : Consistent c) {k : Fin 32}
    (hk : (c.fs.fileDescriptorTable k).fdInum = n)
    (hn : n ≠ 0) : c.opened k = some n := by
  cases hopen : c.opened k with
  | none =>
    rw [h.free k hopen] at hk
    exact absurd hk.symm hn
  | some m => rw [← hk, h.inum k m hopen]

theorem Consistent.opened_of_empty (h : Consistent c) {k : Fin 32}
    (hk : (c.fs.fileDescriptorTable k).isEmpty = true) : c.opened k = none := by
  cases hopen : c.opened k with
  | none => rfl
  | some m =>
    have hzero : c.fs.fileDescriptorTable k = .zero := eq_of_beq hk
    have hm := h.inum k m hopen
    rw [hzero] at hm
    exact absurd hm.symm (h.proper k m hopen)

theorem Consistent.openDescriptor (h : Consistent c) (mode : UInt32) (hn : n ≠ 0) :
    (∃ k, c.opened k = some n ∧ c.fs.openDescriptor n mode = .ok (UInt32.ofNat k, c.fs)) ∨
    (∀ j, c.opened j ≠ some n) ∧
      ((∃ k : Fin 32, c.opened k = none ∧
          c.fs.openDescriptor n mode = .ok (UInt32.ofNat k, c.fs.setDescriptor k ⟨n, mode, 0, 0⟩)) ∨
        (∀ k, c.opened k ≠ none) ∧ c.fs.openDescriptor n mode = .error .descriptor) := by
  unfold FileSys.openDescriptor
  cases hfirst : c.fs.firstDescriptor fun d => d.fdInum == n with
  | some k =>
    have hk : (c.fs.fileDescriptorTable k).fdInum = n :=
      eq_of_beq (Session.of_firstDescriptor hfirst)
    exact .inl ⟨k, h.opened_of_inum hk hn, rfl⟩
  | none =>
    have hnone : ∀ j, c.opened j ≠ some n := fun j hj =>
      absurd (h.inum j n hj) (by simpa using Session.firstDescriptor_eq_none.mp hfirst j)
    refine .inr ⟨hnone, ?_⟩
    cases hempty : c.fs.firstDescriptor FileDescriptor.isEmpty with
    | some k => exact .inl ⟨k, h.opened_of_empty (Session.of_firstDescriptor hempty), rfl⟩
    | none =>
      refine .inr ⟨fun k hk => ?_, rfl⟩
      have hfull := Session.firstDescriptor_eq_none.mp hempty k
      rw [h.free k hk] at hfull
      exact absurd hfull (by decide)

theorem Consistent.openDescriptor_zero (h : Consistent c) {r : UInt32} {s : FileSys}
    (hs : c.fs.openDescriptor 0 mode = .ok (r, s)) :
    s = c.fs ∧ ∃ k : Fin 32, r = UInt32.ofNat k ∧ c.fs.fileDescriptorTable k = .zero := by
  have hzero : ∀ k, (c.fs.fileDescriptorTable k).fdInum = 0 → c.fs.fileDescriptorTable k = .zero :=
      by
    intro k hk
    cases hopen : c.opened k with
    | none => exact h.free k hopen
    | some m => exact absurd ((h.inum k m hopen).symm.trans hk) (h.proper k m hopen)
  unfold FileSys.openDescriptor at hs
  cases hfirst : c.fs.firstDescriptor fun d => d.fdInum == 0 with
  | some k =>
    rw [hfirst] at hs
    obtain ⟨rfl, rfl⟩ := Prod.mk.inj (Except.ok.inj hs)
    exact ⟨rfl, k, rfl, hzero k (eq_of_beq (Session.of_firstDescriptor hfirst))⟩
  | none =>
    rw [hfirst] at hs
    cases hempty : c.fs.firstDescriptor FileDescriptor.isEmpty with
    | some k =>
      have hk : c.fs.fileDescriptorTable k = .zero := eq_of_beq (Session.of_firstDescriptor hempty)
      have hne := Session.firstDescriptor_eq_none.mp hfirst k
      rw [hk] at hne
      exact absurd hne (by decide)
    | none =>
      rw [hempty] at hs
      cases hs

end Open

section Run
variable {c c' : OpenFiles} {name : Text} {mode n : UInt32}

theorem descriptor_setDescriptor (s : FileSys) (k j : Fin 32) (d : FileDescriptor) :
    (s.setDescriptor k d).fileDescriptorTable j = if j = k then d else s.fileDescriptorTable j :=
  Function.update_apply s.fileDescriptorTable k d j

theorem ofNat_inj {j k : Fin 32} (h : UInt32.ofNat j = UInt32.ofNat k) : j = k := by
  have hnat := congrArg UInt32.toNat h
  rw [toNat_ofNat_of_lt (by omega), toNat_ofNat_of_lt (by omega)] at hnat
  exact Fin.ext hnat

theorem doFopen_of_numberOf (hn : c.fs.numberOf name = .ok n) :
    c.fs.doFopen name mode = c.fs.openDescriptor n mode := by
  rw [FileSys.doFopen_eq, hn, ok_bind]

theorem Consistent.fopen (h : Consistent c) {k : Fin 32} {s : FileSys} (hn0 : n ≠ 0)
    (hs : c.fs.openDescriptor n mode = .ok (UInt32.ofNat k, s)) :
    Consistent ⟨s, Function.update c.opened k (some n)⟩ := by
  rcases h.openDescriptor mode hn0 with ⟨j, hj, hopen⟩ | ⟨hnone, ⟨j, hj, hopen⟩ | ⟨-, hopen⟩⟩
  · obtain ⟨hjk, rfl⟩ := Prod.mk.inj (Except.ok.inj (hopen.symm.trans hs))
    cases ofNat_inj hjk
    have hsame : Function.update c.opened k (some n) = c.opened := by
      rw [← hj, Function.update_eq_self]
    rw [hsame]
    exact h
  · obtain ⟨hjk, rfl⟩ := Prod.mk.inj (Except.ok.inj (hopen.symm.trans hs))
    cases ofNat_inj hjk
    constructor
    · intro i hi
      dsimp only at hi ⊢
      rw [Function.update_apply] at hi
      rw [descriptor_setDescriptor]
      split_ifs at hi ⊢ with hij
      exact h.free i hi
    · intro i m hi
      dsimp only at hi ⊢
      rw [Function.update_apply] at hi
      rw [descriptor_setDescriptor]
      split_ifs at hi ⊢ with hij
      · exact Option.some.inj hi
      · exact h.inum i m hi
    · intro i m hi
      dsimp only at hi
      rw [Function.update_apply] at hi
      split_ifs at hi with hij
      · exact Option.some.inj hi ▸ hn0
      · exact h.proper i m hi
    · intro i i' m hi hi'
      dsimp only at hi hi'
      rw [Function.update_apply] at hi hi'
      split_ifs at hi hi' with hij hij' hij'
      · rw [hij, hij']
      · exact absurd (hi'.trans hi.symm) (hnone i')
      · exact absurd (hi.trans hi'.symm) (hnone i)
      · exact h.unique i i' m hi hi'
  · cases hopen.symm.trans hs

theorem Consistent.fclose (h : Consistent c) (k : Fin 32) :
    Consistent ⟨c.fs.setDescriptor k .zero, Function.update c.opened k none⟩ := by
  have hopened : ∀ {i m}, Function.update c.opened k none i = some m → i ≠ k ∧
      c.opened i = some m := by
    intro i m hi
    rw [Function.update_apply] at hi
    split_ifs at hi with hik
    exact ⟨hik, hi⟩
  constructor
  · intro i hi
    dsimp only at hi ⊢
    rw [Function.update_apply] at hi
    rw [descriptor_setDescriptor]
    split_ifs at hi ⊢ with hik
    · rfl
    · exact h.free i hi
  · intro i m hi
    obtain ⟨hik, him⟩ := hopened hi
    dsimp only
    rw [descriptor_setDescriptor, if_neg hik]
    exact h.inum i m him
  · exact fun i m hi => h.proper i m (hopened hi).2
  · exact fun i i' m hi hi' => h.unique i i' m (hopened hi).2 (hopened hi').2

theorem Consistent.step (h : Consistent c) (hstep : Step c c') : Consistent c' := by
  cases hstep with
  | fopen hopen hs =>
    obtain ⟨-, hn, hn0, -⟩ := hopen
    rw [doFopen_of_numberOf hn] at hs
    exact h.fopen hn0 hs
  | fclose hk hs =>
    rw [FileSys.doFclose, hk, ok_bind] at hs
    obtain rfl := Except.ok.inj hs
    exact h.fclose _

theorem Reached.consistent (h : Reached c) : Consistent c := by
  obtain ⟨s, hs, hrun⟩ := h
  refine invariant_of_path (T := Step) (I := Consistent) (fun _ _ h hstep => h.step hstep) ?_ hrun
  exact ⟨fun k _ => hs k, fun _ _ h => (by cases h), fun _ _ h => (by cases h), fun _ _ _ h =>
    (by cases h)⟩

theorem Consistent.opensWell (h : Consistent c) (hopen : c.CanOpen name n) (mode : UInt32) :
    c.OpensWell name mode := by
  obtain ⟨hfile, hn, hn0, hroom⟩ := hopen
  have hcall : c.fs.doFopen name mode = _ := doFopen_of_numberOf hn
  rcases h.openDescriptor mode hn0 with ⟨k, hk, hs⟩ | ⟨hnone, ⟨k, hk, hs⟩ | ⟨hfull, -⟩⟩
  · refine ⟨UInt32.ofNat k, c.fs, hcall.trans hs, fun _ => ?_, fun hnot => ?_⟩
    · refine ⟨n, k, hfile, rfl, h.inum k n hk, ?_, .inl ⟨hk, rfl⟩⟩
      rw [FileDescriptor.isEmpty, beq_eq_false_iff_ne]
      intro hzero
      have hinum := h.inum k n hk
      rw [hzero] at hinum
      exact hn0 hinum.symm
    · exact absurd ⟨n, hfile, hroom⟩ hnot
  · refine ⟨UInt32.ofNat k, _, hcall.trans hs, fun _ => ?_, fun hnot => ?_⟩
    · refine ⟨n, k, hfile, rfl, ?_, ?_, .inr ⟨hk, hnone, fun j hj => ?_⟩⟩
      · rw [descriptor_setDescriptor, if_pos rfl]
      · rw [descriptor_setDescriptor, if_pos rfl, FileDescriptor.isEmpty, beq_eq_false_iff_ne]
        exact fun hzero => hn0 (congrArg FileDescriptor.fdInum hzero)
      · rw [descriptor_setDescriptor, if_neg hj]
    · exact absurd ⟨n, hfile, hroom⟩ hnot
  · rcases hroom with ⟨k, hk⟩ | ⟨k, hk⟩
    · exact absurd hk (hnone k)
    · exact absurd hk (hfull k)

theorem not_error (k : Fin 32) : ¬ 2 ^ 31 ≤ (UInt32.ofNat k).toNat := by
  rw [toNat_ofNat_of_lt (by omega)]
  omega

/-- What the code returns for inode `n` is a descriptor with that number, whether or not `n` stands
for a file. -/
theorem Consistent.openDescriptor_ok (h : Consistent c) {r : UInt32} {s : FileSys} (hn0 : n ≠ 0)
    (hs : c.fs.openDescriptor n mode = .ok (r, s)) :
    ∃ k : Fin 32, r = UInt32.ofNat k ∧ (s.fileDescriptorTable k).fdInum = n ∧
      (c.opened k = some n ∨ c.opened k = none) := by
  rcases h.openDescriptor mode hn0 with ⟨k, hk, hs'⟩ | ⟨-, ⟨k, hk, hs'⟩ | ⟨-, hs'⟩⟩
  · cases hs'.symm.trans hs
    exact ⟨k, rfl, h.inum k n hk, .inl hk⟩
  · cases hs'.symm.trans hs
    refine ⟨k, rfl, ?_, .inr hk⟩
    rw [descriptor_setDescriptor, if_pos rfl]
  · cases hs'.symm.trans hs

theorem Consistent.canOpen (h : Consistent c) (hwell : c.OpensWell name mode) :
    ∃ n, c.CanOpen name n := by
  obtain ⟨r, s, hs, hopen, herror⟩ := hwell
  rw [FileSys.doFopen_eq] at hs
  obtain ⟨n, hn, hs⟩ := exists_of_bind_ok hs
  by_cases hn0 : n = 0
  · -- the descriptor that is returned is still free, so it is no descriptor of the file
    subst hn0
    obtain ⟨rfl, k, rfl, hk⟩ := h.openDescriptor_zero hs
    by_cases hopenable : c.Openable name
    · obtain ⟨n, j, -, hj, -, hempty, -⟩ := hopen hopenable
      cases ofNat_inj hj
      rw [hk] at hempty
      exact absurd hempty (by decide)
    · exact absurd (herror hopenable).1 (not_error k)
  · obtain ⟨k, rfl, hinum, hroom⟩ := h.openDescriptor_ok hn0 hs
    by_cases hopenable : c.Openable name
    · obtain ⟨m, j, hfile, hj, hm, -⟩ := hopen hopenable
      cases ofNat_inj hj
      obtain rfl := hm.symm.trans hinum
      exact ⟨_, hfile, hn, hn0, hroom.imp (⟨k, ·⟩) (⟨k, ·⟩)⟩
    · exact absurd (herror hopenable).1 (not_error k)

/-- In every run in which each `do_fopen` finds the entry of its name, for an inode other than 0,
and the file open or a descriptor that is not in use, every open file has one descriptor with its
inode number. The next `do_fopen` does what it should exactly if it meets the condition too. -/
theorem descriptors_consistent (h : Reached c) :
    (∀ k n, c.opened k = some n → (c.fs.fileDescriptorTable k).fdInum = n) ∧
    (∀ j k n, c.opened j = some n → c.opened k = some n → j = k) ∧
    ∀ name mode, c.OpensWell name mode ↔ ∃ n, c.CanOpen name n := by
  have hc := h.consistent
  exact ⟨hc.inum, hc.unique, fun name mode => ⟨hc.canOpen, fun ⟨_, hopen⟩ =>
    hc.opensWell hopen mode⟩⟩

theorem mkfs_reached {t s : FileSys} {e : Env} (h : Shows t (Volume.mkfs e s)) :
    Reached ⟨t, fun _ => none⟩ :=
  ⟨t, fun k => congrFun (congrArg Session.fileDescriptorTable h.session) k, .refl⟩

section TwoFiles
variable {s : FileSys} {v : Volume}

theorem lookup_setDescriptor (s : FileSys) (k : Fin 32) (d : FileDescriptor) (i : Inode)
    (name : Text) (m b j : Nat) :
    (s.setDescriptor k d).lookup i name m b j = s.lookup i name m b j := by
  induction m generalizing b j with
  | zero => rfl
  | succ m ih =>
    rw [FileSys.lookup, FileSys.lookup]
    simp only [ih]
    rfl

theorem numberOf_setDescriptor (s : FileSys) (k : Fin 32) (d : FileDescriptor)
    (name : Text) : (s.setDescriptor k d).numberOf name = s.numberOf name := by
  simp only [FileSys.numberOf, FileSys.findFile, FileSys.lookupInum, lookup_setDescriptor]
  rfl

structure NamesBoth (s : FileSys) : Prop where
  a : s.NamesFile .a 1 ∧ s.numberOf .a = .ok 1
  b : s.NamesFile .b 2 ∧ s.numberOf .b = .ok 2

namespace NamesBoth

theorem setDescriptor (h : NamesBoth s) (k : Fin 32) (d : FileDescriptor) :
    NamesBoth (s.setDescriptor k d) :=
  ⟨⟨h.a.1, (numberOf_setDescriptor s k d .a).trans h.a.2⟩,
    h.b.1, (numberOf_setDescriptor s k d .b).trans h.b.2⟩

theorem canOpen_a (h : NamesBoth c.fs)
    (hroom : (∃ k, c.opened k = some 1) ∨ ∃ k, c.opened k = none) : c.CanOpen .a 1 :=
  ⟨h.a.1, h.a.2, by decide, hroom⟩

theorem canOpen_b (h : NamesBoth c.fs)
    (hroom : (∃ k, c.opened k = some 2) ∨ ∃ k, c.opened k = none) : c.CanOpen .b 2 :=
  ⟨h.b.1, h.b.2, by decide, hroom⟩

/-- Both files are opened, and the first one again. -/
theorem doFopen (h : NamesBoth s) (htable : s.fileDescriptorTable = fun _ => .zero) :
    ∃ s₁ s₂, s.doFopen .a 0 = .ok (0, s₁) ∧ s₁.doFopen .b 0 = .ok (1, s₂) ∧
      s₂.doFopen .a 0 = .ok (0, s₂) ∧ NamesBoth s₁ ∧ NamesBoth s₂ := by
  have h₁ := h.setDescriptor 0 ⟨1, 0, 0, 0⟩
  have h₂ := h₁.setDescriptor 1 ⟨2, 0, 0, 0⟩
  refine ⟨_, _, ?_, ?_, ?_, h₁, h₂⟩
  · have hnew : s.firstDescriptor (fun d => d.fdInum == 1) = none := by
      rw [Session.firstDescriptor, htable]
      decide
    have hfree : s.firstDescriptor FileDescriptor.isEmpty = some 0 := by
      rw [Session.firstDescriptor, htable]
      decide
    rw [FileSys.doFopen_eq, h.a.2, ok_bind, FileSys.openDescriptor, hnew, hfree]
    rfl
  · have htable₁ : (s.setDescriptor 0 ⟨1, 0, 0, 0⟩).fileDescriptorTable =
        Function.update (fun _ => .zero) 0 ⟨1, 0, 0, 0⟩ := by
      rw [← htable]
      rfl
    have hnew :
        (s.setDescriptor 0 ⟨1, 0, 0, 0⟩).firstDescriptor (fun d => d.fdInum == 2) = none := by
      rw [Session.firstDescriptor, htable₁]
      decide
    have hfree :
        (s.setDescriptor 0 ⟨1, 0, 0, 0⟩).firstDescriptor FileDescriptor.isEmpty = some 1 := by
      rw [Session.firstDescriptor, htable₁]
      decide
    rw [FileSys.doFopen_eq, h₁.b.2, ok_bind, FileSys.openDescriptor, hnew, hfree]
    rfl
  · have htable₂ :
        ((s.setDescriptor 0 ⟨1, 0, 0, 0⟩).setDescriptor 1 ⟨2, 0, 0, 0⟩).fileDescriptorTable =
          Function.update (Function.update (fun _ => .zero) 0 ⟨1, 0, 0, 0⟩) 1 ⟨2, 0, 0, 0⟩ := by
      rw [← htable]
      rfl
    have hold : ((s.setDescriptor 0 ⟨1, 0, 0, 0⟩).setDescriptor 1 ⟨2, 0, 0, 0⟩).firstDescriptor
        (fun d => d.fdInum == 1) = some 0 := by
      rw [Session.firstDescriptor, htable₂]
      decide
    rw [FileSys.doFopen_eq, h₂.a.2, ok_bind, FileSys.openDescriptor, hold]
    rfl

end NamesBoth

def openedA : Fin 32 → Option UInt32 := Function.update (fun _ => none) 0 (some 1)

theorem reached_opened {s₁ s₂ : FileSys} (htable : s.fileDescriptorTable = fun _ => .zero)
    (h : NamesBoth s) (h₁ : NamesBoth s₁) (h₂ : NamesBoth s₂)
    (hfirst : s.doFopen .a 0 = .ok (0, s₁)) (hsecond : s₁.doFopen .b 0 = .ok (1, s₂))
    (hagain : s₂.doFopen .a 0 = .ok (0, s₂)) :
    Reached ⟨s₂.setDescriptor 1 .zero, openedA⟩ := by
  refine ⟨s, fun k => congrFun htable k, ?_⟩
  have hopened : openedA =
      Function.update (Function.update (Function.update openedA 1 (some 2)) 0 (some 1)) 1 none := by
    decide
  rw [hopened]
  have hstep₁ := Step.fopen (c := ⟨s, fun _ => none⟩) (n := 1) (k := 0)
    (h.canOpen_a (.inr ⟨0, rfl⟩)) hfirst
  have hstep₂ := Step.fopen (c := ⟨s₁, openedA⟩) (n := 2) (k := 1)
    (h₁.canOpen_b (.inr ⟨1, rfl⟩)) hsecond
  have hstep₃ := Step.fopen (c := ⟨s₂, Function.update openedA 1 (some 2)⟩) (n := 1) (k := 0)
    (h₂.canOpen_a (.inl ⟨0, rfl⟩)) hagain
  exact (((ReflTransGen.single hstep₁).tail hstep₂).tail hstep₃).tail
    (.fclose (show FileSys.descriptor 1 = .ok 1 from rfl) rfl)

end TwoFiles

theorem descriptors_consistent_two_files : ∃ s₀ s s₁ s₂ t, FileSys.blank.doMkfs .blank = .ok s₀ ∧
    runOps [.touch .a 0, .touch .b 0] s₀ = .ok s ∧ s.doFopen .a 0 = .ok (0, s₁) ∧
    s₁.doFopen .b 0 = .ok (1, s₂) ∧ s₂.doFopen .a 0 = .ok (0, s₂) ∧ s₂.doFclose 1 = .ok t ∧
    OpensWell ⟨t, Function.update (fun _ => none) 0 (some 1)⟩ .a 0 ∧
    OpensWell ⟨t, Function.update (fun _ => none) 0 (some 1)⟩ .b 0 := by
  obtain ⟨s₀, s, v, hs₀, hs, -, hv, hp⟩ := exists_run_checked (C := fun _ _ => True)
    (c := fun _ _ => true) (fun _ _ _ _ _ => trivial) [.touch .a 0, .touch .b 0]
    (p := fun v => v.namesFile .a 1 && v.namesFile .b 2 &&
      decide ((v.numberOf .a).toOption = some 1 ∧ (v.numberOf .b).toOption = some 2 ∧
        ∀ k, v.fileDescriptorTable k = .zero)) (by decide +kernel)
  obtain ⟨hnames, hrest⟩ := Bool.and_eq_true_iff.mp hp
  obtain ⟨hnames, hnames'⟩ := Bool.and_eq_true_iff.mp hnames
  obtain ⟨hnumber, hnumber', hzero⟩ := of_decide_eq_true hrest
  have h : NamesBoth s :=
    ⟨⟨hv.of_namesFile hnames, eq_ok_of_refines (hv.numberOf .a) (eq_ok_of_toOption hnumber)⟩,
      hv.of_namesFile hnames', eq_ok_of_refines (hv.numberOf .b) (eq_ok_of_toOption hnumber')⟩
  have htable : s.fileDescriptorTable = fun _ => .zero :=
    funext fun k => (hv.descriptor_eq k).trans (hzero k)
  obtain ⟨s₁, s₂, hfirst, hsecond, hagain, h₁, h₂⟩ := h.doFopen htable
  have hwell := (descriptors_consistent
    (reached_opened htable h h₁ h₂ hfirst hsecond hagain)).2.2
  have ht := h₂.setDescriptor 1 .zero
  exact ⟨s₀, s, s₁, s₂, _, hs₀, hs, hfirst, hsecond, hagain, rfl,
    (hwell .a 0).mpr ⟨1, ht.canOpen_a (c := ⟨_, openedA⟩) (.inl ⟨0, rfl⟩)⟩,
    (hwell .b 0).mpr ⟨2, ht.canOpen_b (c := ⟨_, openedA⟩) (.inr ⟨1, rfl⟩)⟩⟩

theorem fopen_missing_name :
    ∃ t, FileSys.blank.doMkfs .blank = .ok t ∧ (∀ n, ¬ t.NamesFile .a n) ∧
    t.doFopen .a 2 = .ok (0, t.setDescriptor 0 ⟨notFound, 2, 0, 0⟩) ∧
    Reached ⟨t, fun _ => none⟩ ∧ ¬ OpensWell ⟨t, fun _ => none⟩ .a 2 := by
  obtain ⟨t, ht, hshows⟩ := doMkfs_shows .blank .blank
  have hreached := mkfs_reached hshows
  have hsep : separatePath (Text.dotSlash.append .a) 64 = .ok (.dot, .a) := by
    decide
  have hn : t.numberOf .a = .ok notFound := by
    rw [FileSys.numberOf, hsep, ok_bind]
    dsimp only
    rw [hshows.mkfs_findFile (by decide), ok_bind, if_pos (.inl rfl), hshows.mkfs_syncFromDiskInode,
      hshows.mkfs_findFile (by decide), if_neg (by decide)]
  have hopen : t.openDescriptor notFound 2 = .ok (0, t.setDescriptor 0 ⟨notFound, 2, 0, 0⟩) := by
    have htable : t.fileDescriptorTable = fun _ => .zero :=
      congrArg Session.fileDescriptorTable hshows.session
    have hnone : t.firstDescriptor (fun d => d.fdInum == notFound) = none := by
      rw [Session.firstDescriptor, htable]
      decide
    have hempty : t.firstDescriptor FileDescriptor.isEmpty = some 0 := by
      rw [Session.firstDescriptor, htable]
      decide
    rw [FileSys.openDescriptor, hnone, hempty]
    rfl
  have hmissing : ∀ n, ¬ t.NamesFile .a n := by
    rintro n ⟨-, -, k, j, hpointer, hname, -⟩
    rw [show t.currentDir.iNum = 0 from congrArg (·.currentDir.iNum) hshows.session,
      hshows.mkfs_syncFromDiskInode, show t.currentDir = rootOf .blank from
        congrArg Session.currentDir hshows.session] at hpointer hname
    obtain rfl : k = 0 := by
      by_contra hk
      exact hpointer (rootOf_direct_of_ne .blank hk)
    rw [show (rootOf .blank).iDirectTable 0 = UInt32.ofNat 266 from rfl,
      ← hshows.block 266 (by omega) (by omega), show (Volume.mkfs .blank .blank).block 266 =
        directoryBlock 0 0 from rfl, dentryAt_directoryBlock _ _ j.isLt] at hname
    split_ifs at hname
    all_goals exact absurd hname (by decide)
  refine ⟨t, ht, hmissing, (doFopen_of_numberOf (c := ⟨t, fun _ => none⟩) hn).trans hopen, hreached,
    fun hwell => ?_⟩
  obtain ⟨m, hfile, -⟩ := hreached.consistent.canOpen hwell
  exact hmissing m hfile

end Run

end OpenFiles

end Ucas.Fs

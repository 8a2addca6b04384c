import UcasOs.Fs.Change

/-! The directories and numbers an operation meets before it changes anything: conditions on an
operation are stated about these, and a volume that a file system shows has the same ones. -/

namespace Ucas.Fs
open Ucas.Lib

theorem Text.cut_ne_nil (l : List UInt8) : Text.cut l ≠ [] := by
  cases l with
  | nil => simp [Text.cut]
  | cons c cs =>
    rw [Text.cut]
    split_ifs with hc
    · simp
    · split <;> simp

theorem length_of_separatePath {path : Text} {size : Nat} {x : Text × Text}
    (h : separatePath path size = .ok x) :
    x.2.length < size := by
  obtain ⟨_, -, h⟩ := exists_of_bind_ok h
  obtain ⟨_, hfits, h⟩ := exists_of_bind_ok h
  obtain rfl := Except.ok.inj h
  unfold fits at hfits
  split_ifs at hfits with hlt
  exact hlt

theorem Text.components_ne_nil (t : Text) : t.components ≠ [] := by
  simp [Text.components, Text.cut_ne_nil]

namespace FileSys
variable (s : FileSys)

def parentOf (path : Text) : Except Fault (UInt32 × Text) := do
  let (parent, name) ← separatePath path 64
  let n ← s.findFile s.currentDir parent
  return (n, name)

/-- Where an operation makes, changes or removes an entry, and under which name. -/
def target : Op → Except Fault (UInt32 × Text)
  | .mkdir path _ | .rmdir path => s.parentOf path
  | .touch name _ | .rename name _ => s.parentOf (Text.dotSlash.append name)
  | .link _ newPath => do
    let (parent, name) ← separatePath newPath 64
    let n ← s.parsePath parent s.currentDir
    return (n, name)
  | .symlink srcPath newPath => do
    let (_, name) ← separatePath (Text.dot.append srcPath) 64
    let n ← s.parsePath newPath s.currentDir
    return (n, name)
  | _ => .error .noReturn

def AllMet (P : UInt32 → Prop) : List Text → Inode → Prop
  | [], _ => True
  | name :: rest, i => ∀ n, s.findFile i name = .ok n → P n ∧ AllMet P rest (s.syncFromDiskInode n)

def Meets (P : UInt32 → Prop) : Op → Prop
  | .mkdir path _ => ∀ n name, s.parentOf path = .ok (n, name) → P n
  | .rmdir path => ∀ n name, s.parentOf path = .ok (n, name) →
      P n ∧ ∀ c, s.findFile (s.syncFromDiskInode n) name = .ok c → c.toNat < 8 * 4096 → P c
  | .touch name _ | .rename name _ =>
    ∀ n name', s.parentOf (Text.dotSlash.append name) = .ok (n, name') → P n
  | .link srcPath newPath => s.AllMet P srcPath.components s.currentDir ∧
      ∀ parent name, separatePath newPath 64 = .ok (parent, name) → s.AllMet P parent.components
      s.currentDir
  | .symlink _ newPath => s.AllMet P newPath.components s.currentDir
  | .cd name => ∀ names, pathSteps name name = .ok (some names) → s.AllMet P names s.currentDir
  | .fwrite fd _ => ∀ k, descriptor fd = .ok k → P (s.fileDescriptorTable k).fdInum
  | _ => True

def Room (op : Op) : Prop := ∀ n name, s.target op = .ok (n, name) → (s.syncFromDiskInode n).HasRoom

/-- A call of `do_fwrite` ends in a block of the direct table and starts in one the file has. -/
def Fits : Op → Prop
  | .fwrite fd data => ∀ k, descriptor fd = .ok k →
      ((s.fileDescriptorTable k).fdWOffset.toNat + data.length) / 4096 < 12 ∧
      ((s.fileDescriptorTable k).fdWOffset ≠ 0 →
      ∀ j : Fin 12, j = ((s.fileDescriptorTable k).fdWOffset / 4096).toNat →
        (s.syncFromDiskInode (s.fileDescriptorTable k).fdInum).iDirectTable j ≠ 0)
  | _ => True

variable {s} {P Q : UInt32 → Prop}

theorem length_of_target {op : Op} {n : UInt32} {name : Text} (h : s.target op = .ok (n, name)) :
    name.length < 64 := by
  have hparent : ∀ {path : Text}, s.parentOf path = .ok (n, name) → name.length < 64 := fun h => by
    obtain ⟨x, hsep, h⟩ := exists_of_bind_ok h
    obtain ⟨m, -, h⟩ := exists_of_bind_ok h
    obtain ⟨-, rfl⟩ := Prod.mk.inj (Except.ok.inj h)
    exact length_of_separatePath hsep
  cases op with
  | mkdir path mode => exact hparent h
  | rmdir path => exact hparent h
  | touch name mode => exact hparent h
  | rename oldName newName => exact hparent h
  | link srcPath newPath =>
    obtain ⟨x, hsep, h⟩ := exists_of_bind_ok h
    obtain ⟨m, -, h⟩ := exists_of_bind_ok h
    obtain ⟨-, rfl⟩ := Prod.mk.inj (Except.ok.inj h)
    exact length_of_separatePath hsep
  | symlink srcPath newPath =>
    obtain ⟨x, hsep, h⟩ := exists_of_bind_ok h
    obtain ⟨m, -, h⟩ := exists_of_bind_ok h
    obtain ⟨-, rfl⟩ := Prod.mk.inj (Except.ok.inj h)
    exact length_of_separatePath hsep
  | _ => cases h

theorem AllMet.mono (hPQ : ∀ n, P n → Q n) {names : List Text} {i : Inode}
    (h : s.AllMet P names i) :
    s.AllMet Q names i := by
  induction names generalizing i with
  | nil => trivial
  | cons name rest ih => exact fun n hn => ⟨hPQ n (h n hn).1, ih (h n hn).2⟩

theorem AllMet.parsePath {path : Text} {i : Inode} (h : s.AllMet P path.components i) {n : UInt32}
    (hn : s.parsePath path i = .ok n) : P n := by
  obtain ⟨_, -, hn⟩ := exists_of_bind_ok hn
  obtain ⟨r, hr, hn⟩ := exists_of_bind_ok hn
  obtain rfl := Except.ok.inj hn
  have hwalk : ∀ (names : List Text) (here : UInt32 × Inode), s.AllMet P names here.2 →
      names.foldlM s.walk here = .ok r → names = [] ∧ r = here ∨ P r.1 := by
    intro names
    induction names with
    | nil => exact fun here _ hr => .inl ⟨rfl, (Except.ok.inj hr).symm⟩
    | cons name rest ih =>
      intro here hmet hr
      rw [List.foldlM_cons] at hr
      obtain ⟨mid, hmid, hr⟩ := exists_of_bind_ok hr
      obtain ⟨m, hm, hmid⟩ := exists_of_bind_ok hmid
      obtain rfl := Except.ok.inj hmid
      obtain ⟨hP, hrest⟩ := hmet m hm
      obtain ⟨-, rfl⟩ | hr := ih _ hrest hr
      · exact .inr hP
      · exact .inr hr
  exact (hwalk _ _ h hr).resolve_left fun hnil => path.components_ne_nil hnil.1

theorem Meets.mono (hPQ : ∀ n, P n → Q n) {op : Op} (h : s.Meets P op) : s.Meets Q op := by
  cases op with
  | mkdir path mode => exact fun n name hn => hPQ n (h n name hn)
  | rmdir path =>
    exact fun n name hn => ⟨hPQ n (h n name hn).1, fun c hc hlt => hPQ c ((h n name hn).2 c hc hlt)⟩
  | touch name mode => exact fun n name' hn => hPQ n (h n name' hn)
  | rename oldName newName => exact fun n name' hn => hPQ n (h n name' hn)
  | link srcPath newPath =>
    exact ⟨h.1.mono hPQ, fun parent name hsep => (h.2 parent name hsep).mono hPQ⟩
  | symlink srcPath newPath => exact AllMet.mono hPQ h
  | cd name => exact fun names hnames => (h names hnames).mono hPQ
  | fwrite fd data => exact fun k hk => hPQ _ (h k hk)
  | _ => trivial

end FileSys

namespace Volume
variable (v : Volume)

def parentOf (path : Text) : Result (UInt32 × Text) := do
  let (parent, name) ← exactly (separatePath path 64)
  let n ← v.findFile v.currentDir parent
  return (n, name)

def target : Op → Result (UInt32 × Text)
  | .mkdir path _ | .rmdir path => v.parentOf path
  | .touch name _ | .rename name _ => v.parentOf (Text.dotSlash.append name)
  | .link _ newPath => do
    let (parent, name) ← exactly (separatePath newPath 64)
    let n ← v.parsePath parent v.currentDir
    return (n, name)
  | .symlink srcPath newPath => do
    let (_, name) ← exactly (separatePath (Text.dot.append srcPath) 64)
    let n ← v.parsePath newPath v.currentDir
    return (n, name)
  | _ => .error (some .noReturn)

end Volume

theorem eq_ok_of_refines {α : Type} {c : Except Fault α} {a : Result α} {x : α} (h : Refines Eq c a)
    (ha : a = .ok x) : c = .ok x := by
  subst ha
  cases h with
  | done hc hxy => rw [hc, hxy]

namespace Shows
variable {s : FileSys} {v : Volume} (h : Shows s v)
include h

theorem parentOf (path : Text) : Refines Eq (s.parentOf path) (v.parentOf path) := by
  unfold FileSys.parentOf Volume.parentOf
  refine (Refines.refl _).bind fun x _ _ _ hx => ?_
  subst hx
  obtain ⟨parent, name⟩ := x
  dsimp only
  rw [h.currentDir_eq]
  refine (h.findFile _ parent).bind fun n _ _ _ hn => ?_
  subst hn
  exact .ok rfl

theorem target (op : Op) : Refines Eq (s.target op) (v.target op) := by
  cases op with
  | mkdir path mode => exact h.parentOf path
  | rmdir path => exact h.parentOf path
  | touch name mode => exact h.parentOf _
  | rename oldName newName => exact h.parentOf _
  | link srcPath newPath =>
    refine (Refines.refl _).bind fun x _ _ _ hx => ?_
    subst hx
    rw [h.currentDir_eq]
    refine (h.parsePath _ x.1).bind fun n _ _ _ hn => ?_
    subst hn
    exact .ok rfl
  | symlink srcPath newPath =>
    refine (Refines.refl _).bind fun x _ _ _ hx => ?_
    subst hx
    rw [h.currentDir_eq]
    refine (h.parsePath _ newPath).bind fun n _ _ _ hn => ?_
    subst hn
    exact .ok rfl
  | _ => exact .error rfl

end Shows

end Ucas.Fs

import UcasOs.Fs.Well

/-! Runs of the volume that check a condition before each call. What such a run computes is computed
by a run of the file system whose calls meet the condition. -/

namespace Ucas.Fs
open Ucas.Lib Relation

/-- `p` holds of whatever a program that refines `a` returns. -/
def Result.sure {α : Type} (a : Result α) (p : α → Bool) : Bool :=
  match a with
  | .ok x => p x
  | .error (some _) => true
  | .error none => false

theorem of_sure {α : Type} {c : Except Fault α} {a : Result α} {p : α → Bool} {x : α}
    (h : Refines Eq c a) (ha : a.sure p = true) (hx : c = .ok x) : p x = true := by
  cases h with
  | done hc hxy =>
    obtain rfl := Except.ok.inj (hx.symm.trans hc)
    exact hxy ▸ ha
  | error hc =>
    rw [hc] at hx
    cases hx
  | outside => cases ha

theorem of_sure_exactly {α : Type} {c : Except Fault α} {p : α → Bool} {x : α}
    (h : Result.sure (exactly c) p = true) (hx : c = .ok x) : p x = true :=
  of_sure (.refl c) h hx

theorem eq_ok_of_toOption {α : Type} {a : Result α} {x : α} (h : a.toOption = some x) :
    a = .ok x := by
  cases a with
  | ok y => exact congrArg _ (Option.some.inj h)
  | error e => cases h

/-- The calls one after the other, with an empty environment. -/
def runOps (ops : List Op) (s : FileSys) : Except Fault FileSys := run (ops.map (Prod.mk .blank)) s

theorem runOps_singleton (op : Op) (s : FileSys) : runOps [op] s = exec .blank op s := bind_pure _

namespace Volume

def checked (c : Op → Volume → Bool) : List Op → Volume → Option Volume
  | [], v => some v
  | op :: ops, v => if c op v then (v.exec .blank op).toOption.bind (checked c ops) else none

section Conditions
variable (v : Volume) (p : UInt32 → Bool)

def allocated (n : UInt32) : Bool := decide (inodeKey n < 8192) && v.inodeBit (inodeKey n)

def allMet : List Text → Inode → Bool
  | [], _ => true
  | name :: rest, i => (v.findFile i name).sure fun n => p n && (v.load n).sure (allMet rest)

def meets : Op → Bool
  | .mkdir path _ => (v.parentOf path).sure fun x => p x.1
  | .rmdir path => (v.parentOf path).sure fun x => p x.1 && (v.load x.1).sure fun i =>
      (v.findFile i x.2).sure fun c => p c
  | .touch name _ | .rename name _ => (v.parentOf (Text.dotSlash.append name)).sure fun x => p x.1
  | .link srcPath newPath => v.allMet p srcPath.components v.currentDir &&
      Result.sure (exactly (separatePath newPath 64)) fun x =>
        v.allMet p x.1.components v.currentDir
  | .symlink _ newPath => v.allMet p newPath.components v.currentDir
  | .cd name => Result.sure (exactly (FileSys.pathSteps name name)) fun x =>
      x.all fun names => v.allMet p names v.currentDir
  | .fwrite fd _ => Result.sure (exactly (FileSys.descriptor fd)) fun k =>
      p (v.fileDescriptorTable k).fdInum
  | _ => true

def room (op : Op) : Bool :=
  (v.target op).sure fun x => (v.load x.1).sure fun i => decide i.HasRoom

def fitsTable : Op → Bool
  | .fwrite fd data => Result.sure (exactly (FileSys.descriptor fd)) fun k =>
      let d := v.fileDescriptorTable k
      decide ((d.fdWOffset.toNat + data.length) / 4096 < 12) && (v.load d.fdInum).sure fun i =>
        decide (d.fdWOffset ≠ 0 → ∀ j : Fin 12, j = (d.fdWOffset / 4096).toNat →
          i.iDirectTable j ≠ 0)
  | _ => true

def regular (op : Op) : Bool :=
  v.meets (fun n => n == notFound || v.allocated n) op && v.room op && v.fitsTable op

end Conditions

end Volume

namespace Shows
variable {s : FileSys} {v : Volume} (h : Shows s v)
include h

theorem of_sure_load {n : UInt32} {p : Inode → Bool} (hp : (v.load n).sure p = true) :
    p (s.syncFromDiskInode n) = true := by
  have hr : Refines Eq (.ok (s.syncFromDiskInode n)) (v.load n >>= .ok) := h.loading (.ok rfl)
  rw [show v.load n >>= .ok = v.load n from bind_pure _] at hr
  exact of_sure hr hp rfl

theorem of_sure_read {b : UInt32} {p : Block → Bool} (hp : (v.read b).sure p = true) :
    p (s.readBlock b) = true := by
  have hr := h.reading (R := Eq) (p := b) (g := .ok) (.ok rfl)
  rw [show v.read b >>= .ok = v.read b from bind_pure _] at hr
  exact of_sure hr hp rfl

theorem of_allocated {n : UInt32} (hn : v.allocated n = true) : s.Allocated n := by
  obtain ⟨hlt, hbit⟩ := Bool.and_eq_true_iff.mp hn
  have hlt := of_decide_eq_true hlt
  exact ⟨hlt, (h.inodeBit _ hlt).symm.trans hbit⟩

variable {P : UInt32 → Prop} {p : UInt32 → Bool} (hp : ∀ n, p n = true → P n)
include hp

theorem of_allMet {names : List Text} {i : Inode} (hmet : v.allMet p names i = true) :
    s.AllMet P names i := by
  induction names generalizing i with
  | nil => trivial
  | cons name rest ih =>
    intro n hn
    obtain ⟨hpn, hrest⟩ := Bool.and_eq_true_iff.mp (of_sure (h.findFile i name) hmet hn :)
    exact ⟨hp n hpn, ih (h.of_sure_load hrest)⟩

theorem of_meets {op : Op} (hmeets : v.meets p op = true) : s.Meets P op := by
  have hparent : ∀ path, (v.parentOf path).sure (fun x => p x.1) = true →
      ∀ n name, s.parentOf path = .ok (n, name) → P n := fun path hsure n name hn =>
    hp n (of_sure (h.parentOf path) hsure hn :)
  cases op with
  | mkdir path mode => exact hparent _ hmeets
  | touch name mode => exact hparent _ hmeets
  | rename oldName newName => exact hparent _ hmeets
  | rmdir path =>
    intro n name hn
    have hboth := of_sure (h.parentOf path) hmeets hn
    obtain ⟨hpn, hchild⟩ := Bool.and_eq_true_iff.mp hboth
    refine ⟨hp n hpn, fun c hc _ => hp c ?_⟩
    have hsure := h.of_sure_load hchild
    exact (of_sure (h.findFile _ name) hsure hc :)
  | link srcPath newPath =>
    rw [Volume.meets, ← h.currentDir_eq] at hmeets
    obtain ⟨hsrc, hnew⟩ := Bool.and_eq_true_iff.mp hmeets
    refine ⟨h.of_allMet hp hsrc, fun parent name hsep => h.of_allMet hp ?_⟩
    exact (of_sure_exactly hnew hsep :)
  | symlink srcPath newPath =>
    rw [Volume.meets, ← h.currentDir_eq] at hmeets
    exact h.of_allMet hp hmeets
  | cd name =>
    rw [Volume.meets, ← h.currentDir_eq] at hmeets
    intro names hnames
    exact h.of_allMet hp (of_sure_exactly hmeets hnames :)
  | fwrite fd data =>
    rw [Volume.meets] at hmeets
    intro k hk
    rw [h.descriptor_eq k]
    exact hp _ (of_sure_exactly hmeets hk :)
  | _ => trivial

omit hp

theorem of_regular {op : Op} (hregular : v.regular op = true) : op.Regular s := by
  obtain ⟨hboth, hfits⟩ := Bool.and_eq_true_iff.mp hregular
  obtain ⟨hmeets, hroom⟩ := Bool.and_eq_true_iff.mp hboth
  refine ⟨h.of_meets (fun n hn => ?_) hmeets, fun n name htarget => ?_, ?_⟩
  · exact (Bool.or_eq_true_iff.mp hn).imp eq_of_beq h.of_allocated
  · exact of_decide_eq_true (h.of_sure_load (of_sure (h.target op) hroom htarget :) :)
  · cases op with
    | fwrite fd data =>
      rw [Volume.fitsTable] at hfits
      intro k hk
      have hboth := of_sure_exactly hfits hk
      obtain ⟨hlt, hstart⟩ := Bool.and_eq_true_iff.mp hboth
      rw [h.descriptor_eq k]
      exact ⟨of_decide_eq_true hlt, of_decide_eq_true (h.of_sure_load hstart :)⟩
    | _ => trivial

theorem exists_exec (op : Op) {q : Volume → Bool}
    (hq : (v.exec .blank op).toOption.any q = true) :
    ∃ t v', exec .blank op s = .ok t ∧ Shows t v' ∧ q v' = true := by
  obtain ⟨v', hv', hq⟩ := (Option.any_eq_true _ _).mp hq
  obtain ⟨t, ht, hshows⟩ := (exec_refines h .blank op).exists_ok (eq_ok_of_toOption hv')
  exact ⟨t, v', ht, hshows, hq⟩

theorem exists_mkdir (path : Text) (mode : UInt16) {q : UInt32 × Volume → Bool}
    (hq : (v.mkdir .blank path mode).toOption.any q = true) :
    ∃ r t v', s.doMkdir .blank path mode = .ok (r, t) ∧ Shows t v' ∧ q (r, v') = true := by
  obtain ⟨⟨r, v'⟩, hv', hq⟩ := (Option.any_eq_true _ _).mp hq
  obtain ⟨⟨r, t⟩, ht, rfl, hshows⟩ := (h.doMkdir .blank path mode).exists_ok (eq_ok_of_toOption hv')
  exact ⟨r, t, v', ht, hshows, hq⟩

variable {C : Op → FileSys → Prop} {c : Op → Volume → Bool} {ops : List Op} {v' : Volume}
  (hc : ∀ s v op, Shows s v → c op v = true → C op s)
include hc

theorem run_checked (hreach : Reach C s) (hrun : Volume.checked c ops v = some v') :
    ∃ t, runOps ops s = .ok t ∧ Reach C t ∧ Shows t v' := by
  induction ops generalizing s v with
  | nil =>
    obtain rfl := Option.some.inj hrun
    exact ⟨s, rfl, hreach, h⟩
  | cons op ops ih =>
    rw [Volume.checked] at hrun
    split_ifs at hrun with hop
    obtain ⟨w, hw, hrun⟩ := Option.bind_eq_some_iff.mp hrun
    obtain ⟨u, hu, hshows⟩ := (exec_refines h .blank op).exists_ok (eq_ok_of_toOption hw)
    obtain ⟨e, s₀, s₁, hmkfs, hpath⟩ := hreach
    obtain ⟨t, ht, hreach', hshows'⟩ := ih hshows
      ⟨e, s₀, s₁, hmkfs, hpath.tail ⟨_, _, hc _ _ _ h hop, hu⟩⟩ hrun
    refine ⟨t, ?_, hreach', hshows'⟩
    rw [runOps, List.map_cons, run, hu]
    exact ht

end Shows

theorem exists_run_checked {C : Op → FileSys → Prop} {c : Op → Volume → Bool}
    (hc : ∀ s v op, Shows s v → c op v = true → C op s) (ops : List Op) {p : Volume → Bool}
    (h : (Volume.checked c ops (Volume.mkfs .blank .blank)).any p = true) :
    ∃ s t v, FileSys.blank.doMkfs .blank = .ok s ∧ runOps ops s = .ok t ∧
      Reach C t ∧ Shows t v ∧ p v = true := by
  obtain ⟨v, hv, hp⟩ := (Option.any_eq_true _ _).mp h
  obtain ⟨s, hs, hshows⟩ := doMkfs_shows .blank .blank
  obtain ⟨t, ht, hreach, hshows'⟩ := hshows.run_checked hc ⟨_, _, s, hs, .refl⟩ hv
  exact ⟨s, t, v, hs, ht, hreach, hshows', hp⟩

end Ucas.Fs

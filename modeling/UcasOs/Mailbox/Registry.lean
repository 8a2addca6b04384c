import UcasOs.Sched.State
import UcasOs.Libs.String
import Mathlib.Data.Fintype.Card

/-! The table `mboxs` of `mailbox.c`, in which `mbox_open` looks a name up and takes a box that
nobody has open, and `mbox_close` counts down. Beside the table we record who has opened what. -/

namespace Ucas.Mailbox
open Ucas.Lib Ucas.Sched Ucas.Libs

def mboxNameLength : Nat := 32
def maxNumBox : Nat := 32

structure MboxName where
  bytes : List UInt8
  zero_notMem : 0 ∉ bytes
  short : bytes.length < mboxNameLength
  deriving DecidableEq

structure Mbox where
  name : Buffer mboxNameLength
  count : Int
  ptr : Int
  lock : LockStatus
  send : Int
  recv : Int

abbrev Boxes := Fin maxNumBox → Mbox

def Boxes.mboxInit (boxes : Boxes) : Boxes := fun i =>
  { boxes i with name := (boxes i).name.set 0 0, count := 0, lock := .unlocked }

def Boxes.searchName (boxes : Boxes) (name : MboxName) :
    List (Fin maxNumBox) → Option (Option (Fin maxNumBox))
  | [] => some none
  | i :: is => do
    if (← strcmp (boxes i).name name.bytes 0) = 0 ∧ 0 < (boxes i).count then return some i
    else Boxes.searchName boxes name is

def takeBox (name : MboxName) (m : Mbox) : Mbox where
  lock := .unlocked
  name := m.name.putBytes 0 (name.bytes ++ [0])
  count := int (m.count + 1)
  ptr := 0
  send := 32
  recv := 0

def Boxes.mboxOpen (name : MboxName) (boxes : Boxes) : Option (Fin maxNumBox × Boxes) := do
  match ← Boxes.searchName boxes name (List.finRange maxNumBox) with
  | some i =>
    return (i, Function.update boxes i { boxes i with count := int ((boxes i).count + 1) })
  | none =>
    match (List.finRange maxNumBox).find? fun i => (boxes i).count = 0 with
    | some i => return (i, Function.update boxes i (takeBox name (boxes i)))
    | none => none

def Boxes.mboxClose (i : Fin maxNumBox) (boxes : Boxes) : Boxes :=
  Function.update boxes i { boxes i with count := int ((boxes i).count - 1) }

theorem name_mboxClose (boxes : Boxes) (i j : Fin maxNumBox) :
    (Boxes.mboxClose i boxes j).name = (boxes j).name := by
  by_cases hj : j = i
  · rw [hj, Boxes.mboxClose, Function.update_self]
  · rw [Boxes.mboxClose, Function.update_of_ne hj]

theorem count_mboxClose (boxes : Boxes) (i j : Fin maxNumBox) : (Boxes.mboxClose i boxes j).count =
    if i = j then int ((boxes i).count - 1) else (boxes j).count := by
  split_ifs with hj
  · rw [← hj, Boxes.mboxClose, Function.update_self]
  · rw [Boxes.mboxClose, Function.update_of_ne (Ne.symm hj)]

structure Registry where
  boxes : Boxes
  held : List (Fin maxNumBox × MboxName)

/-- Between the calls, `mbox_send` and `mbox_recv` leave what they like in the rest of a box. -/
inductive Call
  | open (name : MboxName)
  | close (h : Fin maxNumBox × MboxName)
  | exchange (i : Fin maxNumBox) (ptr send recv : Int)

namespace Registry
variable {r r' : Registry} {name : MboxName} {i : Fin maxNumBox} {call : Call}

def step (r : Registry) : Call → Option Registry
  | .open name => do
    let (i, boxes) ← Boxes.mboxOpen name r.boxes
    return ⟨boxes, (i, name) :: r.held⟩
  | .close h => some ⟨Boxes.mboxClose h.1 r.boxes, r.held.erase h⟩
  | .exchange i ptr send recv =>
    some { r with
      boxes := Function.update r.boxes i { r.boxes i with ptr := ptr, send := send, recv := recv } }

def users (r : Registry) (i : Fin maxNumBox) : Nat := r.held.countP fun h => h.1 = i

def Legal (r : Registry) : Call → Prop
  | .open name => (insert name (r.held.map Prod.snd).toFinset).card ≤ maxNumBox
  | .close h => h ∈ r.held
  | .exchange .. => True

def Room (r : Registry) : Call → Prop
  | .open name => (r.held.countP fun h => h.2 = name) < 2 ^ 31 - 1
  | _ => True

end Registry

def Mbox.HasName (m : Mbox) (name : MboxName) : Prop := m.name.HasText name.bytes 0

namespace Registry
variable {r r' : Registry} {name : MboxName} {i : Fin maxNumBox} {call : Call}

structure Consistent (r : Registry) : Prop where
  count : ∀ i, (r.boxes i).count = r.users i
  apart : ∀ i j name, 0 < r.users i → 0 < r.users j → (r.boxes i).HasName name →
    (r.boxes j).HasName name → i = j

structure OpensRight (r : Registry) (name : MboxName) (i : Fin maxNumBox) (r' : Registry) :
    Prop where
  held : r'.held = (i, name) :: r.held
  same : ∀ j, 0 < r.users j → (r.boxes j).HasName name → i = j
  fresh : (∀ j, 0 < r.users j → ¬ (r.boxes j).HasName name) → r.users i = 0
  named : (r'.boxes i).HasName name
  empty : (∀ j, 0 < r.users j → ¬ (r.boxes j).HasName name) →
    (r'.boxes i).send = 32 ∧ (r'.boxes i).recv = 0 ∧ (r'.boxes i).ptr = 0

def StepRight (r : Registry) (call : Call) (r' : Registry) : Prop :=
  match call with
  | .open name => ∃ i, r.OpensRight name i r'
  | _ => True

def LegalRun : Registry → List Call → Prop
  | _, [] => True
  | r, call :: calls => r.Legal call ∧ ∀ r', r.step call = some r' → LegalRun r' calls

def RoomRun : Registry → List Call → Prop
  | _, [] => True
  | r, call :: calls => r.Room call ∧ ∀ r', r.step call = some r' → RoomRun r' calls

def RightRun : Registry → List Call → Prop
  | r, [] => r.Consistent
  | r, call :: calls =>
    r.Consistent ∧ ∃ r', r.step call = some r' ∧ r.StepRight call r' ∧ RightRun r' calls

structure Inv (r : Registry) : Prop where
  count : ∀ i, (r.boxes i).count = r.users i
  bound : ∀ i, r.users i < 2 ^ 31
  name : ∀ h ∈ r.held, (r.boxes h.1).HasName h.2
  single : ∀ h ∈ r.held, ∀ h' ∈ r.held, h.2 = h'.2 → h.1 = h'.1
  nul : ∀ i, ∃ k < mboxNameLength, (r.boxes i).name.get k = 0

theorem hasName_unique {m : Mbox} {name name' : MboxName} (h : m.HasName name)
    (h' : m.HasName name') :
    name = name' := by
  have hbytes := h.unique h' name.zero_notMem name'.zero_notMem (by have := name.short; omega)
    (by have := name'.short; omega)
  cases name
  cases name'
  congr

theorem users_pos_iff : 0 < r.users i ↔ ∃ name, (i, name) ∈ r.held := by
  rw [users, List.countP_pos_iff]
  constructor
  · rintro ⟨⟨j, name⟩, hmem, hj⟩
    obtain rfl : j = i := of_decide_eq_true hj
    exact ⟨name, hmem⟩
  · rintro ⟨name, hmem⟩
    exact ⟨_, hmem, decide_eq_true rfl⟩

structure Opened (r : Registry) (name : MboxName) (i : Fin maxNumBox) (r' : Registry) : Prop where
  held : r'.held = (i, name) :: r.held
  other : ∀ j, j ≠ i → r'.boxes j = r.boxes j
  count : (r'.boxes i).count = int (r.users i + 1)
  named : (r'.boxes i).HasName name
  found : (i, name) ∈ r.held ∨ (∀ j, (j, name) ∉ r.held) ∧ r.users i = 0 ∧
    (r'.boxes i).send = 32 ∧ (r'.boxes i).recv = 0 ∧ (r'.boxes i).ptr = 0

theorem Opened.users (h : r.Opened name i r') (j : Fin maxNumBox) :
    r'.users j = r.users j + if i = j then 1 else 0 := by
  simp only [Registry.users, h.held, List.countP_cons, decide_eq_true_eq]

namespace Inv
variable (hr : r.Inv)
include hr

theorem mem_held (hpos : 0 < r.users i) (hname : (r.boxes i).HasName name) :
    (i, name) ∈ r.held := by
  obtain ⟨name', hmem⟩ := users_pos_iff.mp hpos
  rw [hasName_unique hname (hr.name _ hmem)]
  exact hmem

theorem consistent : r.Consistent where
  count := hr.count
  apart _ _ _ hi hj hni hnj := hr.single _ (hr.mem_held hi hni) _ (hr.mem_held hj hnj) rfl

theorem users_eq (h : (i, name) ∈ r.held) : r.users i = r.held.countP fun h => h.2 = name := by
  refine List.countP_congr fun h' hmem => ?_
  rw [decide_eq_true_eq, decide_eq_true_eq]
  constructor
  · intro hi
    exact hasName_unique (hr.name _ hmem) (hi ▸ hr.name _ h)
  · intro hname
    exact hr.single _ hmem _ h hname

theorem searchName_eq (name : MboxName) (is : List (Fin maxNumBox)) :
    Boxes.searchName r.boxes name is = some (is.find? fun i => (i, name) ∈ r.held) := by
  induction is with
  | nil => rfl
  | cons i is ih =>
    obtain ⟨k, hk, hzero⟩ := hr.nul i
    obtain ⟨c, hc⟩ := exists_strcmp name.zero_notMem ⟨k, Nat.zero_le _, hk, hzero⟩
    have hiff : (c = 0 ∧ 0 < (r.boxes i).count) ↔ (i, name) ∈ r.held := by
      rw [hr.count, Int.natCast_pos]
      constructor
      · rintro ⟨rfl, hpos⟩
        exact hr.mem_held hpos (strcmp_eq_zero_iff.mp hc).1
      · intro hmem
        have heq : strcmp (r.boxes i).name name.bytes 0 = some 0 :=
          strcmp_eq_zero_iff.mpr ⟨hr.name _ hmem, by have := name.short; omega⟩
        exact ⟨Option.some.inj (hc.symm.trans heq), users_pos_iff.mpr ⟨name, hmem⟩⟩
    rw [Boxes.searchName, hc, List.find?_cons]
    simp only [Option.bind_eq_bind, Option.bind_some, hiff]
    by_cases hmem : (i, name) ∈ r.held
    · rw [if_pos hmem, decide_eq_true hmem]
      rfl
    · rw [if_neg hmem, decide_eq_false hmem]
      exact ih

theorem exists_free (hlegal : r.Legal (.open name)) (hnew : ∀ i, (i, name) ∉ r.held) :
    ∃ i, r.users i = 0 := by
  by_contra hall
  push Not at hall
  have hex : ∀ i, ∃ name', (i, name') ∈ r.held :=
    fun i => users_pos_iff.mp (Nat.pos_of_ne_zero (hall i))
  choose f hf using hex
  have hinj : Function.Injective f := fun i j hij => hr.single _ (hf i) _ (hf j) hij
  have hle : (Finset.univ : Finset (Fin maxNumBox)).card ≤ (r.held.map Prod.snd).toFinset.card := by
    refine Finset.card_le_card_of_injOn f (fun i _ => ?_) hinj.injOn
    exact List.mem_toFinset.mpr (List.mem_map.mpr ⟨_, hf i, rfl⟩)
  have hnotin : name ∉ (r.held.map Prod.snd).toFinset := by
    rw [List.mem_toFinset, List.mem_map]
    rintro ⟨⟨i, name'⟩, hmem, hname⟩
    exact hnew i (hname ▸ hmem)
  rw [Finset.card_fin] at hle
  rw [Legal, Finset.card_insert_of_notMem hnotin] at hlegal
  omega

theorem exists_opened (hlegal : r.Legal (.open name)) :
    ∃ i r', r.step (.open name) = some r' ∧ r.Opened name i r' := by
  have hsearch := hr.searchName_eq name (List.finRange maxNumBox)
  cases hfind : (List.finRange maxNumBox).find? fun i => (i, name) ∈ r.held with
  | some i =>
    have hmem : (i, name) ∈ r.held := by simpa using List.find?_some hfind
    have hstep : r.step (.open name) = some ⟨Function.update r.boxes i { r.boxes i with
        count := int ((r.boxes i).count + 1) }, (i, name) :: r.held⟩ := by
      rw [step, Boxes.mboxOpen, hsearch, hfind]
      rfl
    refine ⟨i, _, hstep, rfl, fun j hj => Function.update_of_ne hj .., ?_, ?_, .inl hmem⟩
    all_goals dsimp only; rw [Function.update_self]
    · rw [hr.count]
    · exact hr.name _ hmem
  | none =>
    have hnew : ∀ j, (j, name) ∉ r.held := fun j => by
      simpa using List.find?_eq_none.mp hfind j (List.mem_finRange j)
    obtain ⟨j, hj⟩ := hr.exists_free hlegal hnew
    have hfree : ∃ i, ((List.finRange maxNumBox).find? fun i => (r.boxes i).count = 0) = some
        i := by
      rw [← Option.isSome_iff_exists, List.find?_isSome]
      exact ⟨j, List.mem_finRange j, by simp [hr.count, hj]⟩
    obtain ⟨i, hi⟩ := hfree
    have hzero : r.users i = 0 := by simpa [hr.count] using List.find?_some hi
    have hstep : r.step (.open name) =
        some ⟨Function.update r.boxes i (takeBox name (r.boxes i)), (i, name) :: r.held⟩ := by
      rw [step, Boxes.mboxOpen, hsearch, hfind]
      simp only [Option.bind_eq_bind, Option.bind_some, hi]
      rfl
    refine ⟨i, _, hstep, rfl, fun j hj => Function.update_of_ne hj .., ?_, ?_, .inr ⟨hnew, hzero,
      ?_⟩⟩
    all_goals dsimp only; rw [Function.update_self]
    · rw [takeBox, hr.count]
    · exact Buffer.hasText_putBytes _ _ _
    · exact ⟨rfl, rfl, rfl⟩

theorem users_opened (h : r.Opened name i r') : r.users i = r.held.countP fun h => h.2 = name := by
  rcases h.found with hheld | ⟨hnew, hzero, -⟩
  · exact hr.users_eq hheld
  · rw [hzero, List.countP_eq_zero.mpr]
    rintro ⟨j, name'⟩ hmem hname
    exact hnew j (of_decide_eq_true hname ▸ hmem)

theorem fst_eq_iff (h : r.Opened name i r') {x : Fin maxNumBox × MboxName} (hx : x ∈ r.held) :
    x.1 = i ↔ x.2 = name := by
  obtain ⟨j, name'⟩ := x
  rcases h.found with hheld | ⟨hnew, hzero, -⟩
  · constructor
    · rintro rfl
      exact hasName_unique (hr.name _ hx) (hr.name _ hheld)
    · exact hr.single _ hx _ hheld
  · constructor
    · rintro rfl
      exact absurd hzero (Nat.ne_of_gt (users_pos_iff.mpr ⟨name', hx⟩))
    · rintro rfl
      exact absurd hx (hnew j)

theorem opensRight (h : r.Opened name i r') : r.OpensRight name i r' := by
  have hused : (∀ j, 0 < r.users j → ¬ (r.boxes j).HasName name) → (i, name) ∉ r.held :=
      fun hfresh hheld =>
    hfresh i (users_pos_iff.mpr ⟨name, hheld⟩) (hr.name _ hheld)
  refine ⟨h.held, fun j hpos hj => ?_, fun hfresh => ?_, h.named, fun hfresh => ?_⟩
  · exact ((hr.fst_eq_iff h (hr.mem_held hpos hj)).mpr rfl).symm
  · exact (h.found.resolve_left (hused hfresh)).2.1
  · exact (h.found.resolve_left (hused hfresh)).2.2

theorem opened (h : r.Opened name i r') (hroom : r.users i < 2 ^ 31 - 1) : r'.Inv where
  count j := by
    rw [h.users]
    by_cases hj : i = j
    · rw [← hj, h.count, if_pos rfl]
      exact int_of_lt (by omega) (by omega)
    · rw [h.other j (Ne.symm hj), if_neg hj]
      exact hr.count j
  bound j := by
    rw [h.users]
    by_cases hj : i = j
    · rw [← hj, if_pos rfl]
      omega
    · rw [if_neg hj]
      exact hr.bound j
  name x hx := by
    rw [h.held] at hx
    rcases List.mem_cons.mp hx with rfl | hx
    · exact h.named
    · by_cases hi : x.1 = i
      · rw [hi, (hr.fst_eq_iff h hx).mp hi]
        exact h.named
      · rw [h.other _ hi]
        exact hr.name x hx
  single x hx y hy heq := by
    rw [h.held] at hx hy
    rcases List.mem_cons.mp hx with rfl | hx <;> rcases List.mem_cons.mp hy with rfl | hy
    · rfl
    · exact ((hr.fst_eq_iff h hy).mpr heq.symm).symm
    · exact (hr.fst_eq_iff h hx).mpr heq
    · exact hr.single x hx y hy heq
  nul j := by
    by_cases hj : j = i
    · refine ⟨name.bytes.length, name.short, ?_⟩
      have hend := h.named name.bytes.length le_rfl (by have := name.short; omega)
      rwa [Nat.zero_add, List.getD_eq_default _ _ le_rfl, ← hj] at hend
    · rw [h.other j hj]
      exact hr.nul j

theorem open_overflows (hlegal : r.Legal (.open name)) (hroom : ¬ r.Room (.open name))
    (hstep : r.step (.open name) = some r') : ¬ r'.Consistent := by
  obtain ⟨i, r'', hstep', h⟩ := hr.exists_opened hlegal
  obtain rfl := Option.some.inj (hstep'.symm.trans hstep)
  have hfull : r.users i = 2 ^ 31 - 1 := by
    have hlt := hr.bound i
    rw [Room, ← hr.users_opened h] at hroom
    omega
  intro hc
  have hwrong := hc.count i
  rw [h.users, if_pos rfl, h.count, hfull] at hwrong
  exact absurd hwrong (by decide)

theorem close_right {h : Fin maxNumBox × MboxName} (hmem : h ∈ r.held) :
    ∃ r', r.step (.close h) = some r' ∧ r'.Inv := by
  have husers : ∀ j, (r.held.erase h).countP (fun h => h.1 = j) = r.users j - if h.1 = j then 1 else
      0 := by
    intro j
    rw [List.countP_erase, users]
    simp [hmem]
  have hpos : 0 < r.users h.1 := users_pos_iff.mpr ⟨h.2, hmem⟩
  refine ⟨_, rfl, fun j => ?_, fun j => ?_, fun h' hmem' => ?_, fun h₁ hmem₁ h₂ hmem₂ => ?_,
    fun j => ?_⟩
  · rw [users, husers j, count_mboxClose]
    split_ifs with hj
    · have hlt := hr.bound h.1
      rw [hr.count, int_of_lt (by omega) (by omega), ← hj]
      omega
    · exact hr.count j
  · rw [users, husers j]
    exact (Nat.sub_le _ _).trans_lt (hr.bound j)
  · have hname := hr.name h' (List.mem_of_mem_erase hmem')
    rw [Mbox.HasName] at hname ⊢
    rwa [name_mboxClose]
  · exact hr.single h₁ (List.mem_of_mem_erase hmem₁) h₂ (List.mem_of_mem_erase hmem₂)
  · rw [name_mboxClose]
    exact hr.nul j

theorem exchange_right (i : Fin maxNumBox) (ptr send recv : Int) :
    ∃ r', r.step (.exchange i ptr send recv) = some r' ∧ r'.Inv := by
  have hbox : ∀ j, (Function.update r.boxes i
    { r.boxes i with ptr := ptr, send := send, recv := recv } j).name =
      (r.boxes j).name ∧
      (Function.update r.boxes i { r.boxes i with ptr := ptr, send := send, recv := recv } j).count
          = (r.boxes j).count := by
    intro j
    by_cases hj : j = i
    · rw [hj, Function.update_self]
      exact ⟨rfl, rfl⟩
    · rw [Function.update_of_ne hj]
      exact ⟨rfl, rfl⟩
  refine ⟨_, rfl, fun j => (hbox j).2.trans (hr.count j), hr.bound, fun h hmem => ?_, hr.single,
    fun j => ?_⟩
  · have hname := hr.name h hmem
    rw [Mbox.HasName] at hname ⊢
    rwa [(hbox h.1).1]
  · rw [(hbox j).1]
    exact hr.nul j

theorem step_right (hlegal : r.Legal call) (hroom : r.Room call) :
    ∃ r', r.step call = some r' ∧ r.StepRight call r' ∧ r'.Inv := by
  cases call with
  | «open» name =>
    obtain ⟨i, r', hstep, h⟩ := hr.exists_opened hlegal
    exact ⟨r', hstep, ⟨i, hr.opensRight h⟩, hr.opened h (hr.users_opened h ▸ hroom)⟩
  | close h =>
    obtain ⟨r', hstep, hinv⟩ := hr.close_right hlegal
    exact ⟨r', hstep, trivial, hinv⟩
  | exchange i ptr send recv =>
    obtain ⟨r', hstep, hinv⟩ := hr.exchange_right i ptr send recv
    exact ⟨r', hstep, trivial, hinv⟩

end Inv

theorem RightRun.consistent {calls : List Call} (h : r.RightRun calls) : r.Consistent := by
  cases calls with
  | nil => exact h
  | cons call calls => exact h.1

theorem Inv.rightRun_iff {calls : List Call} (hr : r.Inv) (hlegal : r.LegalRun calls) :
    r.RightRun calls ↔ r.RoomRun calls := by
  induction calls generalizing r with
  | nil => exact iff_of_true hr.consistent trivial
  | cons call calls ih =>
    by_cases hroom : r.Room call
    · obtain ⟨r', hstep, hright, hinv⟩ := hr.step_right hlegal.1 hroom
      have hrest := ih hinv (hlegal.2 r' hstep)
      constructor
      · rintro ⟨-, r'', hstep', -, hrun⟩
        obtain rfl := Option.some.inj (hstep.symm.trans hstep')
        refine ⟨hroom, fun r'' hstep'' => ?_⟩
        obtain rfl := Option.some.inj (hstep.symm.trans hstep'')
        exact hrest.mp hrun
      · rintro ⟨-, hrun⟩
        exact ⟨hr.consistent, r', hstep, hright, hrest.mpr (hrun r' hstep)⟩
    · refine iff_of_false ?_ fun h => hroom h.1
      rintro ⟨-, r', hstep, -, hrun⟩
      cases call with
      | «open» name => exact hr.open_overflows hlegal.1 hroom hstep hrun.consistent
      | close h => exact hroom trivial
      | exchange i ptr send recv => exact hroom trivial

def init (boxes : Boxes) : Registry := ⟨boxes.mboxInit, []⟩

theorem inv_init (boxes : Boxes) : (init boxes).Inv where
  count _ := rfl
  bound _ := Nat.two_pow_pos 31
  name _ h := absurd h List.not_mem_nil
  single _ h := absurd h List.not_mem_nil
  nul i := ⟨0, by decide, by
    show ((boxes i).name.set 0 0).get 0 = 0
    rw [Buffer.get_set, if_pos (by decide)]⟩

/-- From `mbox_init` on, every open and close does what it should exactly if no name is opened that
is already open as often as an `int` can count. -/
theorem registry_right_iff {boxes : Boxes} {calls : List Call}
    (hlegal : (init boxes).LegalRun calls) :
    (init boxes).RightRun calls ↔ (init boxes).RoomRun calls :=
  (inv_init boxes).rightRun_iff hlegal

section Overflow

theorem zero_notMem_letter : (0 : UInt8) ∉ [97] := by decide

def letter : MboxName := ⟨[97], zero_notMem_letter, by decide⟩

theorem legalRun_opens {n : Nat} (h : ∀ x ∈ r.held, x.2 = name) :
    r.LegalRun (List.replicate n (.open name)) := by
  induction n generalizing r with
  | zero => trivial
  | succ n ih =>
    refine ⟨?_, fun r' hstep => ih ?_⟩
    · have hsub : insert name (r.held.map Prod.snd).toFinset ⊆ {name} := by
        intro x hx
        rcases Finset.mem_insert.mp hx with rfl | hx
        · exact Finset.mem_singleton_self _
        · obtain ⟨y, hy, rfl⟩ := List.mem_map.mp (List.mem_toFinset.mp hx)
          exact Finset.mem_singleton.mpr (h y hy)
      exact (Finset.card_le_card hsub).trans (by rw [Finset.card_singleton]; decide)
    · obtain ⟨⟨i, boxes⟩, -, hr'⟩ := Option.bind_eq_some_iff.mp hstep
      obtain rfl := Option.some.inj hr'
      intro x hx
      rcases List.mem_cons.mp hx with rfl | hx
      · rfl
      · exact h x hx

theorem Inv.room_opens {n : Nat} (hr : r.Inv) (hlegal : r.LegalRun (List.replicate n (.open name)))
    (hroom : r.RoomRun (List.replicate n (.open name))) (hn : n ≠ 0) :
    (r.held.countP fun x => x.2 = name) + n ≤ 2 ^ 31 - 1 := by
  induction n generalizing r with
  | zero => exact absurd rfl hn
  | succ n ih =>
    obtain ⟨i, r', hstep, h⟩ := hr.exists_opened hlegal.1
    have hlt : (r.held.countP fun x => x.2 = name) < 2 ^ 31 - 1 := hroom.1
    by_cases hn : n = 0
    · omega
    · have hmore := ih (hr.opened h (hr.users_opened h ▸ hlt)) (hlegal.2 r' hstep)
        (hroom.2 r' hstep) hn
      rw [h.held, List.countP_cons_of_pos (by simp)] at hmore
      omega

instance (r : Registry) : (call : Call) → Decidable (r.Legal call ∧ r.Room call)
  | .open _ => inferInstanceAs (Decidable (_ ≤ _ ∧ _ < _))
  | .close _ => inferInstanceAs (Decidable (_ ∈ _ ∧ True))
  | .exchange .. => inferInstanceAs (Decidable (True ∧ True))

def allows (r : Registry) : List Call → Bool
  | [] => true
  | call :: calls => decide (r.Legal call ∧ r.Room call) && (r.step call).all fun r' =>
    r'.allows calls

theorem runs_of_allows {calls : List Call} (h : r.allows calls = true) :
    r.LegalRun calls ∧ r.RoomRun calls := by
  induction calls generalizing r with
  | nil => exact ⟨trivial, trivial⟩
  | cons call calls ih =>
    obtain ⟨hcall, hrest⟩ := Bool.and_eq_true_iff.mp h
    obtain ⟨hlegal, hroom⟩ := of_decide_eq_true hcall
    have hnext : ∀ r', r.step call = some r' → r'.LegalRun calls ∧ r'.RoomRun calls := by
      intro r' hstep
      rw [hstep] at hrest
      exact ih hrest
    exact ⟨⟨hlegal, fun r' hstep => (hnext r' hstep).1⟩, hroom, fun r' hstep => (hnext r' hstep).2⟩

theorem zero_notMem_letters : (0 : UInt8) ∉ [97, 98] := by decide

def letters : MboxName := ⟨[97, 98], zero_notMem_letters, by decide⟩

def firstBox : Fin maxNumBox := ⟨0, by decide⟩

def secondBox : Fin maxNumBox := ⟨1, by decide⟩

def reuse : List Call := [.open letter, .open letters, .open letter, .exchange firstBox 1 31 1,
  .close (firstBox, letter), .close (firstBox, letter), .open letters,
  .close (secondBox, letters), .close (secondBox, letters), .open letters]

theorem registry_right_reused : ∃ boxes : Boxes, (init boxes).LegalRun reuse ∧
    (init boxes).RightRun reuse ∧
    (reuse.foldlM step (init boxes)).map held = some [(firstBox, letters)] := by
  let boxes : Boxes := fun _ => ⟨.zero, 0, 0, .unlocked, 0, 0⟩
  obtain ⟨hlegal, hroom⟩ := runs_of_allows (show (init boxes).allows reuse = true by decide +kernel)
  exact ⟨boxes, hlegal, (registry_right_iff hlegal).mpr hroom, by decide +kernel⟩

theorem registry_overflows :
    ∃ boxes : Boxes, (init boxes).LegalRun (List.replicate (2 ^ 31) (.open letter)) ∧
    ¬ (init boxes).RightRun (List.replicate (2 ^ 31) (.open letter)) := by
  let boxes : Boxes := fun _ => ⟨.zero, 0, 0, .unlocked, 0, 0⟩
  have hlegal : (init boxes).LegalRun (List.replicate (2 ^ 31) (.open letter)) :=
    legalRun_opens fun _ h => absurd h List.not_mem_nil
  refine ⟨boxes, hlegal, fun hright => ?_⟩
  have hle := (inv_init boxes).room_opens hlegal (((inv_init boxes).rightRun_iff hlegal).mp hright)
    (by decide)
  omega

end Overflow

end Registry

end Ucas.Mailbox

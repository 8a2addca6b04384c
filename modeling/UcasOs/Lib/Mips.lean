import Mathlib.Data.BitVec

/-! The part of a MIPS32 processor that saves and restores registers: loads, stores and moves to and
from coprocessor 0. Memory is read and written in words, and an access to an address that is no
multiple of four traps, as does an addition that overflows. -/

namespace Ucas.Lib.Mips

abbrev Word := BitVec 32

inductive Reg
  | zero | AT | v0 | v1 | a0 | a1 | a2 | a3
  | t0 | t1 | t2 | t3 | t4 | t5 | t6 | t7
  | s0 | s1 | s2 | s3 | s4 | s5 | s6 | s7
  | t8 | t9 | k0 | k1 | gp | sp | fp | ra
  deriving DecidableEq, Repr

inductive Cp0
  | status | tagHi | tagLo | badVAddr | cause | epc
  deriving DecidableEq, Repr

inductive Instr
  | lw (rt : Reg) (offset : Word) (base : Reg)
  /-- `lw rt, symbol`, with the address of the symbol. -/
  | lwSymbol (rt : Reg) (address : Word)
  | sw (rt : Reg) (offset : Word) (base : Reg)
  | addi (rt rs : Reg) (imm : Word)
  | mfc0 (rt : Reg) (c : Cp0)
  | mtc0 (rt : Reg) (c : Cp0)
  | nop
  deriving DecidableEq, Repr

structure Machine where
  gpr : Reg → Word
  hi : Word
  lo : Word
  cp0 : Cp0 → Word
  mem : Word → Word

namespace Machine

def read (m : Machine) (r : Reg) : Word := if r = .zero then 0 else m.gpr r

def write (m : Machine) (r : Reg) (v : Word) : Machine :=
  if r = .zero then m else { m with gpr := Function.update m.gpr r v }

def load (m : Machine) (a : Word) : Option Word := if a.toNat % 4 = 0 then some (m.mem a) else none

def store (m : Machine) (a v : Word) : Option Machine :=
  if a.toNat % 4 = 0 then some { m with mem := Function.update m.mem a v } else none

def exec (i : Instr) (m : Machine) : Option Machine :=
  match i with
  | .lw rt offset base => do return m.write rt (← m.load (m.read base + offset))
  | .lwSymbol rt address => do return m.write rt (← m.load address)
  | .sw rt offset base => m.store (m.read base + offset) (m.read rt)
  | .addi rt rs imm =>
    if (m.read rs).saddOverflow imm then none else some (m.write rt (m.read rs + imm))
  | .mfc0 rt c => some (m.write rt (m.cp0 c))
  | .mtc0 rt c => some { m with cp0 := Function.update m.cp0 c (m.read rt) }
  | .nop => some m

def run (l : List Instr) (m : Machine) : Option Machine := l.foldlM (fun m i => m.exec i) m

variable {m m' : Machine} {r s : Reg} {v a : Word}

@[simp] theorem write_mem : (m.write r v).mem = m.mem := by
  unfold write
  split <;> rfl

@[simp] theorem write_hi : (m.write r v).hi = m.hi := by
  unfold write
  split <;> rfl

@[simp] theorem write_lo : (m.write r v).lo = m.lo := by
  unfold write
  split <;> rfl

@[simp] theorem write_cp0 : (m.write r v).cp0 = m.cp0 := by
  unfold write
  split <;> rfl

theorem read_write_self (hr : r ≠ .zero) : (m.write r v).read r = v := by
  simp [read, write, hr]

theorem read_write_of_ne (h : s ≠ r) : (m.write r v).read s = m.read s := by
  unfold read write
  split
  · rfl
  · split
    · rfl
    · simp [h]

@[simp] theorem read_mem_update {f : Word → Word} :
    ({ m with mem := f } : Machine).read r = m.read r :=
  rfl

@[simp] theorem read_cp0_update {f : Cp0 → Word} :
    ({ m with cp0 := f } : Machine).read r = m.read r :=
  rfl

theorem load_of_aligned (h : a.toNat % 4 = 0) : m.load a = some (m.mem a) := if_pos h

theorem store_of_aligned (h : a.toNat % 4 = 0) :
    m.store a v = some { m with mem := Function.update m.mem a v } := if_pos h

@[simp] theorem run_nil : m.run [] = some m := rfl

@[simp] theorem run_cons (i : Instr) (l : List Instr) :
    m.run (i :: l) = m.exec i >>= fun m => m.run l :=
  rfl

theorem run_append (l l' : List Instr) : m.run (l ++ l') = m.run l >>= fun m => m.run l' :=
  List.foldlM_append

end Machine

inductive Slot
  | gpr (r : Reg)
  | cp0 (c : Cp0)
  deriving DecidableEq, Repr

def Machine.value (m : Machine) : Slot → Word
  | .gpr r => m.read r
  | .cp0 c => m.cp0 c

def Slot.save (base scratch : Reg) (x : Slot × Word) : List Instr :=
  match x.1 with
  | .gpr r => [.sw r x.2 base]
  | .cp0 c => [.mfc0 scratch c, .nop, .sw scratch x.2 base]

def Slot.restore (base scratch : Reg) (x : Slot × Word) : List Instr :=
  match x.1 with
  | .gpr r => [.lw r x.2 base]
  | .cp0 c => [.lw scratch x.2 base, .mtc0 scratch c, .nop]

section Table
variable {m : Machine} {b k : Reg} {T : List (Slot × Word)}

structure Saved (b k : Reg) (T : List (Slot × Word)) (m m' : Machine) : Prop where
  read : ∀ r, r ≠ k → m'.read r = m.read r
  hi : m'.hi = m.hi
  lo : m'.lo = m.lo
  cp0 : m'.cp0 = m.cp0
  other : ∀ a, (∀ x ∈ T, a ≠ m.read b + x.2) → m'.mem a = m.mem a
  word : ∀ x ∈ T, m'.mem (m.read b + x.2) = m.value x.1

structure Restored (b k : Reg) (T : List (Slot × Word)) (m m' : Machine) : Prop where
  hi : m'.hi = m.hi
  lo : m'.lo = m.lo
  mem : m'.mem = m.mem
  other : ∀ y, (∀ x ∈ T, x.1 ≠ y) → y ≠ .gpr k → m'.value y = m.value y
  slot : ∀ x ∈ T, x.1 ≠ .gpr .zero → m'.value x.1 = m.mem (m.read b + x.2)

theorem value_of_saved {m' : Machine} {y : Slot} (hread : ∀ r, r ≠ k → m'.read r = m.read r)
    (hcp0 : m'.cp0 = m.cp0) (hy : y ≠ .gpr k) : m'.value y = m.value y := by
  cases y with
  | gpr r => exact hread r fun hr => hy (by rw [hr])
  | cp0 c => exact congrFun hcp0 c

theorem run_save_slot (x : Slot × Word) (hb : b ≠ k) (hk : k ≠ .zero)
    (ha : (m.read b + x.2).toNat % 4 = 0) :
    ∃ m', m.run (Slot.save b k x) = some m' ∧ Saved b k [x] m m' := by
  obtain ⟨y, o⟩ := x
  cases y with
  | gpr r =>
    refine ⟨{ m with mem := Function.update m.mem (m.read b + o) (m.read r) }, ?_, ?_⟩
    · simp only [Slot.save, Machine.run_cons, Machine.exec, Machine.store_of_aligned ha]
      rfl
    · constructor <;> simp +contextual [Machine.value]
  | cp0 c =>
    have hbase : (m.write k (m.cp0 c)).read b = m.read b := Machine.read_write_of_ne hb
    refine ⟨{ m.write k (m.cp0 c) with mem := Function.update m.mem (m.read b + o) (m.cp0 c) }, ?_,
      ?_⟩
    · simp only [Slot.save, Machine.run_cons, Machine.exec, Option.bind_eq_bind, Option.bind_some,
        Machine.run_nil, Machine.read_write_self hk, hbase, Machine.store_of_aligned ha,
          Machine.write_mem]
    · constructor
      case read => exact fun r hr => Machine.read_write_of_ne hr
      all_goals simp +contextual [Machine.value]

theorem Saved.cons {m₁ m₂ : Machine} {x : Slot × Word} (h₁ : Saved b k [x] m m₁)
    (h₂ : Saved b k T m₁ m₂)
    (hb : b ≠ k) (hT : ∀ y ∈ T, y.1 ≠ .gpr k) (hx : x.2 ∉ T.map Prod.snd) :
    Saved b k (x :: T) m m₂ := by
  have hbase : m₁.read b = m.read b := h₁.read b hb
  constructor
  · exact fun r hr => (h₂.read r hr).trans (h₁.read r hr)
  · exact h₂.hi.trans h₁.hi
  · exact h₂.lo.trans h₁.lo
  · exact h₂.cp0.trans h₁.cp0
  · intro a ha
    rw [h₂.other a fun y hy => hbase ▸ ha y (List.mem_cons_of_mem _ hy),
      h₁.other a fun y hy => ha y (List.mem_singleton.mp hy ▸ List.mem_cons_self)]
  · intro y hy
    rcases List.mem_cons.mp hy with rfl | hy
    · -- the later stores go to other words
      rw [h₂.other, h₁.word y (List.mem_singleton_self y)]
      intro z hz heq
      rw [hbase] at heq
      exact hx (List.mem_map.mpr ⟨z, hz, (add_left_cancel heq).symm⟩)
    · rw [← hbase, h₂.word y hy, value_of_saved h₁.read h₁.cp0 (hT y hy)]

theorem run_save (T : List (Slot × Word)) (hb : b ≠ k) (hk : k ≠ .zero) (hT : ∀ x ∈ T, x.1 ≠ .gpr k)
    (hnodup : (T.map Prod.snd).Nodup) (ha : ∀ x ∈ T, (m.read b + x.2).toNat % 4 = 0) :
    ∃ m', m.run (T.flatMap (Slot.save b k)) = some m' ∧ Saved b k T m m' := by
  induction T generalizing m with
  | nil => exact ⟨m, rfl, fun _ _ => rfl, rfl, rfl, rfl, fun _ _ => rfl, by simp⟩
  | cons x T ih =>
    rw [List.map_cons, List.nodup_cons] at hnodup
    have hT' : ∀ y ∈ T, y.1 ≠ .gpr k := fun y hy => hT y (List.mem_cons_of_mem _ hy)
    obtain ⟨m₁, hrun₁, h₁⟩ := run_save_slot x hb hk (ha x List.mem_cons_self)
    obtain ⟨m₂, hrun₂, h₂⟩ := ih (m := m₁) hT' hnodup.2 fun y hy => by
      rw [h₁.read b hb]
      exact ha y (List.mem_cons_of_mem _ hy)
    refine ⟨m₂, ?_, h₁.cons h₂ hb hT' hnodup.1⟩
    rw [List.flatMap_cons, Machine.run_append, hrun₁]
    exact hrun₂

theorem value_write_of_ne {y : Slot} {r : Reg} {v : Word} (hy : y ≠ .gpr r) :
    (m.write r v).value y = m.value y := by
  cases y with
  | gpr s => exact Machine.read_write_of_ne fun hs => hy (by rw [hs])
  | cp0 c => exact congrFun Machine.write_cp0 c

theorem run_restore_slot (x : Slot × Word) (hk : k ≠ .zero)
    (ha : (m.read b + x.2).toNat % 4 = 0) :
    ∃ m', m.run (Slot.restore b k x) = some m' ∧ Restored b k [x] m m' := by
  obtain ⟨y, o⟩ := x
  cases y with
  | gpr r =>
    refine ⟨m.write r (m.mem (m.read b + o)), ?_, ?_⟩
    · simp only [Slot.restore, Machine.run_cons, Machine.exec, Machine.load_of_aligned ha]
      rfl
    · refine ⟨Machine.write_hi, Machine.write_lo, Machine.write_mem, fun y hy _ => ?_,
        fun x hx hz => ?_⟩
      · exact value_write_of_ne fun h => hy _ (List.mem_singleton_self _) h.symm
      · cases List.mem_singleton.mp hx
        exact Machine.read_write_self fun hr => hz (by rw [hr])
  | cp0 c =>
    let w := m.mem (m.read b + o)
    refine ⟨{ m.write k w with cp0 := Function.update m.cp0 c w }, ?_, ?_⟩
    · simp only [Slot.restore, Machine.run_cons, Machine.exec, Machine.load_of_aligned ha]
      simp [Machine.read_write_self hk, w]
    · refine ⟨Machine.write_hi, Machine.write_lo, Machine.write_mem, fun y hy hyk => ?_,
        fun x hx _ => ?_⟩
      · cases y with
        | gpr r => exact Machine.read_write_of_ne fun hr => hyk (by rw [hr])
        | cp0 d =>
          have hd : d ≠ c := fun hd => hy _ (List.mem_singleton_self _) (by rw [hd])
          exact Function.update_of_ne hd _ _
      · cases List.mem_singleton.mp hx
        exact Function.update_self _ _ _

theorem Restored.cons {m₁ m₂ : Machine} {x : Slot × Word} (h₁ : Restored b k [x] m m₁)
    (h₂ : Restored b k T m₁ m₂) (hb : b ≠ k) (hxk : x.1 ≠ .gpr k) (hxb : x.1 ≠ .gpr b)
    (hx : x.1 ∉ T.map Prod.fst) : Restored b k (x :: T) m m₂ := by
  have hbase : m₁.read b = m.read b :=
    h₁.other (.gpr b) (fun y hy => List.mem_singleton.mp hy ▸ hxb) fun h => hb (Slot.gpr.inj h)
  constructor
  · exact h₂.hi.trans h₁.hi
  · exact h₂.lo.trans h₁.lo
  · exact h₂.mem.trans h₁.mem
  · intro y hy hyk
    rw [h₂.other y (fun z hz => hy z (List.mem_cons_of_mem _ hz)) hyk]
    exact h₁.other y (fun z hz => hy z (List.mem_singleton.mp hz ▸ List.mem_cons_self)) hyk
  · intro y hy hyz
    rcases List.mem_cons.mp hy with rfl | hy
    · rw [h₂.other y.1 (fun z hz h => hx (List.mem_map.mpr ⟨z, hz, h⟩)) hxk]
      exact h₁.slot y (List.mem_singleton_self y) hyz
    · rw [h₂.slot y hy hyz, hbase, h₁.mem]

theorem run_restore (T : List (Slot × Word)) (hb : b ≠ k) (hk : k ≠ .zero)
    (hTk : ∀ x ∈ T, x.1 ≠ .gpr k) (hTb : ∀ x ∈ T, x.1 ≠ .gpr b) (hnodup : (T.map Prod.fst).Nodup)
    (ha : ∀ x ∈ T, (m.read b + x.2).toNat % 4 = 0) :
    ∃ m', m.run (T.flatMap (Slot.restore b k)) = some m' ∧ Restored b k T m m' := by
  induction T generalizing m with
  | nil => exact ⟨m, rfl, rfl, rfl, rfl, fun _ _ _ => rfl, by simp⟩
  | cons x T ih =>
    rw [List.map_cons, List.nodup_cons] at hnodup
    obtain ⟨m₁, hrun₁, h₁⟩ := run_restore_slot x hk (ha x List.mem_cons_self)
    have hbase : m₁.read b = m.read b :=
      h₁.other (.gpr b) (fun y hy => List.mem_singleton.mp hy ▸ hTb x List.mem_cons_self)
        fun h => hb (Slot.gpr.inj h)
    obtain ⟨m₂, hrun₂, h₂⟩ := ih (m := m₁) (fun y hy => hTk y (List.mem_cons_of_mem _ hy))
      (fun y hy => hTb y (List.mem_cons_of_mem _ hy)) hnodup.2 fun y hy => by
        rw [hbase]
        exact ha y (List.mem_cons_of_mem _ hy)
    refine ⟨m₂, ?_, h₁.cons h₂ hb (hTk x List.mem_cons_self) (hTb x List.mem_cons_self) hnodup.1⟩
    rw [List.flatMap_cons, Machine.run_append, hrun₁]
    exact hrun₂

end Table

end Ucas.Lib.Mips

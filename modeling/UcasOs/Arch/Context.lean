import UcasOs.Lib.Mips

/-! The macros of `entry.S` that save the registers of an interrupted program in its process control
block and load them again. The words `hi` and `lo` of a saved context hold `CP0_TAGHI` and
`CP0_TAGLO`: neither macro touches the multiplier registers. -/

namespace Ucas.Arch
open Ucas.Lib.Mips

def kernel : Word := 0

def user : Word := 156

section Macros

-- the address of the variable `current_running`
variable (currentRunning : Word)

def saveContext (offset : Word) : List Instr := [
  .lwSymbol .k0 currentRunning, .addi .k0 .k0 offset,
  .sw .zero 0 .k0, .sw .AT 4 .k0, .sw .v0 8 .k0, .sw .v1 12 .k0,
  .sw .a0 16 .k0, .sw .a1 20 .k0, .sw .a2 24 .k0, .sw .a3 28 .k0,
  .sw .t0 32 .k0, .sw .t1 36 .k0, .sw .t2 40 .k0, .sw .t3 44 .k0,
  .sw .t4 48 .k0, .sw .t5 52 .k0, .sw .t6 56 .k0, .sw .t7 60 .k0,
  .sw .t8 64 .k0, .sw .t9 68 .k0,
  .sw .s0 72 .k0, .sw .s1 76 .k0, .sw .s2 80 .k0, .sw .s3 84 .k0,
  .sw .s4 88 .k0, .sw .s5 92 .k0, .sw .s6 96 .k0, .sw .s7 100 .k0,
  .sw .gp 112 .k0, .sw .sp 116 .k0, .sw .fp 120 .k0, .sw .ra 124 .k0,
  .mfc0 .k1 .status, .nop, .sw .k1 128 .k0,
  .mfc0 .k1 .tagHi, .nop, .sw .k1 132 .k0,
  .mfc0 .k1 .tagLo, .nop, .sw .k1 136 .k0,
  .mfc0 .k1 .badVAddr, .nop, .sw .k1 140 .k0,
  .mfc0 .k1 .cause, .nop, .sw .k1 144 .k0,
  .mfc0 .k1 .epc, .nop, .sw .k1 148 .k0]

def restoreContext (offset : Word) : List Instr := [
  .lwSymbol .k0 currentRunning, .addi .k0 .k0 offset,
  .lw .zero 0 .k0, .lw .AT 4 .k0, .lw .v0 8 .k0, .lw .v1 12 .k0,
  .lw .a0 16 .k0, .lw .a1 20 .k0, .lw .a2 24 .k0, .lw .a3 28 .k0,
  .lw .t0 32 .k0, .lw .t1 36 .k0, .lw .t2 40 .k0, .lw .t3 44 .k0,
  .lw .t4 48 .k0, .lw .t5 52 .k0, .lw .t6 56 .k0, .lw .t7 60 .k0,
  .lw .t8 64 .k0, .lw .t9 68 .k0,
  .lw .s0 72 .k0, .lw .s1 76 .k0, .lw .s2 80 .k0, .lw .s3 84 .k0,
  .lw .s4 88 .k0, .lw .s5 92 .k0, .lw .s6 96 .k0, .lw .s7 100 .k0,
  .lw .gp 112 .k0, .lw .sp 116 .k0, .lw .fp 120 .k0, .lw .ra 124 .k0,
  .lw .k1 128 .k0, .mtc0 .k1 .status, .nop,
  .lw .k1 132 .k0, .mtc0 .k1 .tagHi, .nop,
  .lw .k1 136 .k0, .mtc0 .k1 .tagLo, .nop,
  .lw .k1 140 .k0, .mtc0 .k1 .badVAddr, .nop,
  .lw .k1 144 .k0, .mtc0 .k1 .cause, .nop,
  .lw .k1 148 .k0, .mtc0 .k1 .epc, .nop]

end Macros

def regsContext : List (Slot × Word) := [
  (.gpr .zero, 0), (.gpr .AT, 4), (.gpr .v0, 8), (.gpr .v1, 12),
  (.gpr .a0, 16), (.gpr .a1, 20), (.gpr .a2, 24), (.gpr .a3, 28),
  (.gpr .t0, 32), (.gpr .t1, 36), (.gpr .t2, 40), (.gpr .t3, 44),
  (.gpr .t4, 48), (.gpr .t5, 52), (.gpr .t6, 56), (.gpr .t7, 60),
  (.gpr .t8, 64), (.gpr .t9, 68),
  (.gpr .s0, 72), (.gpr .s1, 76), (.gpr .s2, 80), (.gpr .s3, 84),
  (.gpr .s4, 88), (.gpr .s5, 92), (.gpr .s6, 96), (.gpr .s7, 100),
  (.gpr .gp, 112), (.gpr .sp, 116), (.gpr .fp, 120), (.gpr .ra, 124),
  (.cp0 .status, 128), (.cp0 .tagHi, 132), (.cp0 .tagLo, 136),
  (.cp0 .badVAddr, 140), (.cp0 .cause, 144), (.cp0 .epc, 148)]

section Layout

variable {cr offset pcb : Word} {m m' : Machine}

theorem saveContext_eq (cr offset : Word) : saveContext cr offset =
    [.lwSymbol .k0 cr, .addi .k0 .k0 offset] ++ regsContext.flatMap (Slot.save .k0 .k1) := rfl

theorem restoreContext_eq (cr offset : Word) : restoreContext cr offset =
    [.lwSymbol .k0 cr, .addi .k0 .k0 offset] ++ regsContext.flatMap (Slot.restore .k0 .k1) := rfl

theorem regsContext_slots : (regsContext.map Prod.fst).Nodup := by decide

theorem regsContext_offsets : (regsContext.map Prod.snd).Nodup := by decide

theorem regsContext_notMem : ∀ x ∈ regsContext, x.1 ≠ .gpr .k0 ∧ x.1 ≠ .gpr .k1 := by decide

theorem regsContext_aligned : ∀ x ∈ regsContext, x.2.toNat % 4 = 0 := by decide

theorem gpr_mem_regsContext (r : Reg) (h0 : r ≠ .k0) (h1 : r ≠ .k1) :
    ∃ o, (.gpr r, o) ∈ regsContext := by
  have h : .gpr r ∈ regsContext.map Prod.fst := by
    cases r <;> first | decide | contradiction
  obtain ⟨⟨_, o⟩, hmem, rfl⟩ := List.mem_map.mp h
  exact ⟨o, hmem⟩

end Layout

variable {cr offset pcb : Word} {m m₁ m₂ : Machine}

structure Running (cr offset pcb : Word) (m : Machine) : Prop where
  running : m.mem cr = pcb
  symbol : cr.toNat % 4 = 0
  context : (pcb + offset).toNat % 4 = 0
  noOverflow : pcb.saddOverflow offset = false

/-- Whatever happened between `m₁` and `m₂`, the process is the running one again and its saved
context has not been written to. -/
structure KeepsContext (cr offset pcb : Word) (m₁ m₂ : Machine) : Prop where
  running : m₂.mem cr = pcb
  words : ∀ x ∈ regsContext, m₂.mem (pcb + offset + x.2) = m₁.mem (pcb + offset + x.2)

structure SameProgram (m m' : Machine) : Prop where
  gpr : ∀ r, r ≠ .k0 → r ≠ .k1 → m'.read r = m.read r
  hi : m'.hi = m.hi
  lo : m'.lo = m.lo
  epc : m'.cp0 .epc = m.cp0 .epc

theorem Running.run_pointer (h : Running cr offset pcb m) :
    m.run [.lwSymbol .k0 cr, .addi .k0 .k0 offset] = some ((m.write .k0 pcb).write .k0
    (pcb + offset)) := by
  have hread : (m.write .k0 pcb).read .k0 = pcb := Machine.read_write_self (by decide)
  simp [Machine.exec, Machine.load_of_aligned h.symbol, h.running, hread, h.noOverflow]

theorem Running.context_aligned (h : Running cr offset pcb m) (x : Slot × Word)
    (hx : x ∈ regsContext) :
    (pcb + offset + x.2).toNat % 4 = 0 := by
  have hcontext := h.context
  have hword := regsContext_aligned x hx
  rw [BitVec.toNat_add]
  omega

theorem value_pointer (m : Machine) (v w : Word) (y : Slot) (hy : y ≠ .gpr .k0) :
    ((m.write .k0 v).write .k0 w).value y = m.value y := by
  rw [value_write_of_ne hy, value_write_of_ne hy]

theorem Running.save (h : Running cr offset pcb m) :
    ∃ m₁, m.run (saveContext cr offset) = some m₁ ∧ m₁.hi = m.hi ∧ m₁.lo = m.lo ∧
      (∀ a, (∀ x ∈ regsContext, a ≠ pcb + offset + x.2) → m₁.mem a = m.mem a) ∧
      ∀ x ∈ regsContext, m₁.mem (pcb + offset + x.2) = m.value x.1 := by
  have hbase : ((m.write .k0 pcb).write .k0 (pcb + offset)).read .k0 = pcb + offset :=
    Machine.read_write_self (by decide)
  obtain ⟨m₁, hrun, hsaved⟩ := run_save (b := .k0) (k := .k1) regsContext (by decide) (by decide)
    (fun x hx => (regsContext_notMem x hx).2) regsContext_offsets
    (fun x hx => hbase.symm ▸ h.context_aligned x hx)
  refine ⟨m₁, ?_, ?_, ?_, fun a ha => ?_, fun x hx => ?_⟩
  · rw [saveContext_eq, Machine.run_append, h.run_pointer]
    exact hrun
  · rw [hsaved.hi, Machine.write_hi, Machine.write_hi]
  · rw [hsaved.lo, Machine.write_lo, Machine.write_lo]
  · rw [hsaved.other a fun x hx => hbase.symm ▸ ha x hx, Machine.write_mem, Machine.write_mem]
  · rw [← value_pointer m pcb (pcb + offset) x.1 (regsContext_notMem x hx).1, ← hsaved.word x hx,
      hbase]

theorem Running.restore (h : Running cr offset pcb m) :
    ∃ m', m.run (restoreContext cr offset) = some m' ∧ m'.hi = m.hi ∧ m'.lo = m.lo ∧
      ∀ x ∈ regsContext, x.1 ≠ .gpr .zero → m'.value x.1 = m.mem (pcb + offset + x.2) := by
  have hbase : ((m.write .k0 pcb).write .k0 (pcb + offset)).read .k0 = pcb + offset :=
    Machine.read_write_self (by decide)
  obtain ⟨m', hrun, hres⟩ := run_restore (b := .k0) (k := .k1) regsContext (by decide) (by decide)
    (fun x hx => (regsContext_notMem x hx).2) (fun x hx => (regsContext_notMem x hx).1)
      regsContext_slots
    (fun x hx => hbase.symm ▸ h.context_aligned x hx)
  refine ⟨m', ?_, ?_, ?_, fun x hx hz => ?_⟩
  · rw [restoreContext_eq, Machine.run_append, h.run_pointer]
    exact hrun
  · rw [hres.hi, Machine.write_hi, Machine.write_hi]
  · rw [hres.lo, Machine.write_lo, Machine.write_lo]
  · rw [hres.slot x hx hz, hbase, Machine.write_mem, Machine.write_mem]

theorem Running.restore_saved (h : Running cr offset pcb m)
    (hword : ∀ x ∈ regsContext, m₁.mem (pcb + offset + x.2) = m.value x.1)
    (hkeeps : KeepsContext cr offset pcb m₁ m₂) :
    ∃ m₃, m₂.run (restoreContext cr offset) = some m₃ ∧ m₃.hi = m₂.hi ∧ m₃.lo = m₂.lo ∧
      (∀ r, r ≠ .k0 → r ≠ .k1 → m₃.read r = m.read r) ∧ m₃.cp0 .epc = m.cp0 .epc := by
  have h₂ : Running cr offset pcb m₂ := { h with running := hkeeps.running }
  obtain ⟨m₃, hrun, hhi, hlo, hslot⟩ := h₂.restore
  have hvalue : ∀ x ∈ regsContext, x.1 ≠ .gpr .zero → m₃.value x.1 = m.value x.1 := by
    intro x hx hz
    rw [hslot x hx hz, hkeeps.words x hx, hword x hx]
  refine ⟨m₃, hrun, hhi, hlo, fun r h0 h1 => ?_, hvalue (.cp0 .epc, 148) (by decide) (by decide)⟩
  by_cases hr : r = .zero
  · subst hr
    rfl
  · obtain ⟨o, hmem⟩ := gpr_mem_regsContext r h0 h1
    exact hvalue _ hmem fun hz => hr (Slot.gpr.inj hz)

/-- `SAVE_CONTEXT(USER)` and a later `RESTORE_CONTEXT(USER)` of the same process bring back all that
the program can see exactly if the multiplier registers happen to hold, before the second macro,
what they held before the first. -/
theorem context_preserved_iff (h : Running cr user pcb m) :
    ∃ m₁, m.run (saveContext cr user) = some m₁ ∧
      ∀ m₂, KeepsContext cr user pcb m₁ m₂ →
        ∃ m₃, m₂.run (restoreContext cr user) = some m₃ ∧
          (SameProgram m m₃ ↔ m₂.hi = m.hi ∧ m₂.lo = m.lo) := by
  obtain ⟨m₁, hrun, -, -, -, hword⟩ := h.save
  refine ⟨m₁, hrun, fun m₂ hkeeps => ?_⟩
  obtain ⟨m₃, hrun', hhi, hlo, hgpr, hepc⟩ := h.restore_saved hword hkeeps
  refine ⟨m₃, hrun', fun hsame => ⟨?_, ?_⟩, fun ⟨h1, h2⟩ => ⟨hgpr, hhi.trans h1, hlo.trans h2,
    hepc⟩⟩
  · rw [← hhi, hsame.hi]
  · rw [← hlo, hsame.lo]

/-- An interrupt with 1 in `HI`; the control block is at `0xa0800000`, and the variable that points
to it four words below. -/
def interrupted : Machine where
  gpr := fun _ => 0
  hi := 1
  lo := 0
  cp0 := fun _ => 0
  mem := fun a => if a = 0xa07ffff0#32 then 0xa0800000#32 else 0

theorem running_interrupted : Running 0xa07ffff0#32 user 0xa0800000#32 interrupted :=
  ⟨by decide, by decide, by decide, by decide⟩

theorem interrupted_apart : ∀ x ∈ regsContext, 0xa07ffff0#32 ≠ 0xa0800000#32 + user + x.2 := by
  decide

theorem save_interrupted :
    ∃ m₁, interrupted.run (saveContext 0xa07ffff0#32 user) = some m₁ ∧ m₁.hi = 1 ∧ m₁.lo = 0 ∧
      m₁.mem 0xa07ffff0#32 = 0xa0800000#32 := by
  obtain ⟨m₁, hrun, hhi, hlo, hother, -⟩ := running_interrupted.save
  exact ⟨m₁, hrun, hhi, hlo, hother _ interrupted_apart⟩

theorem context_preserved_iff_interrupted :
    ∃ m₁ m₃, interrupted.run (saveContext 0xa07ffff0#32 user) = some m₁ ∧
      m₁.run (restoreContext 0xa07ffff0#32 user) = some m₃ ∧ SameProgram interrupted m₃ := by
  obtain ⟨m₁, hrun, hhi, hlo, hcr⟩ := save_interrupted
  obtain ⟨m₁', hrun₁, hlater⟩ := context_preserved_iff running_interrupted
  cases hrun.symm.trans hrun₁
  obtain ⟨m₃, hrun₃, hiff⟩ := hlater m₁ ⟨hcr, fun _ _ => rfl⟩
  exact ⟨m₁, m₃, hrun, hrun₃, hiff.mpr ⟨hhi, hlo⟩⟩

theorem hi_not_preserved :
    ∃ m₁ m₃, interrupted.run (saveContext 0xa07ffff0#32 user) = some m₁ ∧
      KeepsContext 0xa07ffff0#32 user 0xa0800000#32 m₁ { m₁ with hi := 0 } ∧
      ({ m₁ with hi := 0 } : Machine).run (restoreContext 0xa07ffff0#32 user) = some m₃ ∧
      ¬ SameProgram interrupted m₃ := by
  obtain ⟨m₁, hrun, -, -, hcr⟩ := save_interrupted
  have hkeeps : KeepsContext 0xa07ffff0#32 user 0xa0800000#32 m₁ { m₁ with hi := 0 } :=
    ⟨hcr, fun _ _ => rfl⟩
  have hrunning : Running 0xa07ffff0#32 user 0xa0800000#32 { m₁ with hi := 0 } :=
    { running_interrupted with running := hcr }
  obtain ⟨m₃, hrun₃, hhi₃, -⟩ := hrunning.restore
  refine ⟨m₁, m₃, hrun, hkeeps, hrun₃, fun hsame => ?_⟩
  have h10 : (0 : Word) = 1 := hhi₃.symm.trans hsame.hi
  exact absurd h10 (by decide)

end Ucas.Arch

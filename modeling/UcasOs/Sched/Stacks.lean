import UcasOs.Sched.Objects
import Mathlib.Order.Interval.Set.Disjoint
import Mathlib.Order.CompletePartialOrder

/-! The stacks that `do_spawn` hands out. `STACK_TOP` only ever grows, and the comparison of it with
`STACK_MAX` is followed by nothing. -/

namespace Ucas.Sched
open Ucas.Lib Relation

variable {s s' : Kernel} {op : Op} {p q : PcbRef}

/-- The bytes below `kernel_stack_top`. A slot that was never spawned has none. -/
def Tasks.kernelStack (s : Tasks) (p : PcbRef) : Set Nat :=
  Set.Ico (s.kernelStackTop p - stackSize) (s.kernelStackTop p)

def Tasks.userStack (s : Tasks) (p : PcbRef) : Set Nat :=
  Set.Ico (s.userStackTop p - stackSize) (s.userStackTop p)

/-- A call that is no `do_spawn` into a slot whose stacks would end above `STACK_MAX`. -/
def StackRoom (s : Kernel) (op : Op) : Prop :=
  ∀ t, op = .spawn t → freeSlot s.toTasks ≠ none → s.stackTop + stackSize ≤ stackMax

structure SameStacks (s s' : Tasks) : Prop where
  kernelStackTop : s'.kernelStackTop = s.kernelStackTop
  userStackTop : s'.userStackTop = s.userStackTop
  stackTop : s'.stackTop = s.stackTop

theorem Undisturbed.stacks (h : Undisturbed s s') : SameStacks s.toTasks s'.toTasks :=
  ⟨congrArg Core.kernelStackTop h, congrArg Core.userStackTop h, congrArg Core.stackTop h⟩

theorem objectsAfter_stacks (op : Op) (s : Kernel) :
    SameStacks s.toTasks (objectsAfter op s).toTasks := by
  unfold objectsAfter
  split
  all_goals (try split)
  all_goals (try split)
  all_goals exact ⟨rfl, rfl, rfl⟩

theorem step_stacks (hspawn : ∀ t, op ≠ .spawn t) (h : step op s = .ok s') :
    SameStacks s.toTasks s'.toTasks := by
  obtain ⟨h1, h2, h3⟩ := (step_undisturbed hspawn h).stacks
  obtain ⟨g1, g2, g3⟩ := objectsAfter_stacks op s
  exact ⟨h1.trans g1, h2.trans g2, h3.trans g3⟩

theorem doSpawn_stacks {t : TaskInfo} (h : doSpawn t s = .ok s') :
    freeSlot s.toTasks = none ∧ SameStacks s.toTasks s'.toTasks ∨
    ∃ i, freeSlot s.toTasks = some i ∧
      s'.kernelStackTop = Function.update s.kernelStackTop (.task i) s.stackTop ∧
      s'.userStackTop = Function.update s.userStackTop (.task i) (word (s.stackTop + stackSize)) ∧
      s'.stackTop = word (s.stackTop + stackSize * 2) := by
  have hslot : freeSlot { s with lastPid := word (s.lastPid + 1) }.toTasks = freeSlot s.toTasks :=
    rfl
  simp only [doSpawn, hslot] at h
  cases hf : freeSlot s.toTasks with
  | none =>
    rw [hf] at h
    cases h
    exact .inl ⟨rfl, rfl, rfl, rfl⟩
  | some i =>
    rw [hf] at h
    obtain ⟨l, -, h⟩ := exists_of_bind_ok h
    cases h
    exact .inr ⟨i, rfl, rfl, rfl, rfl⟩

structure Stacked (s : Tasks) : Prop where
  user : ∀ p, s.kernelStackTop p = s.userStackTop p - stackSize
  below : ∀ p, s.userStackTop p + stackSize ≤ s.stackTop
  apart : ∀ p q, p ≠ q →
    s.userStackTop p ≤ s.kernelStackTop q - stackSize ∨ s.userStackTop q ≤ s.kernelStackTop
      p - stackSize
  inside : ∀ p, s.userStackTop p ≤ stackMax
  top : s.stackTop ≤ stackMax + stackSize

theorem Stacked.congr {s s' : Tasks} (h : Stacked s) (hs : SameStacks s s') : Stacked s' := by
  obtain ⟨h1, h2, h3⟩ := hs
  constructor
  · rw [h1, h2]
    exact h.user
  · rw [h2, h3]
    exact h.below
  · rw [h1, h2]
    exact h.apart
  · rw [h2]
    exact h.inside
  · rw [h3]
    exact h.top

theorem word_stackTop {n : Nat} (h : n ≤ stackMax + stackSize * 2) : word n = n :=
  Nat.mod_eq_of_lt (h.trans_lt (by decide))

theorem Stacked.push {s s' : Tasks} (h : Stacked s) (hroom : s.stackTop + stackSize ≤ stackMax)
    (hk : s'.kernelStackTop = Function.update s.kernelStackTop p s.stackTop)
    (hu : s'.userStackTop = Function.update s.userStackTop p (s.stackTop + stackSize))
    (ht : s'.stackTop = s.stackTop + stackSize * 2) : Stacked s' := by
  have hlow := h.below
  constructor
  · intro r
    rw [hk, hu]
    by_cases hr : r = p
    · simp [hr]
    · simpa [hr] using h.user r
  · intro r
    rw [hu, ht]
    by_cases hr : r = p
    · simp only [hr, Function.update_self]
      omega
    · simp only [ne_eq, hr, not_false_eq_true, Function.update_of_ne]
      have := hlow r
      omega
  · -- every older pair ends where the new kernel stack begins, or below
    intro r r' hne
    rw [hk, hu]
    by_cases hr : r = p
    · subst hr
      simp only [Function.update_self, ne_eq, hne.symm, not_false_eq_true, Function.update_of_ne]
      have := hlow r'
      omega
    · by_cases hr' : r' = p
      · subst hr'
        simp only [Function.update_self, ne_eq, hr, not_false_eq_true, Function.update_of_ne]
        have := hlow r
        omega
      · simpa only [ne_eq, hr, hr', not_false_eq_true, Function.update_of_ne] using h.apart r r' hne
  · intro r
    rw [hu]
    by_cases hr : r = p
    · simpa [hr] using hroom
    · simpa [hr] using h.inside r
  · rw [ht]
    omega

theorem stacked_initPcb {e : Nat} (h : initPcb e = .ok s) : Stacked s.toTasks := by
  obtain ⟨l, -, h⟩ := exists_of_bind_ok h
  cases h
  constructor
  · intro p
    by_cases hp : p = shell <;> simp [hp]
  · intro p
    by_cases hp : p = shell <;> simp [hp, stackMin, stackSize]
  · intro p q hne
    by_cases hp : p = shell
    · subst hp
      simp [hne.symm]
    · simp [hp]
  · intro p
    by_cases hp : p = shell <;> simp [hp, stackMin, stackSize, stackMax]
  · exact (by decide : stackMin + stackSize * 2 ≤ stackMax + stackSize)

theorem Stacked.step (h : Stacked s.toTasks) (hroom : StackRoom s op) (hrun : step op s = .ok s') :
    Stacked s'.toTasks := by
  by_cases hspawn : ∃ t, op = .spawn t
  · obtain ⟨t, rfl⟩ := hspawn
    obtain ⟨-, hs⟩ | ⟨i, hi, hk, hu, ht⟩ := doSpawn_stacks (step_exec (nofun : Op.spawn t ≠ .resume)
      hrun).2
    · exact h.congr hs
    · have hr := hroom t rfl (by simp [hi])
      have htop := h.top
      rw [word_stackTop (by omega)] at hu ht
      exact h.push hr hk hu ht
  · exact h.congr (step_stacks (not_exists.mp hspawn) hrun)

theorem stacked_of_reachable (h : Reachable StackRoom s) : Stacked s.toTasks := by
  obtain ⟨e, s₀, -, hinit, hrun⟩ := h
  refine invariant_of_path (T := Steps StackRoom) (I := fun s => Stacked s.toTasks) ?_
    (stacked_initPcb hinit) hrun
  rintro s s' hs ⟨op, hop, hstep⟩
  exact hs.step hop hstep

theorem Stacked.disjoint {s : Tasks} (h : Stacked s) (hne : p ≠ q) :
    Disjoint (s.kernelStack p ∪ s.userStack p) (s.kernelStack q ∪ s.userStack q) := by
  have hp := h.user p
  have hq := h.user q
  have hpq := h.apart p q hne
  simp only [Tasks.kernelStack, Tasks.userStack, Set.disjoint_union_left, Set.disjoint_union_right,
    Set.Ico_disjoint_Ico]
  omega

theorem Stacked.kernel_disjoint_user {s : Tasks} (h : Stacked s) (p : PcbRef) :
    Disjoint (s.kernelStack p) (s.userStack p) := by
  have hp := h.user p
  simp only [Tasks.kernelStack, Tasks.userStack, Set.Ico_disjoint_Ico]
  omega

theorem Stacked.spawn {t : TaskInfo} {i : Fin numMaxTask} (h : Stacked s.toTasks)
    (hi : freeSlot s.toTasks = some i) (hrun : Sched.step (.spawn t) s = .ok s') :
    s'.kernelStackTop (.task i) = s.stackTop ∧ s'.userStackTop (.task i) = s.stackTop + stackSize :=
    by
  obtain ⟨hnone, -⟩ | ⟨j, hj, hk, hu, -⟩ := doSpawn_stacks (step_exec (nofun : Op.spawn t ≠ .resume)
    hrun).2
  · cases hi.symm.trans hnone
  · cases hi.symm.trans hj
    have htop := h.top
    rw [word_stackTop (by omega)] at hu
    rw [hk, hu, Function.update_self, Function.update_self]
    exact ⟨rfl, rfl⟩

/-- In every run in which each `do_spawn` that finds a slot has its stacks end at or below
`STACK_MAX`, the stacks of any two processes are disjoint and end there. A next `do_spawn` gives its
process the stacks around `STACK_TOP`, and these end at or below `STACK_MAX` only if it meets the
condition too. -/
theorem stacks_apart (h : Reachable StackRoom s) :
    (∀ p q, p ≠ q → Disjoint (s.kernelStack p ∪ s.userStack p) (s.kernelStack q ∪ s.userStack q)) ∧
    (∀ p, Disjoint (s.kernelStack p) (s.userStack p) ∧ s.userStackTop p ≤ stackMax) ∧
    ∀ t i s', freeSlot s.toTasks = some i → step (.spawn t) s = .ok s' →
      s'.kernelStack (.task i) = Set.Ico (s.stackTop - stackSize) s.stackTop ∧
      s'.userStack (.task i) = Set.Ico s.stackTop (s.stackTop + stackSize) ∧
      (s'.userStackTop (.task i) ≤ stackMax ↔ StackRoom s (.spawn t)) := by
  have hs := stacked_of_reachable h
  refine ⟨fun p q hne => hs.disjoint hne, fun p => ⟨hs.kernel_disjoint_user p, hs.inside p⟩, ?_⟩
  intro t i s' hi hrun
  obtain ⟨hk, hu⟩ := hs.spawn hi hrun
  refine ⟨by rw [Tasks.kernelStack, hk], by rw [Tasks.userStack, hu, Nat.add_sub_cancel], ?_⟩
  rw [hu]
  exact ⟨fun hle _ _ _ => hle, fun hroom => hroom t rfl (by simp [hi])⟩

theorem stacks_apart_sixteen :
    ∃ s, Reachable StackRoom s ∧ s.userStackTop (.task ⟨16, by decide⟩) = stackMax - stackSize ∧
      Disjoint (s.kernelStack shell ∪ s.userStack shell)
        (s.kernelStack (.task ⟨16, by decide⟩) ∪ s.userStack (.task ⟨16, by decide⟩)) := by
  obtain ⟨s, hs, htest⟩ := exists_of_endsIn
    (t := fun s : Kernel => s.userStackTop (.task ⟨16, by decide⟩) = stackMax - stackSize)
    (r := initPcb 1 >>= (List.replicate 16 (Op.spawn ⟨1⟩)).foldlM
      (checked (fun s _ => s.stackTop + stackSize ≤ stackMax) .disabled fun s op => step op s))
    (by decide +kernel)
  obtain ⟨s₀, hinit, hrun⟩ := exists_of_bind_ok hs
  have hreach : Reachable StackRoom s := by
    refine ⟨1, s₀, by decide, hinit, ReflTransGen.mono ?_ _ _ (path_of_checked hrun)⟩
    rintro s s' ⟨op, hop, hstep⟩
    exact ⟨op, fun _ _ _ => of_decide_eq_true hop, hstep⟩
  exact ⟨s, hreach, of_decide_eq_true htest, (stacks_apart hreach).1 _ _ (by decide)⟩

theorem stack_above_stackMax :
    ∃ s s', Reachable AnyCall s ∧ freeSlot s.toTasks = some ⟨17, by decide⟩ ∧
      step (.spawn ⟨1⟩) s = .ok s' ∧ stackMax < s'.userStackTop (.task ⟨17, by decide⟩) := by
  obtain ⟨s, hs, htest⟩ := exists_of_endsIn
    (t := fun s : Kernel => freeSlot s.toTasks = some ⟨17, by decide⟩ ∧
      endsIn (fun s' => stackMax < s'.userStackTop (.task ⟨17, by decide⟩)) (step (.spawn ⟨1⟩) s) =
        true)
    (r := execute 1 (List.replicate 16 (.spawn ⟨1⟩))) (by decide +kernel)
  obtain ⟨hfree, hstep⟩ := of_decide_eq_true htest
  obtain ⟨s', hs', habove⟩ := exists_of_endsIn hstep
  exact ⟨s, s', reachable_execute (by decide) (by simp [AnyCall]) hs, hfree, hs', of_decide_eq_true
    habove⟩

end Ucas.Sched

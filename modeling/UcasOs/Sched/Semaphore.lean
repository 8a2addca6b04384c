import UcasOs.Sched.Objects

/-! Semaphores. Beside the kernel we record the `do_semaphore_up` calls and, of the
`do_semaphore_down` calls, those that took a token at once, those that blocked and those that an up
has woken. -/

namespace Ucas.Sched
open Ucas.Lib Relation

variable {s s' : Kernel} {op : Op} {x : Nat}

structure SemRecord where
  ups : Nat := 0
  decrements : Nat := 0
  blocked : List PcbRef := []
  woken : List PcbRef := []

/-- The downs that have passed: they decremented the value or were dequeued by an up. -/
def SemRecord.passed (r : SemRecord) : Nat := r.decrements + r.woken.length

def semLog (x : Nat) (c : Traced SemRecord) (op : Op) (s' : Kernel) : SemRecord :=
  let r := c.record
  if op = .up x then
    let woken := (c.kernel.members (.semaphore x)).filter (· ∉ s'.members (.semaphore x))
    { r with ups := r.ups + 1, woken := r.woken ++ woken }
  else if op = .down x then
    if s'.semValue x < c.kernel.semValue x then { r with decrements := r.decrements + 1 }
    else { r with blocked := r.blocked ++ [c.kernel.currentRunning] }
  else r

structure Conserved (x : Nat) (v : Int) (c : Traced SemRecord) : Prop where
  nonneg : 0 ≤ c.kernel.semValue x
  waiting : c.kernel.members (.semaphore x) ≠ [] → c.kernel.semValue x = 0
  tokens : c.kernel.semValue x = v + c.record.ups - c.record.passed
  fifo : c.record.blocked = c.record.woken ++ c.kernel.members (.semaphore x)

section Steps
variable (h : WellFormed s)
include h

theorem up_step (hrun : step (.up x) s = .ok s') :
    (s.members (.semaphore x) = [] ∧ s'.semValue x = s.semValue x + 1 ∧ s'.members (.semaphore x) =
    []) ∨
      ∃ p l, s.members (.semaphore x) = p :: l ∧ s'.semValue x = s.semValue x ∧
        Readied (.semaphore x) [p] s s' := by
  obtain ⟨a, hs, -⟩ := id h
  have hempty := queueIsEmpty_members hs.1 (q := .semaphore x)
  obtain ⟨-, hexec⟩ := step_exec (by simp) hrun
  have hval := congrFun (step_objects hrun).semValue x
  rw [exec, doSemaphoreUp] at hexec
  cases hl : s.members (.semaphore x) with
  | nil =>
    have hq := hempty.mpr hl
    rw [if_pos hq] at hexec
    cases hexec
    exact .inl ⟨rfl, by simp, hl⟩
  | cons p l =>
    have hq : ¬ queueIsEmpty (.semaphore x) s.queues = true := by simp [hempty, hl]
    rw [if_neg hq] at hexec
    rw [objectsAfter, if_neg hq] at hval
    obtain ⟨t, ht, hread⟩ := wakeHead_effect h (by simp) hl
    cases hexec.symm.trans ht
    exact .inr ⟨p, l, rfl, hval, hread⟩

theorem down_step (hrun : step (.down x) s = .ok s') :
    (s.semValue x = 0 ∧ s'.semValue x = 0 ∧
        s'.members (.semaphore x) = s.members (.semaphore x) ++ [s.currentRunning]) ∨
      (s.semValue x ≠ 0 ∧ s'.semValue x = s.semValue x - 1 ∧
        s'.members (.semaphore x) = s.members (.semaphore x)) := by
  obtain ⟨-, hexec⟩ := step_exec (by simp) hrun
  have hval := congrFun (step_objects hrun).semValue x
  rw [exec, doSemaphoreDown] at hexec
  by_cases hz : s.semValue x = 0
  · rw [if_pos hz] at hexec
    rw [objectsAfter, if_pos hz, hz] at hval
    exact .inl ⟨hz, hval, blockThenScheduler_effect h trivial hexec⟩
  · rw [if_neg hz] at hexec
    cases hexec
    exact .inr ⟨hz, by simp, rfl⟩

end Steps

theorem SharedCall.not_opOn_semaphore (h : SharedCall (.semaphore x) op) (hup : op ≠ .up x)
    (hdown : op ≠ .down x) : ¬ OpOn (.semaphore x) op := by
  intro hon
  cases op with
  | up y => exact hup (by cases hon; rfl)
  | down y => exact hdown (by cases hon; rfl)
  | kill n => exact h
  | block q => exact h.2.2 hon
  | unblockOne q => exact h.2.2 hon
  | unblockAll q => exact h.2.2 hon
  | semaphoreInit y v => exact h hon
  | _ => cases hon

theorem Conserved.up {v : Int} {c : Traced SemRecord} (h : WellFormed c.kernel)
    (hc : Conserved x v c)
    (hrun : step (.up x) c.kernel = .ok s') : Conserved x v ⟨s', semLog x c (.up x) s'⟩ := by
  obtain ⟨hnonneg, hwait, htok, hfifo⟩ := hc
  rcases up_step h hrun with ⟨hnil, hval, hnil'⟩ | ⟨p, l, hl, hval, hread⟩
  · have hlog : semLog x c (.up x) s' = { c.record with ups := c.record.ups + 1 } := by
      simp [semLog, hnil]
    rw [hlog]
    refine ⟨?_, fun hne => absurd hnil' hne, ?_, ?_⟩
    · simp only [hval]
      omega
    · simp only [SemRecord.passed] at htok ⊢
      push_cast
      omega
    · simpa [hnil, hnil'] using hfifo
  · have hleft : s'.members (.semaphore x) = l := by simpa [hl] using hread.left.symm
    have hwoken := hread.filter_left (h.nodup _)
    have hlog : semLog x c (.up x) s' =
        { c.record with ups := c.record.ups + 1, woken := c.record.woken ++ [p] } := by
      simp only [semLog, if_true, hwoken]
    have hzero := hwait (by simp [hl])
    rw [hlog]
    refine ⟨?_, fun _ => hval.trans hzero, ?_, ?_⟩
    · simp only [hval, hzero, le_refl]
    · simp only [SemRecord.passed, List.length_append, List.length_singleton] at htok ⊢
      push_cast
      omega
    · simp [hfifo, hl, hleft]

theorem Conserved.down {v : Int} {c : Traced SemRecord} (h : WellFormed c.kernel)
    (hc : Conserved x v c)
    (hrun : step (.down x) c.kernel = .ok s') : Conserved x v ⟨s', semLog x c (.down x) s'⟩ := by
  obtain ⟨hnonneg, hwait, htok, hfifo⟩ := hc
  rcases down_step h hrun with ⟨hzero, hval, hmem⟩ | ⟨hpos, hval, hmem⟩
  · have hlog : semLog x c (.down x) s' =
        { c.record with blocked := c.record.blocked ++ [c.kernel.currentRunning] } := by
      simp [semLog, hval, hzero]
    rw [hlog]
    refine ⟨by simp [hval], fun _ => hval, ?_, ?_⟩
    · simp only [SemRecord.passed] at htok ⊢
      omega
    · simp [hfifo, hmem]
  · have hlog : semLog x c (.down x) s' = { c.record with decrements := c.record.decrements + 1 } :=
        by
      have hlt : s'.semValue x < c.kernel.semValue x := by omega
      simp [semLog, hlt]
    rw [hlog]
    refine ⟨?_, fun hne => absurd (hwait (hmem ▸ hne)) hpos, ?_, by simp [hfifo, hmem]⟩
    · simp only [hval]
      omega
    · simp only [SemRecord.passed] at htok ⊢
      push_cast
      omega

theorem conserved_step {v : Int} {c : Traced SemRecord} (h : WellFormed c.kernel)
    (hc : Conserved x v c)
    (hop : SharedCall (.semaphore x) op) (hrun : step op c.kernel = .ok s') :
    Conserved x v ⟨s', semLog x c op s'⟩ := by
  by_cases hup : op = .up x
  · subst hup
    exact hc.up h hrun
  by_cases hdown : op = .down x
  · subst hdown
    exact hc.down h hrun
  have hon := hop.not_opOn_semaphore hup hdown
  have hlog : semLog x c op s' = c.record := by simp [semLog, hup, hdown]
  have hmem := h.members_step (q := .semaphore x) trivial hop.killsFind hon hrun
  have hval : s'.semValue x = c.kernel.semValue x := congrArg Prod.fst
    (counters_of_not_opOn hon hrun)
  obtain ⟨hnonneg, hwait, htok, hfifo⟩ := hc
  rw [hlog]
  exact ⟨hval ▸ hnonneg, by simpa only [hmem, hval] using hwait, hval.trans
    htok, by rw [hmem]; exact hfifo⟩

/-- However downs and ups of any processes interleave with the rest of the system, the value of a
semaphore that was initialised with `v` is not negative, it is 0 while somebody waits, every up
either raises it or wakes the process that has waited longest, and tokens are neither lost nor made.
-/
theorem semaphore_conserves {v : Int} {s₁ s₂ : Kernel} {c : Traced SemRecord} (hv : 0 ≤ v)
    (h : Reachable KillsFind s₁) (hinit : step (.semaphoreInit x v) s₁ = .ok s₂)
    (hrun : ReflTransGen (TracedSteps (fun _ op => SharedCall (.semaphore x) op) (semLog x)) ⟨s₂,
    {}⟩ c) :
    Conserved x v c ∧ (c.record.passed : Int) ≤ v + c.record.ups ∧
      c.record.woken.IsPrefix c.record.blocked := by
  have h₁ : WellFormed s₁ := reachable_killsFind h
  have hcall : KillsFind s₁ (.semaphoreInit x v) := ⟨trivial, by simp⟩
  have h₂ : WellFormed s₂ := h₁.step hcall hinit
  have hval : s₂.semValue x = v := by
    rw [(step_objects hinit).semValue]
    simp [objectsAfter]
  have hnil : s₂.members (.semaphore x) = [] := by
    obtain ⟨-, hexec⟩ := step_exec (by simp) hinit
    cases hexec
    exact members_queueInit rfl
  have hstart : Conserved x v ⟨s₂, {}⟩ :=
    ⟨hval ▸ hv, fun hne => absurd hnil hne, by simp [hval, SemRecord.passed], by simp [hnil]⟩
  have hc := (traced_invariant hrun (fun _ _ hop => hop.killsFind)
    (fun _ _ _ h hc hop hrun => conserved_step h hc hop hrun) h₂ hstart).2
  have hnonneg := hc.nonneg
  have htok := hc.tokens
  refine ⟨hc, by omega, ?_⟩
  rw [hc.fifo]
  exact List.prefix_append ..

theorem semaphore_conserves_two_waiters :
    ∃ s₁ s₂ c, Reachable KillsFind s₁ ∧ step (.semaphoreInit 0 1) s₁ = .ok s₂ ∧
      ReflTransGen (TracedSteps (fun _ op => SharedCall (.semaphore 0) op) (semLog 0)) ⟨s₂, {}⟩ c ∧
      c.kernel.members (.semaphore 0) = [.task ⟨2, by decide⟩] ∧
      c.record.woken = [.task ⟨0, by decide⟩] ∧ c.record.passed = 2 ∧ Conserved 0 1 c := by
  let ops : List Op := [.down 0, .tick false, .down 0, .down 0, .up 0]
  obtain ⟨s₁, hs₁, hinit⟩ := exists_of_endsIn
    (t := fun s₁ => endsIn (fun s₂ => endsIn (fun c : Traced SemRecord =>
      c.kernel.members (.semaphore 0) = [.task ⟨2, by decide⟩] ∧
        c.record.woken = [.task ⟨0, by decide⟩] ∧ c.record.passed = 2)
      (ops.foldlM (traceStep (semLog 0)) ⟨s₂, {}⟩)) (step (.semaphoreInit 0 1) s₁))
    (r := execute 1 [.schedule, .spawn ⟨1⟩, .spawn ⟨1⟩]) (by decide +kernel)
  obtain ⟨s₂, hs₂, hops⟩ := exists_of_endsIn hinit
  obtain ⟨c, hc, htest⟩ := exists_of_endsIn hops
  obtain ⟨hmem, hwoken, hpassed⟩ := of_decide_eq_true htest
  have hreach : Reachable KillsFind s₁ :=
    reachable_execute (by decide) (by simp [KillsFind, AnyCall]) hs₁
  have hrun : ReflTransGen (TracedSteps (fun _ op => SharedCall (.semaphore 0) op) (semLog 0)) ⟨s₂,
      {}⟩ c :=
    traced_of_foldlM (by simp [ops, SharedCall]) hc
  exact ⟨s₁, s₂, c, hreach, hs₂, hrun, hmem, hwoken, hpassed,
    (semaphore_conserves (by decide) hreach hs₂ hrun).1⟩

end Ucas.Sched

import UcasOs.Sched.Objects

/-! Barriers. Beside the kernel we record who has arrived at the barrier and who has been let
through, in order. -/

namespace Ucas.Sched
open Ucas.Lib Relation

structure BarrierRecord where
  arrivals : List PcbRef := []
  released : List PcbRef := []

variable {s s' : Kernel} {op : Op} {b goal : Nat} {c : Traced BarrierRecord}

/-- A call of `do_barrier_wait` lets through whoever of the waiters and the caller is not in the
queue when it is over. -/
def barrierLog (b : Nat) (c : Traced BarrierRecord) (op : Op) (s' : Kernel) : BarrierRecord :=
  if op = .barrierWait b then
    let here := c.kernel.members (.barrier b) ++ [c.kernel.currentRunning]
    { arrivals := c.record.arrivals ++ [c.kernel.currentRunning]
      released := c.record.released ++ here.filter (· ∉ s'.members (.barrier b)) }
  else c.record

def complete (goal n : Nat) : Nat := goal * (n / goal)

/-- The state of a barrier that was initialised with `goal`: the arrivals of complete generations
have been let through, and those of the last, incomplete one wait. -/
structure Generations (b goal : Nat) (c : Traced BarrierRecord) : Prop where
  maxNum : c.kernel.maxNum b = goal
  count : c.kernel.notArriveNum b + (c.kernel.members (.barrier b)).length = goal
  positive : 1 ≤ c.kernel.notArriveNum b
  released : c.record.released = c.record.arrivals.take (complete goal c.record.arrivals.length)
  waiting : c.kernel.members (.barrier b) = c.record.arrivals.drop
    (complete goal c.record.arrivals.length)
  blocked : ∀ p ∈ c.kernel.members (.barrier b), c.kernel.status p = .blocked

section Wait
variable (h : WellFormed s)
include h

theorem barrierWait_last (hu : s.kernelContext s.currentRunning = .user)
    (hlast : s.notArriveNum b = 1) : ∃ s', step (.barrierWait b) s = .ok s' ∧
      s'.notArriveNum b = s.maxNum b ∧ Readied (.barrier b) (s.members (.barrier b)) s s' := by
  obtain ⟨t, ht, h1, h2, h3, h4, h5⟩ := drain_effect h (q := .barrier b) (by simp)
  have hrun : step (.barrierWait b) s =
      .ok { t with notArriveNum := Function.update t.notArriveNum b (t.maxNum b) } := by
    rw [step_of_user hu, exec, doBarrierWait, if_pos hlast, clearWaitingQueue, ht]
    rfl
  have hnum := congrFun (step_objects hrun).notArriveNum b
  exact ⟨_, hrun, by simpa [objectsAfter, hlast] using hnum, h1, h2, h3, h4, h5⟩

theorem barrierWait_not_last (hlast : s.notArriveNum b ≠ 1)
    (hrun : step (.barrierWait b) s = .ok s') : s'.notArriveNum b = s.notArriveNum b - 1 ∧
      s'.members (.barrier b) = s.members (.barrier b) ++ [s.currentRunning] := by
  obtain ⟨-, hexec⟩ := step_exec (by simp) hrun
  have hnum := congrFun (step_objects hrun).notArriveNum b
  rw [exec, doBarrierWait, if_neg hlast] at hexec
  dsimp only at hexec
  have h' : WellFormed
      { s with notArriveNum := Function.update s.notArriveNum b (s.notArriveNum b - 1) } := by
    obtain ⟨a, ⟨⟨L, hL, rfl⟩, hS⟩, hrest⟩ := h
    exact ⟨_, ⟨⟨L, hL, rfl⟩, hS⟩, hrest⟩
  have hmem := blockThenScheduler_effect (q := .barrier b) h' trivial hexec
  exact ⟨by simpa [objectsAfter, hlast] using hnum, hmem⟩

end Wait

theorem SharedCall.not_opOn_barrier (h : SharedCall (.barrier b) op) (hwait : op ≠ .barrierWait b) :
    ¬ OpOn (.barrier b) op := by
  intro hon
  cases op with
  | barrierWait b' => exact hwait (by cases hon; rfl)
  | barrierInit b' goal => exact h hon
  | kill n => exact h
  | block q => exact h.2.2 hon
  | unblockOne q => exact h.2.2 hon
  | unblockAll q => exact h.2.2 hon
  | _ => cases hon

section Complete

theorem complete_le (goal n : Nat) : complete goal n ≤ n := Nat.mul_div_le n goal

theorem complete_of_last (hgoal : 1 ≤ goal) {n : Nat} (h : n - complete goal n + 1 = goal) :
    complete goal (n + 1) = n + 1 := by
  have hle := complete_le goal n
  have hn : n + 1 = goal * (n / goal + 1) := by
    rw [Nat.mul_add, mul_one]
    unfold complete at *
    omega
  rw [complete, hn, Nat.mul_div_cancel_left _ hgoal]

theorem complete_of_not_last {n : Nat} (h : n - complete goal n + 1 < goal) :
    complete goal (n + 1) = complete goal n := by
  have hle := complete_le goal n
  unfold complete at *
  congr 1
  refine Nat.div_eq_of_lt_le ?_ ?_
  · rw [mul_comm]
    omega
  · rw [Nat.add_mul, mul_comm, one_mul]
    omega

theorem last_of_dvd (hgoal : 1 ≤ goal) {n : Nat} (h : goal ∣ n + 1) :
    n - complete goal n + 1 = goal := by
  obtain ⟨k, hk⟩ := h
  cases k with
  | zero => simp at hk
  | succ k =>
    rw [Nat.mul_add, mul_one] at hk
    have hdiv : n / goal = k := by
      refine Nat.div_eq_of_lt_le ?_ ?_
      · rw [mul_comm]
        omega
      · rw [Nat.add_mul, mul_comm, one_mul]
        omega
    rw [complete, hdiv]
    omega

end Complete

theorem Generations.length_waiting (hc : Generations b goal c) :
    (c.kernel.members (.barrier b)).length =
      c.record.arrivals.length - complete goal c.record.arrivals.length := by
  rw [hc.waiting, List.length_drop]

theorem Generations.last (hgoal : 1 ≤ goal) (hc : Generations b goal c)
    (hlast : c.kernel.notArriveNum b = 1) (hnum : s'.notArriveNum b = c.kernel.maxNum b)
    (hmax : s'.maxNum b = c.kernel.maxNum b)
    (hread : Readied (.barrier b) (c.kernel.members (.barrier b)) c.kernel s') :
    Generations b goal ⟨s', barrierLog b c (.barrierWait b) s'⟩ := by
  have hnil : s'.members (.barrier b) = [] := by
    have := hread.left
    simpa using this
  have hlen := hc.length_waiting
  have hcount := hc.count
  have hcomplete : complete goal (c.record.arrivals.length + 1) = c.record.arrivals.length + 1 :=
    complete_of_last hgoal (by omega)
  have hlog : barrierLog b c (.barrierWait b) s' =
      { arrivals := c.record.arrivals ++ [c.kernel.currentRunning]
        released := c.record.arrivals ++ [c.kernel.currentRunning] } := by
    simp only [barrierLog, if_true, hnil, hc.released, hc.waiting]
    rw [List.filter_eq_self.mpr (by simp), ← List.append_assoc, List.take_append_drop]
  rw [hlog]
  refine ⟨hmax.trans hc.maxNum, ?_, ?_, ?_, ?_, by simp [hnil]⟩
  · simp [hnum, hnil, hc.maxNum]
  · simp only [hnum, hc.maxNum]
    exact_mod_cast hgoal
  · simp [hcomplete]
  · simp [hcomplete, hnil]

theorem Generations.not_last (hc : Generations b goal c)
    (hlast : c.kernel.notArriveNum b ≠ 1) (hnum : s'.notArriveNum b = c.kernel.notArriveNum b - 1)
    (hmax : s'.maxNum b = c.kernel.maxNum b) (hblocked : ∀ p ∈ s'.members (.barrier b),
    s'.status p = .blocked)
    (hmem : s'.members (.barrier b) = c.kernel.members (.barrier b) ++ [c.kernel.currentRunning]) :
    Generations b goal ⟨s', barrierLog b c (.barrierWait b) s'⟩ := by
  have hlen := hc.length_waiting
  have hcount := hc.count
  have hpos := hc.positive
  have hle := complete_le goal c.record.arrivals.length
  have hcomplete : complete goal (c.record.arrivals.length + 1) = complete goal
      c.record.arrivals.length :=
    complete_of_not_last (by omega)
  have hlog : barrierLog b c (.barrierWait b) s' =
      { arrivals := c.record.arrivals ++ [c.kernel.currentRunning], released := c.record.released }
          := by
    simp only [barrierLog, if_true, hmem]
    rw [List.filter_eq_nil_iff.mpr fun p hp => not_not.mpr hp ∘ of_decide_eq_true, List.append_nil]
  rw [hlog]
  refine ⟨hmax.trans hc.maxNum, ?_, ?_, ?_, ?_, hblocked⟩
  · simp only [hnum, hmem, List.length_append, List.length_singleton]
    push_cast
    omega
  · simp only [hnum]
    omega
  · simp only [List.length_append, List.length_singleton, hcomplete]
    rw [List.take_append_of_le_length hle, hc.released]
  · simp only [List.length_append, List.length_singleton, hcomplete]
    rw [List.drop_append_of_le_length hle, hmem, hc.waiting]

theorem generations_step (hgoal : 1 ≤ goal) (h : WellFormed c.kernel) (hc : Generations b goal c)
    (hop : SharedCall (.barrier b) op) (hrun : step op c.kernel = .ok s') :
    Generations b goal ⟨s', barrierLog b c op s'⟩ := by
  have hblocked := h.blocked_step (q := .barrier b) trivial hop.killsFind hrun hc.blocked
  by_cases hwait : op = .barrierWait b
  · subst hwait
    have hmax : s'.maxNum b = c.kernel.maxNum b := congrFun (step_objects hrun).maxNum b
    by_cases hlast : c.kernel.notArriveNum b = 1
    · obtain ⟨t, ht, hnum, hread⟩ := barrierWait_last h (step_exec (by simp) hrun).1 hlast
      cases hrun.symm.trans ht
      exact hc.last hgoal hlast hnum hmax hread
    · obtain ⟨hnum, hmem⟩ := barrierWait_not_last h hlast hrun
      exact hc.not_last hlast hnum hmax hblocked hmem
  · have hon := hop.not_opOn_barrier hwait
    have hlog : barrierLog b c op s' = c.record := by simp [barrierLog, hwait]
    have hmem := h.members_step (q := .barrier b) trivial hop.killsFind hon hrun
    have hcounters := counters_of_not_opOn hon hrun
    have hnum : s'.notArriveNum b = c.kernel.notArriveNum b := congrArg Prod.fst hcounters
    have hmax : s'.maxNum b = c.kernel.maxNum b := congrArg Prod.snd hcounters
    rw [hlog]
    exact ⟨hmax.trans hc.maxNum, by simp only [hnum, hmem, hc.count],
      by simp only [hnum, hc.positive],
      hc.released, hmem.trans hc.waiting, hblocked⟩

/-- However `do_barrier_wait` calls of any processes interleave with the rest of the system, the
arrivals of complete generations have been let through and the others wait; and the arrival that
completes a generation makes all waiters of it ready and goes on itself. -/
theorem barrier_generations {s₁ s₂ : Kernel} (hgoal : 1 ≤ goal) (h : Reachable KillsFind s₁)
    (hinit : step (.barrierInit b goal) s₁ = .ok s₂)
    (hrun : ReflTransGen (TracedSteps (fun _ op => SharedCall (.barrier b) op) (barrierLog b)) ⟨s₂,
    {}⟩ c) :
    Generations b goal c ∧ c.kernel.notArriveNum b ≤ c.kernel.maxNum b ∧
      (c.kernel.kernelContext c.kernel.currentRunning = .user →
        goal ∣ c.record.arrivals.length + 1 →
        ∃ s', step (.barrierWait b) c.kernel = .ok s' ∧
          Readied (.barrier b) (c.kernel.members (.barrier b)) c.kernel s' ∧
          s'.members (.barrier b) = []) := by
  have h₁ : WellFormed s₁ := reachable_killsFind h
  have hcall : KillsFind s₁ (.barrierInit b goal) := ⟨trivial, by simp⟩
  have h₂ : WellFormed s₂ := h₁.step hcall hinit
  have hstart : Generations b goal ⟨s₂, {}⟩ := by
    obtain ⟨-, hexec⟩ := step_exec (by simp) hinit
    cases hexec
    have hnil : (doBarrierInit b goal s₁).members (.barrier b) = [] := members_queueInit rfl
    have hmax : (doBarrierInit b goal s₁).maxNum b = goal := by simp [doBarrierInit]
    have hnum : (doBarrierInit b goal s₁).notArriveNum b = goal := by simp [doBarrierInit]
    exact ⟨hmax, by simp [hnil, hnum], by simp only [hnum]; omega, by simp, by simpa using hnil,
      by simp [hnil]⟩
  obtain ⟨hwf, hc⟩ := traced_invariant hrun (fun _ _ hop => hop.killsFind)
    (fun _ _ _ h hc hop hrun => generations_step hgoal h hc hop hrun) h₂ hstart
  have hcount := hc.count
  refine ⟨hc, by rw [hc.maxNum]; omega, fun huser hdvd => ?_⟩
  have hlen := hc.length_waiting
  have hlast := last_of_dvd hgoal hdvd
  obtain ⟨s', hwait, -, hread⟩ := barrierWait_last hwf huser (b := b) (by omega)
  exact ⟨s', hwait, hread, by simpa using hread.left⟩

theorem barrier_generations_reentry :
    ∃ s₁ s₂ c, Reachable KillsFind s₁ ∧ step (.barrierInit 0 2) s₁ = .ok s₂ ∧
      ReflTransGen (TracedSteps (fun _ op => SharedCall (.barrier 0) op) (barrierLog 0)) ⟨s₂, {}⟩ c
      ∧
      c.record.arrivals = [shell, .task ⟨0, by decide⟩, .task ⟨0, by decide⟩] ∧
      c.record.released = [shell, .task ⟨0, by decide⟩] ∧ Generations 0 2 c := by
  let ops : List Op := [.barrierWait 0, .barrierWait 0, .barrierWait 0]
  obtain ⟨s₁, hs₁, hinit⟩ := exists_of_endsIn
    (t := fun s₁ => endsIn (fun s₂ => endsIn (fun c : Traced BarrierRecord =>
      c.record.arrivals = [shell, .task ⟨0, by decide⟩, .task ⟨0, by decide⟩] ∧
        c.record.released = [shell, .task ⟨0, by decide⟩])
      (ops.foldlM (traceStep (barrierLog 0)) ⟨s₂, {}⟩)) (step (.barrierInit 0 2) s₁))
    (r := execute 1 [.schedule, .spawn ⟨1⟩]) (by decide +kernel)
  obtain ⟨s₂, hs₂, hops⟩ := exists_of_endsIn hinit
  obtain ⟨c, hc, htest⟩ := exists_of_endsIn hops
  obtain ⟨harr, hrel⟩ := of_decide_eq_true htest
  have hreach : Reachable KillsFind s₁ :=
    reachable_execute (by decide) (by simp [KillsFind, AnyCall]) hs₁
  have hrun : ReflTransGen (TracedSteps (fun _ op => SharedCall (.barrier 0) op) (barrierLog 0))
      ⟨s₂, {}⟩ c :=
    traced_of_foldlM (by simp [ops, SharedCall]) hc
  exact ⟨s₁, s₂, c, hreach, hs₂, hrun, harr, hrel, (barrier_generations (by decide) hreach hs₂
    hrun).1⟩

end Ucas.Sched

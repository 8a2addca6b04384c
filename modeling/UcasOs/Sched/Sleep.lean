import UcasOs.Sched.Dispatch

/-! `check_sleeping` and the deadlines it compares with the clock. One call wakes one process,
however many are due, and both the clock and the deadline of `do_sleep` wrap around. -/

namespace Ucas.Sched
open Ucas.Lib

variable {s t u : Kernel} {L : Lists} {p : PcbRef}

def Tasks.due (s : Tasks) (p : PcbRef) : Bool := s.sleepingDeadline p < getTimer s

theorem checkSleeping_of_none (hL : Family s.queues L) (h : (L .sleeping).find? s.due = none) :
    checkSleeping s = .ok s := by
  rw [checkSleeping, queueFind, findFrom_eq hL (Family.length_lt hL)]
  exact congrArg (fun o => Except.ok o >>= _) h

theorem checkSleeping_of_some (hL : Family s.queues L) (h : (L .sleeping).find? s.due = some p) :
    ∃ queues, checkSleeping s = .ok
    { s with status := Function.update s.status p .ready, queues := queues } ∧
      Family queues (enqueue .ready p (unlink .sleeping p L)) := by
  obtain ⟨queues, hrun, hfam⟩ := wake_eq hL (List.mem_of_find?_eq_some h)
  refine ⟨queues, ?_, hfam⟩
  rw [checkSleeping, queueFind, findFrom_eq hL (Family.length_lt hL)]
  exact (congrArg (fun o => Except.ok o >>= _) h).trans hrun

/-- What a call of `check_sleeping` should do: all whose deadline is behind the clock become ready,
in their order, and the others stay as they are. -/
def Kernel.WakesDue (s : Kernel) : Prop :=
  ∃ t, checkSleeping s = .ok t ∧ t.members .sleeping = (s.members .sleeping).filter (fun p =>
    !s.due p) ∧
    t.members .ready = s.members .ready ++ (s.members .sleeping).filter s.due ∧
    (∀ p ∈ (s.members .sleeping).filter s.due, t.status p = .ready) ∧
    ∀ p ∉ (s.members .sleeping).filter s.due, t.status p = s.status p

theorem members_of_family {queues : Links} {t : Tasks} (hL : Family queues L) (q : QueueRef) :
    Kernel.members ⟨t, queues⟩ q = L q := members_eq (s := ⟨t, queues⟩) hL q

theorem filter_due_split {l : List PcbRef} {due : PcbRef → Bool} (h : l.find? due = some p) :
    ∃ before after, l = before ++ p :: after ∧ p ∉ before ∧ l.filter due = p :: after.filter due ∧
      l.filter (fun q => !due q) = before ++ after.filter fun q => !due q := by
  obtain ⟨hp, before, after, rfl, hbefore⟩ := List.find?_eq_some_iff_append.mp h
  have hnot : ∀ q ∈ before, due q = false := fun q hq => by simpa using hbefore q hq
  refine ⟨before, after, rfl, fun hmem => ?_, ?_, ?_⟩
  · rw [hnot p hmem] at hp
    cases hp
  · rw [List.filter_append, List.filter_cons_of_pos hp, List.filter_eq_nil_iff.mpr fun q
      hq => by simp [hnot q hq]]
    rfl
  · rw [List.filter_append, List.filter_cons_of_neg (by simp [hp]),
      List.filter_eq_self.mpr fun q hq => by simp [hnot q hq]]

theorem wakes_due_iff (hs : Family s.queues s.members) :
    s.WakesDue ↔ ((s.members .sleeping).filter s.due).length ≤ 1 := by
  cases hfind : (s.members .sleeping).find? s.due with
  | none =>
    have hnone : (s.members .sleeping).filter s.due = [] :=
      List.filter_eq_nil_iff.mpr (by simpa [List.find?_eq_none] using hfind)
    have hall : (s.members .sleeping).filter (fun p => !s.due p) = s.members .sleeping :=
      List.filter_eq_self.mpr (by simpa [List.find?_eq_none] using hfind)
    refine iff_of_true ⟨s, checkSleeping_of_none hs hfind, hall.symm, ?_, ?_, fun _ _ => rfl⟩ ?_
    · rw [hnone, List.append_nil]
    · rw [hnone]
      exact fun _ hp => absurd hp List.not_mem_nil
    · rw [hnone]
      exact Nat.zero_le _
  | some p =>
    obtain ⟨queues, hrun, hfam⟩ := checkSleeping_of_some hs hfind
    obtain ⟨before, after, hsplit, hbefore, hdue, hrest⟩ := filter_due_split hfind
    have hsleeping : enqueue .ready p (unlink .sleeping p s.members) .sleeping = before ++
        after := by
      simp [enqueue, unlink, hsplit, List.erase_append_right _ hbefore]
    have hready : enqueue .ready p (unlink .sleeping p s.members) .ready = s.members .ready ++
        [p] := by
      simp [enqueue, unlink]
    rw [hdue, List.length_cons]
    constructor
    · rintro ⟨t, ht, -, hreadied, -⟩
      obtain rfl := Except.ok.inj (hrun.symm.trans ht)
      rw [members_of_family hfam, hready, hdue, List.append_cancel_left_eq,
        List.cons.injEq] at hreadied
      rw [← hreadied.2]
      rfl
    · intro hone
      have hnone : after.filter s.due = [] := List.length_eq_zero_iff.mp (by omega)
      have hall : after.filter (fun q => !s.due q) = after :=
        List.filter_eq_self.mpr (by simpa [List.filter_eq_nil_iff] using hnone)
      refine ⟨_, hrun, ?_, ?_, fun q hq => ?_, fun q hq => ?_⟩
      · rw [members_of_family hfam, hsleeping, hrest, hall]
      · rw [members_of_family hfam, hready, hdue, hnone]
      · rw [hdue, hnone, List.mem_singleton] at hq
        rw [hq]
        exact Function.update_self ..
      · rw [hdue, hnone, List.mem_singleton] at hq
        exact Function.update_of_ne hq ..

theorem family_of_reachable (h : Reachable KillsFind s) : Family s.queues s.members := by
  obtain ⟨a, hs, -⟩ := reachable_queuedReady h
  rw [show s.members = a.lists from funext hs.1.members]
  exact hs.1.lists

theorem two_asleep :
    ∃ s : Kernel, Reachable KillsFind s ∧ s.members .sleeping = [shell, .task ⟨0, by decide⟩] ∧
    s.sleepingDeadline shell = 0 ∧ s.sleepingDeadline (.task ⟨0, by decide⟩) = 0 ∧
    s.members .ready = [] := by
  obtain ⟨s, hs, htest⟩ := exists_of_endsIn
    (t := fun s : Kernel => s.members .sleeping = [shell, .task ⟨0, by decide⟩] ∧
      s.sleepingDeadline shell = 0 ∧
      s.sleepingDeadline (.task ⟨0, by decide⟩) = 0 ∧ s.members .ready = [])
    (r := execute 1 [.schedule, .spawn ⟨1⟩, .spawn ⟨2⟩, .sleep 0, .sleep 0]) (by decide +kernel)
  exact ⟨s, reachable_execute (by decide) (by simp [KillsFind, AnyCall]) hs, of_decide_eq_true
    htest⟩

theorem wakes_due_second :
    ∃ s : Kernel, Family s.queues s.members ∧
    s.members .sleeping = [shell, .task ⟨0, by decide⟩] ∧
    s.members .ready = [.task ⟨3, by decide⟩] ∧ s.due shell = false ∧
    s.due (.task ⟨0, by decide⟩) = true ∧ s.WakesDue := by
  obtain ⟨s, hs, htest⟩ := exists_of_endsIn
    (t := fun s : Kernel => s.members .sleeping = [shell, .task ⟨0, by decide⟩] ∧
      s.members .ready = [.task ⟨3, by decide⟩] ∧ s.sleepingDeadline shell = 100 ∧
      s.sleepingDeadline (.task ⟨0, by decide⟩) = 0)
    (r := execute 1 [.schedule, .spawn ⟨1⟩, .spawn ⟨2⟩, .spawn ⟨3⟩, .sleep 100, .sleep 0])
    (by decide +kernel)
  obtain ⟨hmem, hready, hlate, hdead⟩ := of_decide_eq_true htest
  let s' : Kernel := { s with timeElapsed := 5000 }
  have hreach : Reachable KillsFind s :=
    reachable_execute (by decide) (by simp [KillsFind, AnyCall]) hs
  have hfam : Family s'.queues s'.members :=
    show Family s.queues s.members from family_of_reachable hreach
  have hmem' : s'.members .sleeping = [shell, .task ⟨0, by decide⟩] := hmem
  have hnot : s'.due shell = false := by simp [s', Tasks.due, getTimer, hlate]
  have hdue : s'.due (.task ⟨0, by decide⟩) = true := by simp [s', Tasks.due, getTimer, hdead]
  refine ⟨s', hfam, hmem', hready, hnot, hdue, (wakes_due_iff hfam).mpr ?_⟩
  rw [hmem', List.filter_cons_of_neg (by simp [hnot]), List.filter_cons_of_pos hdue]
  rfl

theorem due_process_sleeps_on :
    ∃ s t : Kernel, Family s.queues s.members ∧ checkSleeping s = .ok t ∧
    (∃ p ∈ t.members .sleeping, s.due p = true) ∧ ¬ s.WakesDue := by
  obtain ⟨s, hreach, hmem, hfirst, hsecond, -⟩ := two_asleep
  let s' : Kernel := { s with timeElapsed := 5010 }
  have hfam : Family s'.queues s'.members := show Family s.queues s.members from family_of_reachable
    hreach
  have hmem' : s'.members .sleeping = [shell, .task ⟨0, by decide⟩] := hmem
  have hdue : s'.due shell = true := by simp [s', Tasks.due, getTimer, hfirst]
  have hdue' : s'.due (.task ⟨0, by decide⟩) = true := by simp [s', Tasks.due, getTimer, hsecond]
  have hfind : (s'.members .sleeping).find? s'.due = some shell := by
    rw [hmem', List.find?_cons_of_pos hdue]
  obtain ⟨queues, hrun, hfam'⟩ := checkSleeping_of_some hfam hfind
  have hleft : Kernel.members
    { s' with status := Function.update s'.status shell .ready, queues := queues } .sleeping =
      [.task ⟨0, by decide⟩] := by
    rw [members_of_family hfam']
    simp [enqueue, unlink, hmem']
  refine ⟨s', _, hfam, hrun, ⟨.task ⟨0, by decide⟩, ?_, hdue'⟩, ?_⟩
  · rw [hleft]
    exact List.mem_singleton_self _
  · rintro ⟨t, ht, hsleeping, -⟩
    obtain rfl := Except.ok.inj (hrun.symm.trans ht)
    rw [hleft, hmem', List.filter_cons_of_neg (by simp [hdue]), List.filter_cons_of_neg
      (by simp [hdue'])] at hsleeping
    cases hsleeping

/-! The clock. `irq_timer` adds 15 to `time_elapsed`, and `get_timer` counts in units of 5000. -/

section Clock

/-- The time since boot after so many timer interrupts, in the units of `get_timer`. -/
def trueTime (ticks : Nat) : Nat := 15 * ticks / 5000

def clockLag (ticks : Nat) : Int := trueTime ticks - (word (15 * ticks) / 5000 : Nat)

/-- By how much a deadline, set at one tick, comes too late at another one: the clock has fallen
behind in between, and the sum with the clock may have wrapped around. -/
def slip (ticks later sleepTime : Nat) : Int :=
  clockLag later - clockLag ticks - if word (15 * ticks) / 5000 + sleepTime < 2 ^ 32 then 0 else
    2 ^ 32

def Tasks.AtTick (s : Tasks) (ticks : Nat) : Prop := s.timeElapsed = word (15 * ticks)

theorem atTick_irqTimer {s : Tasks} {ticks : Nat} (h : s.AtTick ticks) :
    Tasks.AtTick { s with timeElapsed := word (s.timeElapsed + 15) } (ticks + 1) := by
  simp only [Tasks.AtTick, word] at h ⊢
  omega

theorem sleepCurrent_deadline {sleepTime : Nat} (h : sleepCurrent sleepTime s = .ok u) :
    u.sleepingDeadline s.currentRunning = word (getTimer s.toTasks + sleepTime) := by
  obtain ⟨queues, -, h⟩ := exists_of_bind_ok h
  cases h
  exact Function.update_self ..

/-- The test of `check_sleeping` says whether more than the time asked for has passed, exactly if
the rest of that time is not between 0 and the slip. -/
theorem sleep_expires_iff {ticks later sleepTime : Nat} (hle : ticks ≤ later)
    (hsleep : sleepTime < 2 ^ 32)
    (hs : s.AtTick ticks) (hcall : sleepCurrent sleepTime s = .ok u) (ht : t.AtTick later)
    (hkept : t.sleepingDeadline s.currentRunning = u.sleepingDeadline s.currentRunning) :
    (t.due s.currentRunning = true ↔ sleepTime < trueTime later - trueTime ticks) ↔
      ¬ (min 0 (slip ticks later sleepTime) < (trueTime later : Int) - trueTime ticks - sleepTime ∧
        (trueTime later : Int) - trueTime ticks - sleepTime ≤ max 0
        (slip ticks later sleepTime)) := by
  have hmono : trueTime ticks ≤ trueTime later := Nat.div_le_div_right (Nat.mul_le_mul_left 15 hle)
  have hdeadline : t.sleepingDeadline s.currentRunning = (word (15 * ticks) / 5000 + sleepTime) % 2
      ^ 32 := by
    rw [hkept, sleepCurrent_deadline hcall, getTimer, hs]
    rfl
  have htimer : getTimer t.toTasks = word (15 * later) / 5000 := by rw [getTimer, ht]
  have hsmall : word (15 * ticks) / 5000 < 2 ^ 32 :=
    (Nat.div_le_self _ _).trans_lt (Nat.mod_lt _ (Nat.two_pow_pos 32))
  rw [Tasks.due, decide_eq_true_iff, hdeadline, htimer]
  simp only [slip, clockLag]
  generalize trueTime ticks = a at *
  generalize trueTime later = b at *
  generalize word (15 * ticks) / 5000 = x at *
  generalize word (15 * later) / 5000 = y at *
  split_ifs with hsum <;> omega

theorem slip_eq_zero {ticks later sleepTime : Nat} (hle : ticks ≤ later)
    (hlater : 15 * later < 2 ^ 32)
    (hsum : trueTime ticks + sleepTime < 2 ^ 32) : slip ticks later sleepTime = 0 := by
  have hlag : ∀ n ≤ later, clockLag n = 0 := fun n hn => by
    rw [clockLag, word, Nat.mod_eq_of_lt (by omega), trueTime]
    exact sub_self _
  rw [slip, hlag later le_rfl, hlag ticks hle, word, Nat.mod_eq_of_lt (by omega)]
  rw [trueTime] at hsum
  rw [if_pos hsum]
  rfl

theorem deadline_missed (ticks sleepTime : Nat) :
    ∃ later ≥ ticks, sleepTime < trueTime later - trueTime ticks ∧
    ∀ (t : Kernel) (p : PcbRef), t.AtTick later → t.due p = false := by
  refine ⟨2 ^ 32 * (ticks + sleepTime + 1), by omega, ?_, fun t p ht => ?_⟩
  · simp only [trueTime]
    omega
  · have hzero : getTimer t.toTasks = 0 := by
      rw [getTimer, ht, word, ← Nat.mul_assoc, Nat.mul_comm 15, Nat.mul_assoc, Nat.mul_mod_right]
    rw [Tasks.due, hzero]
    exact decide_eq_false (Nat.not_lt_zero _)

end Clock

theorem sleep_expires_after_two :
    ∃ s u t : Kernel, s.AtTick 0 ∧ sleepCurrent 1 s = .ok u ∧ t.AtTick 667 ∧
    t.sleepingDeadline s.currentRunning = u.sleepingDeadline s.currentRunning ∧
    t.due s.currentRunning = true := by
  obtain ⟨s, hs, htest⟩ := exists_of_endsIn
    (t := fun s : Kernel => s.timeElapsed = 0 ∧ endsIn (fun _ => true) (sleepCurrent 1 s) = true)
    (r := execute 1 [.schedule, .spawn ⟨1⟩]) (by decide +kernel)
  obtain ⟨hzero, hcall⟩ := of_decide_eq_true htest
  obtain ⟨u, hu, -⟩ := exists_of_endsIn hcall
  let t : Kernel := { u with timeElapsed := word (15 * 667) }
  have hs : s.AtTick 0 := hzero
  have ht : t.AtTick 667 := rfl
  refine ⟨s, u, t, hs, hu, ht, rfl, ?_⟩
  refine ((sleep_expires_iff (t := t) (by omega) (by omega) hs hu ht rfl).mpr ?_).mpr (by decide)
  rw [slip_eq_zero (by omega) (by omega) (by decide)]
  decide

theorem sleep_early_and_lost :
    (∃ s u : Kernel, s.AtTick 334 ∧ sleepCurrent (2 ^ 32 - 1) s = .ok u ∧ u.AtTick 334 ∧
      u.due s.currentRunning = true ∧ ¬ 2 ^ 32 - 1 < trueTime 334 - trueTime 334) ∧
    ∃ s u t : Kernel, s.AtTick 286331153 ∧ sleepCurrent 1 s = .ok u ∧ t.AtTick 286332153 ∧
      t.sleepingDeadline s.currentRunning = u.sleepingDeadline s.currentRunning ∧
      t.due s.currentRunning = false ∧ 1 < trueTime 286332153 - trueTime 286331153 := by
  constructor
  · obtain ⟨s, -, htest⟩ := exists_of_endsIn
      (t := fun s : Kernel => endsIn (fun u : Kernel => u.timeElapsed = 5010 ∧
        u.due s.currentRunning = true)
        (sleepCurrent (2 ^ 32 - 1) { s with timeElapsed := 5010 }))
      (r := execute 1 [.schedule, .spawn ⟨1⟩]) (by decide +kernel)
    obtain ⟨u, hu, htest⟩ := exists_of_endsIn htest
    obtain ⟨htime, hdue⟩ := of_decide_eq_true htest
    exact ⟨{ s with timeElapsed := 5010 }, u, rfl, hu, htime, hdue, by decide⟩
  · obtain ⟨s, -, htest⟩ := exists_of_endsIn
      (t := fun s : Kernel => endsIn (fun u : Kernel =>
          Tasks.due { u.toTasks with timeElapsed := word (15 * 286332153) } s.currentRunning =
            false)
        (sleepCurrent 1 { s with timeElapsed := word (15 * 286331153) }))
      (r := execute 1 [.schedule, .spawn ⟨1⟩]) (by decide +kernel)
    obtain ⟨u, hu, htest⟩ := exists_of_endsIn htest
    exact ⟨{ s with timeElapsed := word (15 * 286331153) }, u,
      { u with timeElapsed := word (15 * 286332153) }, rfl, hu,
      rfl, rfl, of_decide_eq_true htest, by decide⟩

end Ucas.Sched

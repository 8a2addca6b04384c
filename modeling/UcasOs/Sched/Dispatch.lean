import UcasOs.Sched.Kill
import UcasOs.Lib.Refinement

/-! `scheduler` itself: where the operations call it, when it returns, and whom it picks. The time
stands still while it runs, so a sleeper that is not due when it is called is never woken by it. -/

namespace Ucas.Sched
open Ucas.Lib Relation

variable {s t u : Kernel} {a b : Abs} {x : Act} {L : Lists} {op : Op}

def saved (k : Resume) (s : Kernel) : Kernel :=
  { s with kernelContext := Function.update s.kernelContext s.currentRunning k }

def acquireCall (m : MutexRef) (s : Kernel) : Except Fault (Option Kernel) :=
  if s.mutexStatus m = .locked then do
    return some (saved (.acquire m) (← whenRunning (blockCurrent (.mutex m)) s))
  else .ok none

def exitCall (s : Kernel) : Except Fault (Option Kernel) := do
  let p := s.currentRunning
  let s ← releaseAll p s
  let s ← drain (.waiting p) (wakeHead (.waiting p)) fuel s
  return some (saved .user { s with status := Function.update s.status p .exited })

def killCall (n : Nat) (s : Kernel) : Except Fault (Option Kernel) :=
  match slotOfPid n s.toTasks with
  | none => .ok none
  | some i => do
    let s ← killPcb (.task i) s
    if s.pid s.currentRunning = n then return some (saved .user s) else return none

def execCall (op : Op) (s : Kernel) : Except Fault (Option Kernel) :=
  match op with
  | .schedule => .ok (some (saved .user s))
  | .tick recv => do
    return some (saved .user (← checkRecvBlockQueue recv
      { s with timeElapsed := word (s.timeElapsed + 15) }))
  | .exit => exitCall s
  | .waitpid n =>
    match slotOfPid n s.toTasks with
    | none => .ok none
    | some i =>
      if s.status (.task i) ≠ .exited then do
        return some (saved .user (← blockCurrent (.waiting (.task i)) s))
      else .ok none
  | .kill n => killCall n s
  | .sleep t => do return some (saved .user (← whenRunning (sleepCurrent t) s))
  | .block q => do return some (saved .user (← whenRunning (blockCurrent q) s))
  | .acquire m => acquireCall m s
  | .down n =>
    if s.semValue n = 0 then do
      return some (saved .user (← blockCurrent (.semaphore n) s)) else .ok none
  | .wait m c => do
    let s ← blockCurrent (.condition c) s
    let s ← doMutexLockRelease m s
    return some (saved (.acquire m) s)
  | .barrierWait b =>
    if s.notArriveNum b = 1 then .ok none
    else do
      let s := { s with notArriveNum := Function.update s.notArriveNum b (s.notArriveNum b - 1) }
      return some (saved .user (← blockCurrent (.barrier b) s))
  | _ => .ok none

def schedulerCall (op : Op) (s : Kernel) : Except Fault (Option Kernel) :=
  match s.kernelContext s.currentRunning with
  | .user => execCall op s
  | .acquire m =>
    if op = .resume then
      acquireCall m
        { s with kernelContext := Function.update s.kernelContext s.currentRunning .user }
    else .ok none

theorem bind_doScheduler {r : Except Fault Kernel} {k : Resume}
    (h : (do return some (saved k (← r)) : Except Fault (Option Kernel)) = .ok (some t)) :
    r >>= doScheduler k = scheduler t := by
  obtain ⟨s₁, hs₁, ht⟩ := exists_of_bind_ok h
  cases ht
  rw [hs₁]
  rfl

theorem doMutexLockAcquire_eq_scheduler {m : MutexRef} (h : acquireCall m s = .ok (some t)) :
    doMutexLockAcquire m s = scheduler t := by
  unfold acquireCall at h
  split at h
  · next hm =>
    rw [doMutexLockAcquire, if_pos hm]
    exact bind_doScheduler h
  · cases h

theorem doExit_eq_scheduler (h : exitCall s = .ok (some t)) : doExit s = scheduler t := by
  obtain ⟨s₁, hs₁, h⟩ := exists_of_bind_ok h
  obtain ⟨s₂, hs₂, h⟩ := exists_of_bind_ok h
  cases h
  rw [doExit, hs₁, ok_bind, finishExit, hs₂]
  rfl

theorem doKill_eq_scheduler {n : Nat} (h : killCall n s = .ok (some t)) :
    doKill n s = scheduler t := by
  unfold killCall at h
  unfold doKill
  cases hslot : slotOfPid n s.toTasks with
  | none => simp [hslot] at h
  | some i =>
    rw [hslot] at h
    obtain ⟨s₁, hs₁, h⟩ := exists_of_bind_ok h
    split at h
    · next hpid =>
      cases h
      simp only [hs₁, ok_bind, if_pos hpid]
      rfl
    · cases h

theorem exec_eq_scheduler (h : execCall op s = .ok (some t)) : exec op s = scheduler t := by
  cases op with
  | schedule =>
    cases h
    rfl
  | tick recv => exact bind_doScheduler h
  | exit => exact doExit_eq_scheduler h
  | waitpid n =>
    simp only [execCall] at h
    rw [exec, doWaitpid]
    cases hslot : slotOfPid n s.toTasks with
    | none => simp [hslot] at h
    | some i =>
      simp only [hslot] at h ⊢
      split at h
      · next hlive =>
        rw [if_pos hlive]
        exact bind_doScheduler h
      · cases h
  | kill n => exact doKill_eq_scheduler h
  | sleep t => exact bind_doScheduler h
  | block q => exact bind_doScheduler h
  | acquire m => exact doMutexLockAcquire_eq_scheduler h
  | down n =>
    simp only [execCall] at h
    rw [exec, doSemaphoreDown]
    split at h
    · next hzero =>
      rw [if_pos hzero]
      exact bind_doScheduler h
    · cases h
  | wait m c =>
    obtain ⟨s₁, hs₁, h⟩ := exists_of_bind_ok h
    rw [exec, doConditionWait, hs₁]
    exact bind_doScheduler h
  | barrierWait b =>
    simp only [execCall] at h
    rw [exec, doBarrierWait]
    split at h
    · cases h
    · next hone =>
      rw [if_neg hone]
      exact bind_doScheduler h
  | _ => cases h

theorem step_eq_scheduler (h : schedulerCall op s = .ok (some t)) : step op s = scheduler t := by
  unfold schedulerCall at h
  unfold step
  cases hctx : s.kernelContext s.currentRunning with
  | user =>
    rw [hctx] at h
    exact exec_eq_scheduler h
  | acquire m =>
    simp only [hctx] at h ⊢
    split at h
    · next hop =>
      rw [if_pos hop]
      exact doMutexLockAcquire_eq_scheduler h
    · cases h

/-- Somebody can run when `scheduler` is called: the running process itself, a ready one, or a
sleeper whose deadline has passed. -/
def Runnable (s : Kernel) : Prop :=
  (s.status s.currentRunning = .running ∧ s.entryPoint s.currentRunning ≠ 0) ∨
    s.members .ready ≠ [] ∨
    ∃ p ∈ s.members .sleeping, s.sleepingDeadline p < getTimer s.toTasks

/-- The process that runs in `t'` was in the ready queue when `scheduler`, called in `t`, chose. -/
def Picks (t t' : Kernel) : Prop :=
  ∃ u, yieldCurrent t >>= checkSleeping = .ok u ∧ t'.currentRunning ∈ u.members .ready ∧
    (u.status t'.currentRunning = .ready ∨ u.status t'.currentRunning = .created) ∧
    t'.status t'.currentRunning = .running

section Choice

theorem awaitReady_hangs (hL : Family s.queues L) (hready : L .ready = [])
    (hsleep : L .sleeping ≠ [])
    (hdue : ∀ p ∈ L .sleeping, getTimer s.toTasks ≤ s.sleepingDeadline p) (n : Nat) :
    awaitReady n s = .error .hang := by
  have hloop : (queueIsEmpty .ready s.queues && !queueIsEmpty .sleeping s.queues) = true := by
    simp [(queueIsEmpty_iff hL).mpr hready, mt (queueIsEmpty_iff hL).mp hsleep]
  have hcheck : checkSleeping s = .ok s := by
    have hfind : (L .sleeping).find? (fun p => s.sleepingDeadline p < getTimer s.toTasks) = none :=
        by
      simpa [List.find?_eq_none] using hdue
    rw [checkSleeping, queueFind, findFrom_eq hL (Family.length_lt hL), hfind]
    rfl
  induction n with
  | zero => rw [awaitReady, if_pos hloop]
  | succ n ih =>
    rw [awaitReady, if_pos hloop, hcheck]
    exact ih

theorem awaitReady_of_ready (hL : Family s.queues L) (hready : L .ready ≠ []) (n : Nat) :
    awaitReady n s = .ok s := by
  have hne : queueIsEmpty .ready s.queues = false := by
    simpa using mt (queueIsEmpty_iff hL).mp hready
  cases n <;> simp [awaitReady, hne]

theorem dispatch_picks (hL : Family s.queues L) (hready : L .ready ≠ []) :
    ∃ t, dispatch s = .ok t ∧ t.currentRunning ∈ L .ready ∧ t.status t.currentRunning = .running :=
    by
  obtain ⟨p, hp, hclimb⟩ := queueClimb_family hL hready s.priority
  obtain ⟨h', hrun, -⟩ := queueRemove_family hL hp
  rw [dispatch, hclimb, ok_bind, hrun]
  exact ⟨_, rfl, hp, by simp⟩

theorem dispatch_of_empty (hL : Family s.queues L) (hready : L .ready = []) :
    dispatch s = .error .nullDeref := by
  have hhead : (s.queues.queue .ready).head = none := by
    rw [(hL.repr _).head, hready]
    rfl
  rw [dispatch, queueClimb, hhead]
  rfl

theorem checkSleeping_cases (hL : Family s.queues L) :
    ((∀ p ∈ L .sleeping, getTimer s.toTasks ≤ s.sleepingDeadline p) ∧ checkSleeping s = .ok s) ∨
      ∃ p ∈ L .sleeping, s.sleepingDeadline p < getTimer s.toTasks ∧
        ∃ u, checkSleeping s = .ok u ∧ Sim u (act (s.toTasks.abs L) (.wake .sleeping p)) := by
  rw [checkSleeping, queueFind, findFrom_eq hL (Family.length_lt hL)]
  cases hf : (L .sleeping).find? fun p => s.sleepingDeadline p < getTimer s.toTasks with
  | none =>
    left
    exact ⟨by simpa [List.find?_eq_none] using hf, rfl⟩
  | some p =>
    right
    have hp := List.mem_of_find?_eq_some hf
    exact ⟨p, hp, by simpa using List.find?_some hf, wake_sim hL hp⟩

theorem yieldCurrent_cases (hL : Family s.queues L) (hT : Tidy (s.toTasks.abs L)) :
    ∃ t L', yieldCurrent s = .ok t ∧ Family t.queues L' ∧ t.sleepingDeadline = s.sleepingDeadline ∧
      t.timeElapsed = s.timeElapsed ∧ L' .sleeping = L .sleeping ∧
      (L' .ready ≠ [] ↔ (s.status s.currentRunning = .running ∧ s.entryPoint s.currentRunning ≠ 0) ∨
        L .ready ≠ []) ∧
      ReflTransGen (Trans fun _ x => Switch x) (s.toTasks.abs L) (t.toTasks.abs L') := by
  simp only [yieldCurrent]
  split
  · next hrun =>
    split
    · next hentry =>
      obtain ⟨h', hpush, hfam⟩ := queuePush_family (q := QueueRef.ready) hL (hT.running _ hrun)
      simp only [makeReady, hpush, ok_bind, pure_eq_ok]
      refine ⟨_, _, rfl, hfam, rfl, rfl, by simp, by simp [hrun, hentry], ?_⟩
      exact .single ⟨.preempt, ⟨hrun, hentry⟩, trivial, rfl⟩
    · next hentry =>
      refine ⟨_, L, rfl, hL, rfl, rfl, rfl, by simp [hentry], ?_⟩
      exact .single ⟨.retire, ⟨hrun, not_not.mp hentry⟩, trivial, rfl⟩
  · next hrun => exact ⟨_, L, rfl, hL, rfl, rfl, rfl, by simp [hrun], .refl⟩

theorem readied (hL : Family s.queues L) (hT : Tidy (s.toTasks.abs L)) :
    ∃ u L', yieldCurrent s >>= checkSleeping = .ok u ∧ Family u.queues L' ∧
      (L' .ready ≠ [] ↔ Runnable s) ∧
      (L' .ready = [] → L' .sleeping = L .sleeping ∧
        ∀ p ∈ L' .sleeping, getTimer u.toTasks ≤ u.sleepingDeadline p) ∧
      ReflTransGen (Trans fun _ x => Switch x) (s.toTasks.abs L) (u.toTasks.abs L') := by
  obtain ⟨t, L₁, hyield, hL₁, hdead, htime, hsleep, hready, hpath⟩ := yieldCurrent_cases hL hT
  have htimer : getTimer t.toTasks = getTimer s.toTasks := by rw [getTimer, getTimer, htime]
  rw [hyield, ok_bind]
  obtain ⟨hnone, hcheck⟩ | ⟨p, hp, hdue, u, hcheck, L₂, hL₂, hact⟩ := checkSleeping_cases hL₁
  · refine ⟨t, L₁, hcheck, hL₁, ?_, fun _ => ⟨hsleep, hnone⟩, hpath⟩
    rw [hready, Runnable, members_eq hL, members_eq hL, ← hsleep, ← hdead, ← htimer]
    have hnodue : ¬ ∃ p ∈ L₁ .sleeping, t.sleepingDeadline p < getTimer t.toTasks := by
      rintro ⟨p, hp, hlt⟩
      exact absurd (hnone p hp) (Nat.not_le.mpr hlt)
    simp [hnodue]
  · have hlists : enqueue .ready p (unlink .sleeping p L₁) = L₂ := congrArg Abs.lists hact
    have hmem : p ∈ L₂ .ready := by
      rw [← hlists, mem_enqueue]
      exact .inr ⟨rfl, rfl⟩
    have hne : L₂ .ready ≠ [] := List.ne_nil_of_mem hmem
    refine ⟨u, L₂, hcheck, hL₂, ?_, fun h => absurd h hne, hpath.tail ⟨.wake .sleeping p, hp,
      trivial, hact.symm⟩⟩
    rw [Runnable, members_eq hL, members_eq hL, ← hsleep, ← hdead, ← htimer]
    exact ⟨fun _ => .inr (.inr ⟨p, hp, hdue⟩), fun _ => hne⟩

theorem scheduler_eq (h : yieldCurrent s >>= checkSleeping = .ok u) :
    scheduler s = awaitReady fuel u >>= dispatch := by
  obtain ⟨t, ht, hu⟩ := exists_of_bind_ok h
  rw [scheduler, ht, ok_bind, hu, ok_bind]

theorem scheduler_of_not_runnable (hL : Family s.queues L) (hT : Tidy (s.toTasks.abs L))
    (h : ¬ Runnable s) : ∀ t, scheduler s ≠ .ok t := by
  obtain ⟨u, L', hu, hL', hready, hidle, -⟩ := readied hL hT
  have hnone : L' .ready = [] := not_not.mp fun hne => h (hready.mp hne)
  intro t ht
  rw [scheduler_eq hu] at ht
  by_cases hsleep : L' .sleeping = []
  · have hawait : awaitReady fuel u = .ok u := by
      simp [fuel, numMaxTask, awaitReady, (queueIsEmpty_iff hL').mpr hsleep]
    rw [hawait, ok_bind, dispatch_of_empty hL' hnone] at ht
    cases ht
  · rw [awaitReady_hangs hL' hnone hsleep (hidle hnone).2] at ht
    cases ht

theorem scheduler_of_runnable (hL : Family s.queues L) (hT : Tidy (s.toTasks.abs L))
    (h : Runnable s) :
    ∃ t u L', scheduler s = .ok t ∧ yieldCurrent s >>= checkSleeping = .ok u ∧ Family u.queues L' ∧
      ReflTransGen (Trans fun _ x => Switch x) (s.toTasks.abs L) (u.toTasks.abs L') ∧
      t.currentRunning ∈ L' .ready ∧ t.status t.currentRunning = .running := by
  obtain ⟨u, L', hu, hL', hready, -, hpath⟩ := readied hL hT
  have hne := hready.mpr h
  obtain ⟨t, ht, hmem, hrun⟩ := dispatch_picks hL' hne
  refine ⟨t, u, L', ?_, hu, hL', hpath, hmem, hrun⟩
  rw [scheduler_eq hu, awaitReady_of_ready hL' hne, ok_bind, ht]

end Choice

def QueuedReady (a : Abs) : Prop :=
  ∀ p ∈ a.lists .ready, a.status p = .ready ∨ a.status p = .created

theorem queuedReady_act (hT : Tidy a) (h : QueuedReady a) (hx : Enabled a x)
    (hb : x ≠ .block .ready) :
    QueuedReady (act a x) := by
  intro p hp
  -- A process that was in the queue before keeps its status, since the act moves another one.
  have hkeep : ∀ {r st}, p ∈ a.lists .ready → r ≠ p →
      (a.setStatus r st).status p = .ready ∨ (a.setStatus r st).status p = .created := by
    intro r st hm hr
    rw [Abs.setStatus_of_ne (Ne.symm hr)]
    exact h p hm
  have hout : ∀ {r}, Unqueued a.lists r → p ∈ a.lists .ready → r ≠ p := fun hr hm e => hr _ (e ▸ hm)
  have hcur : a.status a.current = .running → p ∈ a.lists .ready → a.current ≠ p := fun hr =>
    hout (hT.running _ hr)
  have henq : ∀ {L : Lists} {q r}, p ∈ enqueue q r L .ready → ¬ (.ready = q ∧ p = r) →
      p ∈ L .ready :=
    fun hm hne => (mem_enqueue.mp hm).resolve_right hne
  cases x with
  | wake q r =>
    by_cases hpr : p = r
    · left
      simp [act, Abs.setStatus, hpr]
    · have hm := henq (L := unlink q r a.lists) (q := .ready) (r := r) hp fun e => hpr e.2
      exact hkeep ((hT.apart.mem_unlink hx).mp hm).1 (Ne.symm hpr)
  | block q =>
    have hm := henq (L := a.lists) hp fun e => hb (e.1 ▸ rfl)
    exact hkeep hm (hout hx.1 hm)
  | sleep =>
    have hm := henq (L := a.lists) (q := .sleeping) (r := a.current) hp (by simp)
    exact hkeep hm (hcur hx hm)
  | preempt =>
    by_cases hpc : p = a.current
    · left
      simp [act, Abs.setStatus, hpc]
    · exact hkeep (henq (L := a.lists) (q := .ready) (r := a.current) hp fun e => hpc e.2)
        (Ne.symm hpc)
  | retire => exact hkeep hp (hcur hx.1 hp)
  | dispatch r =>
    have hm : p ∈ unlink .ready r a.lists .ready := hp
    obtain ⟨hm, hpr⟩ := (hT.apart.mem_unlink hx.1).mp hm
    exact hkeep hm (Ne.symm hpr)
  | spawn i n e =>
    by_cases hpi : p = .task i
    · right
      simp [act, Abs.setStatus, hpi]
    · have hm := henq (L := Function.update a.lists (.waiting (.task i)) []) (q := .ready)
        (r := .task i) hp fun e => hpi e.2
      exact hkeep (mem_update_nil hm) (Ne.symm hpi)
  | exit => exact hkeep hp (hout hx.1 hp)
  | leave q r => exact h p ((hT.apart.mem_unlink hx).mp hp).1
  | die r => exact hkeep hp (hout hx hp)
  | clear q => exact h p (mem_update_nil hp)
  | setMutex m st => exact h p hp
  | record r l n => exact h p hp

theorem queuedReady_path {A : Abs → Act → Prop} (hT : Tidy a) (h : QueuedReady a)
    (hA : ∀ b x, A b x → x ≠ .block .ready) (hpath : ReflTransGen (Trans A) a b) :
    QueuedReady b := by
  refine (invariant_of_path (I := fun b => Tidy b ∧ QueuedReady b) ?_ ⟨hT, h⟩ hpath).2
  rintro b _ ⟨hTb, hb⟩ ⟨x, hx, hAx, rfl⟩
  exact ⟨tidy_act hTb hx, queuedReady_act hTb hb hx (hA b x hAx)⟩

theorem May.block_ready (hop : AnyCall s op) (h : May s a op b x) : x ≠ .block .ready := by
  rintro rfl
  rcases h.cause with rfl | hq
  · exact hop.1 rfl
  · exact hq.1 rfl

section Call
variable {A : Abs → Act → Prop}

theorem Sim.saved (h : Sim s a) (k : Resume) : Sim (saved k s) a := by
  obtain ⟨L, hL, rfl⟩ := h
  exact ⟨L, hL, rfl⟩

theorem Runs.call {r : Except Fault Kernel} {k : Resume} (h : Runs A a r)
    (hr : (do return some (saved k (← r)) : Except Fault (Option Kernel)) = .ok (some t)) :
    ∃ b, ReflTransGen (Trans A) a b ∧ Sim t b := by
  obtain ⟨s₁, hs₁, ht⟩ := exists_of_bind_ok hr
  cases ht
  obtain ⟨b, hpath, hsim⟩ := Simulates.of_ok h hs₁
  exact ⟨b, hpath, hsim.saved k⟩

theorem acquireCall_runs {m : MutexRef} (hL : Family s.queues L) (hT : Tidy (s.toTasks.abs L))
    (hb : s.mutexStatus m = .locked → A (s.toTasks.abs L) (.block (.mutex m)))
    (h : acquireCall m s = .ok (some t)) :
    ∃ b, ReflTransGen (Trans A) (s.toTasks.abs L) b ∧ Sim t b := by
  unfold acquireCall at h
  split at h
  · next hm => exact (whenRunning_block_runs hL hT (hb hm)).call h
  · cases h

theorem exitCall_runs (hL : Family s.queues L) (hT : Tidy (s.toTasks.abs L))
    (hS : Settled (s.toTasks.abs L))
    (h : exitCall s = .ok (some t)) :
    ∃ b, ReflTransGen (Trans (May s (s.toTasks.abs L) .exit)) (s.toTasks.abs L) b ∧ Sim t b := by
  obtain ⟨s₁, hs₁, h⟩ := exists_of_bind_ok h
  obtain ⟨s₂, hs₂, h⟩ := exists_of_bind_ok h
  cases h
  let A : Abs → Act → Prop := fun a x => May s (s.toTasks.abs L) .exit a x ∧ Quiet a x
  have hrel : Runs A (s.toTasks.abs L) (releaseAll s.currentRunning s) :=
    releaseAll_runs hL fun m _ _ h => ⟨.inr (.inl ⟨m, h⟩), h.quiet⟩
  obtain ⟨_, hpath₁, L₁, hL₁, rfl⟩ := Simulates.of_ok hrel hs₁
  have hdrain : Runs A (s₁.toTasks.abs L₁) (drain (.waiting s.currentRunning) (wakeHead _) fuel
      s₁) :=
    drain_fuel_runs (wakeHead_wakes _) (by simp) (fun _ p => ⟨.inr (.inr (.inl ⟨p, rfl⟩)), trivial⟩)
      hL₁
  obtain ⟨_, hpath₂, L₂, hL₂, rfl⟩ := Simulates.of_ok hdrain hs₂
  have hpath := hpath₁.trans hpath₂
  obtain ⟨hT₂, hS₂, hcur⟩ := quiet_path hT hS hpath
  have hcur : s₂.currentRunning = s.currentRunning := hcur
  have hen : Enabled (s₂.toTasks.abs L₂) .exit := by
    refine ⟨hS₂.unqueued hT₂, ?_⟩
    rw [show (s₂.toTasks.abs L₂).current = s.currentRunning from hcur]
    exact (queueIsEmpty_iff hL₂).mp (drain_isEmpty hs₂)
  have hmay : ReflTransGen (Trans (May s (s.toTasks.abs L) .exit)) (s.toTasks.abs L)
      (s₂.toTasks.abs L₂) :=
    path_left hpath
  refine ⟨_, hmay.tail ⟨.exit, hen, .inr (.inr (.inr rfl)), rfl⟩, ⟨L₂, hL₂, ?_⟩⟩
  rw [← hcur]
  rfl

theorem execCall_runs (hL : Family s.queues L) (hT : Tidy (s.toTasks.abs L))
    (hS : Settled (s.toTasks.abs L))
    (hop : Covered s (s.toTasks.abs L) op) (h : execCall op s = .ok (some t)) :
    ∃ b, ReflTransGen (Trans (May s (s.toTasks.abs L) op)) (s.toTasks.abs L) b ∧ Sim t b := by
  have hblock : ∀ q, May s (s.toTasks.abs L) op (s.toTasks.abs L) (.block q) →
      Runs (May s (s.toTasks.abs L) op) (s.toTasks.abs L) (blockCurrent q s) :=
    fun q hq => blockCurrent_runs hL (hS.unqueued hT) hS.not_exited hq
  cases op with
  | schedule =>
    cases h
    exact ⟨_, .refl, Sim.saved ⟨L, hL, rfl⟩ _⟩
  | tick recv =>
    refine Runs.call (r := checkRecvBlockQueue recv _) ?_ h
    rw [checkRecvBlockQueue]
    split
    · next hr =>
        exact doUnblockOne_runs (s := { s with timeElapsed := word (s.timeElapsed + 15) }) hL
          fun p => .inr ⟨hr, p, rfl⟩
    · exact Simulates.ok ⟨L, hL, rfl⟩
  | exit => exact exitCall_runs hL hT hS h
  | waitpid n =>
    simp only [execCall] at h
    cases hslot : slotOfPid n s.toTasks with
    | none => simp [hslot] at h
    | some i =>
      simp only [hslot] at h
      split at h
      · next hlive => exact (hblock _ (.inr ⟨i, hslot, hlive, rfl, rfl⟩)).call h
      · cases h
  | kill n =>
    simp only [execCall, killCall] at h
    cases hslot : slotOfPid n s.toTasks with
    | none => simp [hslot] at h
    | some i =>
      rw [hslot] at h
      obtain ⟨s₁, hs₁, h⟩ := exists_of_bind_ok h
      have hkill := killPcb_runs (A := May s (s.toTasks.abs L) (.kill n)) hL hT (hop i hslot)
        (fun _ q => .inr (.inr ⟨i, hslot, .inl ⟨q, rfl⟩⟩)) (fun _ =>
          .inr (.inr ⟨i, hslot, .inr (.inl rfl)⟩))
        (fun m _ _ h => .inr (.inl ⟨m, h⟩)) fun _ r => .inr (.inr ⟨i, hslot, .inr (.inr ⟨r, rfl⟩)⟩)
      obtain ⟨b, hpath, hsim, -⟩ := Simulates.of_ok hkill hs₁
      split at h
      · cases h
        exact ⟨b, path_left hpath, hsim.saved _⟩
      · cases h
  | sleep n => exact (whenRunning_sleep_runs n hL hT (.inr rfl)).call h
  | block q => exact (whenRunning_block_runs hL hT (.inr ⟨rfl, rfl⟩)).call h
  | acquire m => exact acquireCall_runs hL hT (fun hm => .inr (.inr ⟨hm, rfl, rfl⟩)) h
  | down n =>
    simp only [execCall] at h
    split at h
    · exact (hblock _ (.inr rfl)).call h
    · cases h
  | wait m c =>
    obtain ⟨s₁, hs₁, h⟩ := exists_of_bind_ok h
    obtain ⟨_, hpath₁, L₁, hL₁, rfl⟩ := Simulates.of_ok (hblock (.condition c) (.inr (.inl rfl)))
      hs₁
    have hrel := doMutexLockRelease_runs (A := May s (s.toTasks.abs L) (.wait m c)) hL₁
      fun _ _ h => .inr (.inr h)
    obtain ⟨b, hpath₂, hsim⟩ := hrel.call h
    exact ⟨b, hpath₁.trans hpath₂, hsim⟩
  | barrierWait b =>
    simp only [execCall] at h
    split at h
    · cases h
    · refine Runs.call (r := blockCurrent (.barrier b) _) ?_ h
      exact blockCurrent_runs
        (s := { s with notArriveNum := Function.update s.notArriveNum b (s.notArriveNum b - 1) })
        hL (hS.unqueued hT) hS.not_exited (.inr (.inl rfl))
  | _ => cases h

theorem schedulerCall_runs (hs : SimS s a) (hT : Tidy a) (hop : Covered s a op)
    (h : schedulerCall op s = .ok (some t)) :
    ∃ b, ReflTransGen (Trans (May s a op)) a b ∧ Sim t b := by
  obtain ⟨⟨L, hL, rfl⟩, hS⟩ := hs
  unfold schedulerCall at h
  cases hctx : s.kernelContext s.currentRunning with
  | user =>
    rw [hctx] at h
    exact execCall_runs hL hT hS hop h
  | acquire m =>
    rw [hctx] at h
    simp only at h
    split at h
    · next hres =>
      subst hres
      exact acquireCall_runs
        (s := { s with kernelContext := Function.update s.kernelContext s.currentRunning .user })
        hL hT (fun hm => .inr ⟨m, hctx, .inr ⟨hm, rfl, rfl⟩⟩) h
    · cases h

end Call

theorem reachable_queuedReady (h : Reachable KillsFind s) :
    ∃ a, SimS s a ∧ Tidy a ∧ Sleepers (fun _ => False) a ∧ QueuedReady a := by
  obtain ⟨e, s₀, -, hinit, hrun⟩ := h
  induction hrun with
  | refl =>
    obtain ⟨hs, hT⟩ := initPcb_sim hinit
    refine ⟨_, hs, hT, sleepers_initAbs, fun p hp => .inr ?_⟩
    simp [initAbs, (mem_initAbs.mp hp).2]
  | tail _ hstep ih =>
    obtain ⟨a, hs, hT, hz, hq⟩ := ih
    obtain ⟨op, hop, hrun⟩ := hstep
    obtain ⟨a', hs', hT', hz'⟩ := killsFind_step hs hT hz hop hrun
    obtain ⟨a'', hs'', -, hq'⟩ := step_invariant hs hT (hop.covered hs.1 hz) hq
      (fun _ _ hTb hb hx hm => queuedReady_act hTb hb hx (hm.block_ready hop.1)) hrun
    exact ⟨a', hs', hT', hz', hs''.1.unique hs'.1 ▸ hq'⟩

/-- Wherever an operation calls `scheduler`, it returns exactly if somebody can run then, and the
process that runs afterwards was in the ready queue. -/
theorem scheduler_returns_iff_runnable (h : Reachable KillsFind s) (hop : KillsFind s op)
    (hcall : schedulerCall op s = .ok (some t)) :
    (∃ t', scheduler t = .ok t' ∧ Picks t t') ↔ Runnable t := by
  obtain ⟨a, hs, hT, hz, hq⟩ := reachable_queuedReady h
  obtain ⟨b, hpath, L, hL, rfl⟩ := schedulerCall_runs hs hT (hop.covered hs.1 hz) hcall
  have hTb := tidy_path hT hpath
  have hqb := queuedReady_path hT hq (fun _ _ hm => hm.block_ready hop.1) hpath
  constructor
  · rintro ⟨t', ht', -⟩
    by_contra hrun
    exact scheduler_of_not_runnable hL hTb hrun t' ht'
  · intro hrun
    obtain ⟨t', u, L', ht', hu, hL', hswitch, hmem, hst⟩ := scheduler_of_runnable hL hTb hrun
    have hqu : QueuedReady (u.toTasks.abs L') :=
      queuedReady_path hTb hqb (by rintro _ _ hx rfl; exact hx) hswitch
    refine ⟨t', ht', u, hu, ?_, hqu _ hmem, hst⟩
    rw [members_eq hL']
    exact hmem

theorem scheduler_returns_after_tick :
    ∃ s t t', Reachable KillsFind s ∧ schedulerCall (.tick false) s = .ok (some t) ∧
      scheduler t = .ok t' ∧ Picks t t' := by
  obtain ⟨s, hs, htest⟩ := exists_of_endsIn
    (t := fun s : Kernel => endsIn (fun o : Option Kernel => o.any fun t : Kernel =>
      t.members .ready ≠ [])
      (schedulerCall (.tick false) s)) (r := execute 1 [.schedule, .spawn ⟨1⟩]) (by decide +kernel)
  obtain ⟨o, ho, htest⟩ := exists_of_endsIn htest
  cases o with
  | none => cases htest
  | some t =>
    have hready : t.members .ready ≠ [] := of_decide_eq_true htest
    have hreach : Reachable KillsFind s :=
      reachable_execute (by decide) (by simp [KillsFind, AnyCall]) hs
    obtain ⟨t', ht', hpick⟩ := (scheduler_returns_iff_runnable hreach
      (by simp [KillsFind, AnyCall]) ho).mpr (.inr (.inl hready))
    exact ⟨s, t, t', hreach, ho, ht', hpick⟩

theorem scheduler_without_ready :
    ∃ s t t', Reachable KillsFind s ∧ schedulerCall (.sleep 1) s = .ok (some t) ∧
      (∃ u, yieldCurrent t >>= checkSleeping = .ok u ∧ ∀ n, awaitReady n u = .error .hang) ∧
      schedulerCall .exit s = .ok (some t') ∧ ¬ Runnable t' ∧ ∀ t'', scheduler t' ≠ .ok t'' := by
  let asleep (t : Kernel) : Bool := t.status t.currentRunning ≠ .running ∧ t.members .ready = [] ∧
    t.members .sleeping = [shell] ∧ getTimer t.toTasks ≤ t.sleepingDeadline shell
  let empty (t : Kernel) : Bool := t.status t.currentRunning ≠ .running ∧ t.members .ready = [] ∧
    t.members .sleeping = []
  obtain ⟨s, hs, htest⟩ := exists_of_endsIn
    (t := fun s : Kernel => endsIn (fun o : Option Kernel => o.any asleep) (schedulerCall (.sleep 1)
      s) &&
      endsIn (fun o : Option Kernel => o.any empty) (schedulerCall .exit s))
    (r := execute 1 [.schedule]) (by decide +kernel)
  obtain ⟨hsleep, hexit⟩ := Bool.and_eq_true_iff.mp htest
  obtain ⟨o, ho, ht⟩ := exists_of_endsIn hsleep
  obtain ⟨o', ho', ht'⟩ := exists_of_endsIn hexit
  obtain ⟨t, rfl, ht⟩ := (Option.any_eq_true _ _).mp ht
  obtain ⟨t', rfl, ht'⟩ := (Option.any_eq_true _ _).mp ht'
  obtain ⟨hnot, hready, hmem, hdue⟩ := of_decide_eq_true ht
  obtain ⟨hnot', hready', hmem'⟩ := of_decide_eq_true ht'
  have hreach : Reachable KillsFind s :=
    reachable_execute (by decide) (by simp [KillsFind, AnyCall]) hs
  obtain ⟨a, hsim, hT, -, -⟩ := reachable_queuedReady hreach
  refine ⟨s, t, t', hreach, ho, ?_, ho', ?_⟩
  · have hcov : Covered s a (.sleep 1) := trivial
    obtain ⟨_, hpath, L, hL, rfl⟩ := schedulerCall_runs hsim hT hcov ho
    obtain ⟨u, L', hu, hL', hiff, hidle, -⟩ := readied hL (tidy_path hT hpath)
    have hnone : L' .ready = [] := by
      by_contra hne
      have hrun := hiff.mp hne
      simp only [Runnable, hnot, hready, hmem] at hrun
      simp [Nat.not_lt.mpr hdue] at hrun
    obtain ⟨hsame, hlate⟩ := hidle hnone
    rw [members_eq hL] at hmem
    exact ⟨u, hu, awaitReady_hangs hL' hnone (by simp [hsame, hmem]) hlate⟩
  · have hcov : Covered s a .exit := trivial
    obtain ⟨_, hpath, L, hL, rfl⟩ := schedulerCall_runs hsim hT hcov ho'
    have hrun : ¬ Runnable t' := by simp [Runnable, hnot', hready', hmem']
    exact ⟨hrun, scheduler_of_not_runnable hL (tidy_path hT hpath) hrun⟩

end Ucas.Sched

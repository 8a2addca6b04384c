import UcasOs.Sched.Objects

/-! Mutual exclusion. The holders of a mutex are recorded outside the kernel: the processes whose
`do_mutex_lock_acquire` has returned and that have not called `do_mutex_lock_release` since. -/

namespace Ucas.Sched
open Ucas.Lib Relation

variable {s s' : Kernel} {a b : Abs} {x : Act} {m : MutexRef} {op : Op}

def acquiring (s : Kernel) : Op → Option MutexRef
  | .acquire m => some m
  | .resume =>
    match s.kernelContext s.currentRunning with
    | .acquire m => some m
    | .user => none
  | _ => none

/-- The call that takes the kernel from `s` to `s'`. An acquire has returned when its caller is back
in user mode. -/
def holdersAfter (m : MutexRef) (s : Kernel) (op : Op) (s' : Kernel) (holders : Finset PcbRef) :
    Finset PcbRef :=
  if acquiring s op = some m ∧ s'.kernelContext s.currentRunning = .user then
    insert s.currentRunning holders
  else match op with
    | .release m' | .wait m' _ => if m' = m then holders.erase s.currentRunning else holders
    | _ => holders

structure Config where
  kernel : Kernel
  holders : Finset PcbRef

def MutexCall (m : MutexRef) (c : Config) : Op → Prop
  | .exit | .kill _ => False
  | .mutexInit m' => m' ≠ m
  | .block q | .unblockOne q | .unblockAll q => q ≠ .ready ∧ q ≠ .sleeping ∧ q ≠ .mutex m
  | .release m' | .wait m' _ => m' = m → c.kernel.currentRunning ∈ c.holders
  | _ => True

def mutexStep (m : MutexRef) (c : Config) (op : Op) : Except Fault Config := do
  let s' ← step op c.kernel
  return ⟨s', holdersAfter m c.kernel op s' c.holders⟩

def MutexReachable (m : MutexRef) (c : Config) : Prop :=
  ∃ e s₀, initPcb e = .ok s₀ ∧
    ReflTransGen (fun c c' => ∃ op, MutexCall m c op ∧ mutexStep m c op = .ok c') ⟨s₀, ∅⟩ c

def Spares (m : MutexRef) (x : Act) : Prop := (∀ st, x ≠ .setMutex m st) ∧ x ≠ .block (.mutex m)

theorem Switch.spares (h : Switch x) : Spares m x := by
  refine ⟨?_, ?_⟩
  · rintro st rfl
    exact h
  · rintro rfl
    exact h

theorem Releases.spares {m' : MutexRef} (hm : m' ≠ m) (h : Releases m' a x) : Spares m x := by
  refine ⟨?_, ?_⟩
  · rintro st rfl
    exact hm h.1.symm
  · rintro rfl
    exact h

theorem Acquires.spares {m' : MutexRef} {p : PcbRef} (hm : m' ≠ m) (h : Acquires m' p x) :
    Spares m x := by
  refine ⟨?_, ?_⟩
  · rintro st rfl
    exact hm h.1.symm
  · rintro rfl
    exact h

def Elsewhere (m : MutexRef) (s : Kernel) (op : Op) : Prop :=
  acquiring s op ≠ some m ∧ op ≠ .release m ∧ ∀ c, op ≠ .wait m c

section Holders
variable {h : Finset PcbRef}

theorem returned_iff (hacq : acquiring s op = some m) (hrun : step op s = .ok s') :
    s'.kernelContext s.currentRunning = .user ↔ s.mutexStatus m = .unlocked := by
  rw [(step_objects hrun).kernelContext]
  cases op with
  | acquire m' =>
    cases hacq
    obtain ⟨huser, -⟩ := step_exec (by simp) hrun
    cases hm : s.mutexStatus m <;> simp [objectsAfter, hm, huser]
  | resume =>
    cases hctx : s.kernelContext s.currentRunning with
    | user => simp [acquiring, hctx] at hacq
    | acquire m' =>
      obtain rfl : m' = m := by simpa [acquiring, hctx] using hacq
      cases hm : s.mutexStatus m' <;> simp [objectsAfter, hctx, hm]
  | _ => cases hacq

theorem holdersAfter_acquired (hacq : acquiring s op = some m) (hm : s.mutexStatus m = .unlocked)
    (hrun : step op s = .ok s') : holdersAfter m s op s' h = insert s.currentRunning h := by
  unfold holdersAfter
  exact if_pos ⟨hacq, (returned_iff hacq hrun).mpr hm⟩

theorem holdersAfter_blocked (hacq : acquiring s op = some m) (hm : s.mutexStatus m = .locked)
    (hrun : step op s = .ok s') : holdersAfter m s op s' h = h := by
  unfold holdersAfter
  rw [if_neg (by simp [returned_iff hacq hrun, hm])]
  cases op <;> first | rfl | cases hacq

theorem holdersAfter_released (hop : op = .release m ∨ ∃ c, op = .wait m c) :
    holdersAfter m s op s' h = h.erase s.currentRunning := by
  rcases hop with rfl | ⟨c, rfl⟩ <;> simp [holdersAfter, acquiring]

theorem holdersAfter_elsewhere (he : Elsewhere m s op) : holdersAfter m s op s' h = h := by
  obtain ⟨hacq, hrel, hwait⟩ := he
  unfold holdersAfter
  rw [if_neg fun e => hacq e.1]
  split
  · next m' => exact if_neg fun e => hrel (by rw [e])
  · next m' c => exact if_neg fun e => hwait c (by rw [e])
  · rfl

end Holders

theorem May.spares {h : Finset PcbRef} (hop : MutexCall m ⟨s, h⟩ op) (he : Elsewhere m s op)
    (hx : May s a op b x) : Spares m x := by
  rcases hx with hx | hx
  · exact hx.spares
  obtain ⟨hacq, hrel, hwait⟩ := he
  have hwake : ∀ q p, Spares m (.wake q p) := fun _ _ => ⟨by simp, by simp⟩
  have hblock : ∀ q, q ≠ .mutex m → Spares m (.block q) := fun _ hq => ⟨by simp, by simpa using hq⟩
  have hclear : ∀ q, Spares m (.clear q) := fun _ => ⟨by simp, by simp⟩
  cases op with
  | schedule => exact hx.elim
  | tick recv =>
    obtain ⟨-, p, rfl⟩ := hx
    exact hwake _ _
  | resume =>
    obtain ⟨m', hctx, hx⟩ := hx
    have hne : m' ≠ m := by
      rintro rfl
      exact hacq (by simp [acquiring, hctx])
    rcases hx with hx | ⟨-, -, rfl⟩
    · exact hx.spares hne
    · exact hblock _ (by simpa using hne)
  | spawn t =>
    obtain ⟨i, -, rfl⟩ := hx
    exact ⟨by simp, by simp⟩
  | exit => exact hop.elim
  | waitpid n =>
    obtain ⟨i, -, -, -, rfl⟩ := hx
    exact hblock _ (by simp)
  | kill n => exact hop.elim
  | sleep t =>
    subst hx
    exact ⟨by simp, by simp⟩
  | block q =>
    obtain ⟨-, rfl⟩ := hx
    exact hblock _ hop.2.2
  | unblockOne q =>
    obtain ⟨p, rfl⟩ := hx
    exact hwake _ _
  | unblockAll q =>
    obtain ⟨p, rfl⟩ := hx
    exact hwake _ _
  | mutexInit m' =>
    rcases hx with ⟨-, rfl⟩ | rfl
    · exact hclear _
    · exact ⟨fun st e => hop (by cases e; rfl), by simp⟩
  | acquire m' =>
    have hne : m' ≠ m := fun e => hacq (by simp [acquiring, e])
    rcases hx with hx | ⟨-, -, rfl⟩
    · exact hx.spares hne
    · exact hblock _ (by simpa using hne)
  | release m' => exact hx.spares fun e => hrel (by rw [e])
  | semaphoreInit n val =>
    obtain ⟨-, rfl⟩ := hx
    exact hclear _
  | up n =>
    obtain ⟨p, rfl⟩ := hx
    exact hwake _ _
  | down n =>
    subst hx
    exact hblock _ (by simp)
  | conditionInit c =>
    obtain ⟨-, rfl⟩ := hx
    exact hclear _
  | wait m' c =>
    rcases hx with rfl | hx
    · exact hblock _ (by simp)
    · exact hx.spares fun e => hwait c (by rw [e])
  | signal c =>
    obtain ⟨p, rfl⟩ := hx
    exact hwake _ _
  | broadcast c =>
    obtain ⟨p, rfl⟩ := hx
    exact hwake _ _
  | barrierInit b goal =>
    obtain ⟨-, rfl⟩ := hx
    exact hclear _
  | barrierWait b =>
    rcases hx with rfl | ⟨p, rfl⟩
    · exact hblock _ (by simp)
    · exact hwake _ _

section Steps
variable (hs : SimS s a) (hT : Tidy a)
include hs hT

theorem elsewhere_step {h : Finset PcbRef} (hop : MutexCall m ⟨s, h⟩ op) (he : Elsewhere m s op)
    (hrun : step op s = .ok s') : ∃ a', SimS s' a' ∧ Tidy a' ∧ a'.mutexStatus m = a.mutexStatus m ∧
      (a.lists (.mutex m) = [] → a'.lists (.mutex m) = []) := by
  have hcov : Covered s a op := by
    cases op with
    | kill n => exact hop.elim
    | unblockAll q => exact hop.1
    | _ => trivial
  rcases step_runs hs hT hcov with hd | hr
  · rw [hrun] at hd
    cases hd
  · rw [hrun] at hr
    obtain ⟨a', hpath, hsim⟩ := hr
    have hspare := fun b x hx => May.spares (a := a) (b := b) (x := x) hop he hx
    exact ⟨a', hsim, tidy_path hT hpath, mutexStatus_path (fun b x hx => (hspare b x hx).1) hpath,
      waiters_path (by simp) (by simp) (fun b x hx => (hspare b x hx).2) hpath⟩

end Steps

theorem doMutexLockAcquire_locks {L : Lists} (hL : Family s.queues L) (hT : Tidy (s.toTasks.abs L))
    (hS : Settled (s.toTasks.abs L)) (hrun : doMutexLockAcquire m s = .ok s') :
    ∃ a', SimS s' a' ∧ Tidy a' ∧ a'.mutexStatus m = .locked := by
  have hr : RunsS (fun _ x => x ≠ .setMutex m .unlocked) (s.toTasks.abs L) (doMutexLockAcquire m
      s) := by
    refine doMutexLockAcquire_runs hL hT hS (fun _ x hx => ?_) (fun _ => by simp) fun _ x hx => ?_
    · exact (hx.spares (m := m)).1 _
    · rintro rfl
      exact absurd hx.2 (by simp)
  by_cases hm : s.mutexStatus m = .locked
  · rw [hrun] at hr
    obtain ⟨a', hpath, hsim⟩ := hr
    refine ⟨a', hsim, tidy_path hT hpath, ?_⟩
    refine invariant_of_path (I := fun b => b.mutexStatus m = .locked) ?_ hm hpath
    rintro b _ hb ⟨x, -, hx, rfl⟩
    by_cases hset : x = .setMutex m .locked
    · simp [hset, act]
    · refine (mutexStatus_act fun st => ?_).trans hb
      cases st <;> assumption
  · rw [hrun] at hr
    obtain ⟨a', hpath, hsim⟩ := hr
    refine ⟨a', hsim, tidy_path hT hpath, ?_⟩
    rw [doMutexLockAcquire, if_neg hm] at hrun
    cases hrun
    obtain ⟨⟨L', -, rfl⟩, -⟩ := hsim
    simp only [Tasks.abs, recordLock]
    split <;> simp

theorem step_acquiring (hacq : acquiring s op = some m) (hrun : step op s = .ok s') :
    ∃ k, doMutexLockAcquire m { s with kernelContext := k } = .ok s' := by
  rw [step] at hrun
  cases hctx : s.kernelContext s.currentRunning with
  | user =>
    cases op with
    | acquire m' =>
      cases hacq
      exact ⟨s.kernelContext, by simpa only [hctx, exec] using hrun⟩
    | _ => simp [acquiring, hctx] at hacq
  | acquire m' =>
    cases op with
    | resume =>
      have hm : m' = m := by simpa [acquiring, hctx] using hacq
      subst hm
      rw [hctx] at hrun
      exact ⟨_, hrun⟩
    | _ => simp [hctx] at hrun

theorem acquire_step (hs : SimS s a) (hT : Tidy a) (hacq : acquiring s op = some m)
    (hrun : step op s = .ok s') : ∃ a', SimS s' a' ∧ Tidy a' ∧ a'.mutexStatus m = .locked := by
  obtain ⟨⟨L, hL, rfl⟩, hS⟩ := hs
  obtain ⟨k, hrun⟩ := step_acquiring hacq hrun
  exact doMutexLockAcquire_locks (s := { s with kernelContext := k }) hL hT hS hrun

theorem Trans.weaken {A : Abs → Act → Prop} {b c : Abs} (h : Trans A b c) :
    Trans (fun _ _ => True) b c := by
  obtain ⟨x, hx, -, hc⟩ := h
  exact ⟨x, hx, trivial, hc⟩

theorem doConditionWait_frees {L : Lists} {c : Nat} (hL : Family s.queues L)
    (hT : Tidy (s.toTasks.abs L))
    (hS : Settled (s.toTasks.abs L)) (hm : s.mutexStatus m = .locked) :
    Simulates (fun s' b => SimS s' b ∧ b.mutexStatus m = .unlocked ∧ b.lists (.mutex m) = [])
      (Trans fun _ _ => True) (fun a => a.lists .ready = []) (s.toTasks.abs L) (doConditionWait m c
      s) := by
  have hblock := (blockCurrent_runs (A := fun _ x => x = .block (.condition c)) hL (hS.unqueued hT)
    hS.not_exited rfl).weaken (S := fun s' b => Sim s' b ∧ b.mutexStatus m = .locked)
    (fun _ _ => Trans.weaken) fun _ _ _ hpath hsim =>
      ⟨hsim, (mutexStatus_path (by rintro a x rfl st; simp) hpath).trans hm⟩
  refine hblock.bind ?_
  rintro s₁ _ - hpath₁ ⟨⟨L₁, hL₁, rfl⟩, hm₁⟩
  have hT₁ := tidy_path hT hpath₁
  refine (doMutexLockRelease_frees hL₁ hm₁ fun _ _ _ => trivial).bind ?_
  rintro s₂ _ - hpath₂ ⟨⟨L₂, hL₂, rfl⟩, hfree, hnil⟩
  refine (doScheduler_runs (A := fun _ x => Switch x) (fun _ _ h => h) _ hL₂
    (tidy_path hT₁ hpath₂)).weaken
    (fun _ _ => Trans.weaken) fun _ _ _ hpath hsim => ⟨hsim, ?_, ?_⟩
  · exact (mutexStatus_path (fun _ _ h => (h.spares (m := m)).1) hpath).trans hfree
  · exact waiters_path (by simp) (by simp) (fun _ _ h => (h.spares (m := m)).2) hpath hnil

theorem release_step (hs : SimS s a) (hT : Tidy a) (hm : s.mutexStatus m = .locked)
    (hop : op = .release m ∨ ∃ c, op = .wait m c) (hrun : step op s = .ok s') :
    ∃ a', SimS s' a' ∧ Tidy a' ∧ a'.mutexStatus m = .unlocked ∧ a'.lists (.mutex m) = [] := by
  obtain ⟨⟨L, hL, rfl⟩, hS⟩ := hs
  rw [step] at hrun
  cases hctx : s.kernelContext s.currentRunning with
  | acquire m' =>
    rw [hctx] at hrun
    rcases hop with rfl | ⟨c, rfl⟩ <;> cases hrun
  | user =>
    rw [hctx] at hrun
    rcases hop with rfl | ⟨c, rfl⟩
    · have hr := doMutexLockRelease_frees (A := fun a x => Releases m a x ∧ Quiet a x) hL hm
        fun _ _ h => ⟨h, h.quiet⟩
      rw [show doMutexLockRelease m s = .ok s' from hrun] at hr
      obtain ⟨a', hpath, hsim, hfree, hnil⟩ := hr
      obtain ⟨hT', hS', -⟩ := quiet_path hT hS hpath
      exact ⟨a', ⟨hsim, hS'⟩, hT', hfree, hnil⟩
    · have hr := doConditionWait_frees (c := c) hL hT hS hm
      rw [show doConditionWait m c s = .ok s' from hrun] at hr
      obtain ⟨a', hpath, hsim, hfree, hnil⟩ := hr
      exact ⟨a', hsim, tidy_path hT hpath, hfree, hnil⟩

structure Excluded (m : MutexRef) (c : Config) : Prop where
  unique : ∀ p ∈ c.holders, ∀ p' ∈ c.holders, p = p'
  locked : c.kernel.mutexStatus m = .locked ↔ c.holders.Nonempty
  nobodyWaits : c.kernel.mutexStatus m = .unlocked → c.kernel.members (.mutex m) = []

theorem Excluded.holders_empty {c : Config} (h : Excluded m c)
    (hm : c.kernel.mutexStatus m = .unlocked) :
    c.holders = ∅ := by
  refine Finset.not_nonempty_iff_eq_empty.mp fun hne => ?_
  simp [h.locked.mpr hne] at hm

theorem Excluded.holders_erase {c : Config} {p : PcbRef} (h : Excluded m c) (hp : p ∈ c.holders) :
    c.holders.erase p = ∅ := by
  refine Finset.eq_empty_of_forall_notMem fun p' hp' => ?_
  exact (Finset.mem_erase.mp hp').1 (h.unique p' (Finset.mem_erase.mp hp').2 p hp)

theorem Sim.mutexStatus (h : Sim s a) : s.mutexStatus = a.mutexStatus := by
  obtain ⟨L, -, rfl⟩ := h
  rfl

theorem mutexStep_ok {c c' : Config} (h : mutexStep m c op = .ok c') :
    step op c.kernel = .ok c'.kernel ∧
      c'.holders = holdersAfter m c.kernel op c'.kernel c.holders := by
  obtain ⟨s, hs, hc⟩ := exists_of_bind_ok h
  cases hc
  exact ⟨hs, rfl⟩

theorem excluded_step {c c' : Config} {a : Abs} (hs : SimS c.kernel a) (hT : Tidy a)
    (h : Excluded m c)
    (hop : MutexCall m c op) (hstep : mutexStep m c op = .ok c') :
    ∃ a', SimS c'.kernel a' ∧ Tidy a' ∧ Excluded m c' := by
  obtain ⟨hrun, hh⟩ := mutexStep_ok hstep
  by_cases hacq : acquiring c.kernel op = some m
  · obtain ⟨a', hs', hT', hl⟩ := acquire_step hs hT hacq hrun
    have hlocked : c'.kernel.mutexStatus m = .locked := hs'.1.mutexStatus ▸ hl
    refine ⟨a', hs', hT', ?_⟩
    cases hm : c.kernel.mutexStatus m with
    | unlocked =>
      rw [holdersAfter_acquired hacq hm hrun, h.holders_empty hm] at hh
      exact ⟨by simp [hh], by simp [hlocked, hh], by simp [hlocked]⟩
    | locked =>
      rw [holdersAfter_blocked hacq hm hrun] at hh
      refine ⟨hh ▸ h.unique, ?_, by simp [hlocked]⟩
      rw [hh, hlocked, ← h.locked, hm]
  · by_cases hrel : op = .release m ∨ ∃ n, op = .wait m n
    · have hcur : c.kernel.currentRunning ∈ c.holders := by
        rcases hrel with rfl | ⟨n, rfl⟩ <;> exact hop rfl
      obtain ⟨a', hs', hT', hfree, hnil⟩ := release_step hs hT (h.locked.mpr ⟨_, hcur⟩) hrel hrun
      rw [holdersAfter_released hrel, h.holders_erase hcur] at hh
      rw [← hs'.1.mutexStatus] at hfree
      exact ⟨a', hs', hT', by simp [hh], by simp [hh, hfree], fun _ => (hs'.1.members _).trans hnil⟩
    · have he : Elsewhere m c.kernel op :=
        ⟨hacq, fun e => hrel (.inl e), fun n e => hrel (.inr ⟨n, e⟩)⟩
      obtain ⟨a', hs', hT', hst, hnil⟩ := elsewhere_step hs hT hop he hrun
      rw [holdersAfter_elsewhere he] at hh
      rw [← hs.1.mutexStatus, ← hs'.1.mutexStatus] at hst
      refine ⟨a', hs', hT', hh ▸ h.unique, by rw [hh, hst, h.locked], fun hm => ?_⟩
      refine (hs'.1.members _).trans (hnil ?_)
      exact (hs.1.members _).symm.trans (h.nobodyWaits (hst.symm.trans hm))

theorem excluded_of_step {h : Finset PcbRef} (hs : SimS s a) (hT : Tidy a) (hex : Excluded m ⟨s, h⟩)
    (hop : MutexCall m ⟨s, h⟩ op) (hrun : step op s = .ok s') :
    Excluded m ⟨s', holdersAfter m s op s' h⟩ := by
  have hstep : mutexStep m ⟨s, h⟩ op = .ok ⟨s', holdersAfter m s op s' h⟩ := by
    simp only [mutexStep, hrun, bind, Except.bind]
    rfl
  obtain ⟨-, -, -, hex'⟩ := excluded_step hs hT hex hop hstep
  exact hex'

/-- In every interleaving at most one process holds the mutex, it is locked exactly while somebody
holds it, and nobody waits for it while it is free. -/
theorem mutex_excludes {c : Config} (h : MutexReachable m c) : Excluded m c := by
  obtain ⟨e, s₀, hinit, hrun⟩ := h
  suffices ∃ a, SimS c.kernel a ∧ Tidy a ∧ Excluded m c by
    obtain ⟨-, -, -, h⟩ := this
    exact h
  induction hrun with
  | refl =>
    obtain ⟨hs, hT⟩ := initPcb_sim hinit
    have hmem : s₀.members (.mutex m) = [] := by
      rw [hs.1.members]
      simp [initAbs, enqueue]
    have hst : s₀.mutexStatus m = .unlocked := by rw [hs.1.mutexStatus]; rfl
    exact ⟨_, hs, hT, by simp, by simp [hst], fun _ => hmem⟩
  | tail _ hstep ih =>
    obtain ⟨a, hs, hT, h⟩ := ih
    obtain ⟨op, hop, hrun⟩ := hstep
    exact excluded_step hs hT h hop hrun

/-- The waiter is woken by the release, finds the lock taken again and goes back to sleep. -/
def reblocking : List Op :=
  [.schedule, .spawn ⟨1⟩, .acquire 0, .tick false, .acquire 0, .release 0, .acquire 0, .tick false,
    .resume]

def reblockingCall (c : Config) (op : Op) : Bool :=
  op ∈ reblocking ∧ (op = .release 0 → c.kernel.currentRunning ∈ c.holders)

theorem mutexCall_of_reblockingCall {c : Config} {op : Op} (h : reblockingCall c op = true) :
    MutexCall 0 c op := by
  obtain ⟨hop, hholds⟩ := of_decide_eq_true h
  simp only [reblocking, List.mem_cons, List.not_mem_nil, or_false] at hop
  rcases hop with rfl | rfl | rfl | rfl | rfl | rfl | rfl | rfl | rfl
  all_goals simp_all [MutexCall]

theorem mutex_excludes_reblocked :
    ∃ c, MutexReachable 0 c ∧ c.kernel.members (.mutex 0) = [.task ⟨0, by decide⟩] ∧
      c.holders = {shell} ∧ c.kernel.mutexStatus 0 = .locked ∧ Excluded 0 c := by
  obtain ⟨s₀, hinit, hops⟩ := exists_of_endsIn (r := initPcb 1)
    (t := fun s₀ => endsIn (fun c : Config => c.kernel.members (.mutex 0) = [.task ⟨0, by decide⟩] ∧
      c.holders = {shell})
      (reblocking.foldlM (checked reblockingCall .disabled (mutexStep 0)) ⟨s₀, ∅⟩))
    (by decide +kernel)
  obtain ⟨c, hrun, htest⟩ := exists_of_endsIn hops
  obtain ⟨hmem, hh⟩ := of_decide_eq_true htest
  have hreach : MutexReachable 0 c := by
    refine ⟨1, s₀, hinit, ReflTransGen.mono ?_ _ _ (path_of_checked hrun)⟩
    exact fun c _ ⟨op, hop, hstep⟩ => ⟨op, mutexCall_of_reblockingCall hop, hstep⟩
  have hex := mutex_excludes hreach
  exact ⟨c, hreach, hmem, hh, hex.locked.mpr (by simp [hh]), hex⟩

end Ucas.Sched

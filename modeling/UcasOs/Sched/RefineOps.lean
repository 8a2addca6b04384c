import UcasOs.Sched.Refine

/-! What each operation of the kernel may do, as acts of the life cycle. -/

namespace Ucas.Sched
open Ucas.Lib Relation

variable {s : Kernel} {L : Lists} {A : Abs → Act → Prop} {a : Abs} {p : PcbRef} {q : QueueRef}
  {m : MutexRef}

section Locks

def Releases (m : MutexRef) (a : Abs) : Act → Prop
  | .setMutex m' st => m' = m ∧ st = .unlocked
  | .record p _ _ => p ∈ a.lists (.mutex m)
  | .wake q _ => q = .mutex m
  | _ => False

theorem eraseWaiters_path {l : List PcbRef} (hl : ∀ p ∈ l, p ∈ L (.mutex m))
    (hA : ∀ a x, Releases m a x → A a x) :
    (l.foldl (eraseWaiter m) s).queues = s.queues ∧
      (l.foldl (eraseWaiter m) s).mutexStatus = s.mutexStatus ∧
      ReflTransGen (Trans A) (s.toTasks.abs L) ((l.foldl (eraseWaiter m) s).toTasks.abs L) := by
  induction l generalizing s with
  | nil => exact ⟨rfl, rfl, .refl⟩
  | cons p l ih =>
    obtain ⟨hq, hst, hpath⟩ := ih (s := eraseWaiter m s p) fun p hp => hl p (List.mem_cons_of_mem _
      hp)
    exact ⟨hq, hst, .head ⟨.record p _ _, trivial, hA _ _ (hl p List.mem_cons_self), rfl⟩ hpath⟩

theorem doMutexLockRelease_frees (hL : Family s.queues L) (hm : s.mutexStatus m = .locked)
    (hA : ∀ a x, Releases m a x → A a x) :
    Simulates (fun s' b => Sim s' b ∧ b.mutexStatus m = .unlocked ∧ b.lists (.mutex m) = [])
      (Trans A) (fun a => a.lists .ready = []) (s.toTasks.abs L) (doMutexLockRelease m s) := by
  have hitems : queueItems (.mutex m) s.queues = .ok (L (.mutex m)) := by
    rw [queueItems, (hL.repr _).head, itemsFrom_seg (hL.repr _).seg (Family.length_lt hL)]
  rw [doMutexLockRelease, if_pos hm]
  simp only [hitems, bind, Except.bind]
  let s₁ : Kernel := { s with mutexStatus := Function.update s.mutexStatus m .unlocked }
  let s₂ : Kernel := (L (.mutex m)).foldl (eraseWaiter m) s₁
  obtain ⟨hq, hst, hpath⟩ := eraseWaiters_path (s := s₁) (fun p (hp : p ∈ L (.mutex m)) => hp) hA
  refine Simulates.step ⟨.setMutex m .unlocked, trivial, hA _ _ ⟨rfl, rfl⟩, rfl⟩ (.after hpath ?_)
  have hL₂ : Family s₂.queues L := hq ▸ hL
  refine (drain_fuel_runs (A := fun a x => A a x ∧ ∃ p, x = .wake (.mutex m) p) (s := s₂)
    (doUnblockOne_wakes (.mutex m)) (by simp) (fun _ p => ⟨hA _ _ rfl, p, rfl⟩) hL₂).weaken
    (fun _ _ ⟨x, hx, h, hb⟩ => ⟨x, hx, h.1, hb⟩) fun s' b hrun hpath hsim => ⟨hsim, ?_, ?_⟩
  · rw [mutexStatus_path (by rintro a x ⟨-, p, rfl⟩ st; simp) hpath]
    simp [Tasks.abs, s₂, hst, s₁]
  · exact (queueIsEmpty_iff hsim.lists).mp (drain_isEmpty hrun)

theorem doMutexLockRelease_runs (hL : Family s.queues L) (hA : ∀ a x, Releases m a x → A a x) :
    Runs A (s.toTasks.abs L) (doMutexLockRelease m s) := by
  by_cases hm : s.mutexStatus m = .locked
  · exact (doMutexLockRelease_frees hL hm hA).weaken (fun _ _ => id) fun _ _ _ _ h => h.1
  · rw [doMutexLockRelease, if_neg hm]
    exact Simulates.ok ⟨L, hL, rfl⟩

theorem Releases.quiet {x : Act} {b : Abs} (h : Releases m a x) : Quiet b x := by
  cases x <;> trivial

def Acquires (m : MutexRef) (p : PcbRef) : Act → Prop
  | .setMutex m' st => m' = m ∧ st = .locked
  | .record p' _ _ => p' = p
  | _ => False

theorem Acquires.quiet {x : Act} {b : Abs} (h : Acquires m p x) : Quiet b x := by
  cases x <;> trivial

theorem recordLock_runs (hL : Family s.queues L) (hA : ∀ a x, Acquires m p x → A a x) :
    Runs A (s.toTasks.abs L) (.ok (recordLock p m s)) := by
  rw [recordLock]
  split
  · exact Simulates.ok ⟨L, hL, rfl⟩
  · exact .of_act (.record p _ _) trivial (hA _ _ rfl) ⟨L, hL, rfl⟩

theorem doMutexLockAcquire_runs (hL : Family s.queues L) (hT : Tidy (s.toTasks.abs L))
    (hS : Settled (s.toTasks.abs L)) (hA : ∀ a x, Switch x → A a x)
    (hb : s.mutexStatus m = .locked → A (s.toTasks.abs L) (.block (.mutex m)))
    (hl : ∀ a x, Acquires m s.currentRunning x → A a x) :
    RunsS A (s.toTasks.abs L) (doMutexLockAcquire m s) := by
  rw [doMutexLockAcquire]
  split
  · next hm => exact doBlock_runs hA _ hL hT (hb hm)
  · have hl' : ∀ a x, Acquires m s.currentRunning x → A a x ∧ Quiet a x :=
      fun a x h => ⟨hl a x h, h.quiet⟩
    refine Runs.settle hT hS (Simulates.step ⟨.setMutex m .locked, trivial, hl' _ _ ⟨rfl, rfl⟩, rfl⟩
      ?_)
    exact recordLock_runs (s := { s with mutexStatus := Function.update s.mutexStatus m .locked })
      hL hl'

end Locks

section Blocking
variable (hA : ∀ a x, Switch x → A a x)
include hA

theorem blockThenScheduler_runs (hL : Family s.queues L) (hT : Tidy (s.toTasks.abs L))
    (hS : Settled (s.toTasks.abs L)) (hb : A (s.toTasks.abs L) (.block q)) :
    RunsS A (s.toTasks.abs L) (blockCurrent q s >>= doScheduler .user) :=
  (blockCurrent_runs hL (hS.unqueued hT) hS.not_exited hb).thenScheduler hA .user hT

theorem doSemaphoreDown_runs (n : Nat) (hL : Family s.queues L) (hT : Tidy (s.toTasks.abs L))
    (hS : Settled (s.toTasks.abs L)) (hb : A (s.toTasks.abs L) (.block (.semaphore n))) :
    RunsS A (s.toTasks.abs L) (doSemaphoreDown n s) := by
  rw [doSemaphoreDown]
  split
  · exact blockThenScheduler_runs hA hL hT hS hb
  · exact Simulates.ok ⟨⟨L, hL, rfl⟩, hS⟩

theorem doConditionWait_runs (c : Nat) (hL : Family s.queues L) (hT : Tidy (s.toTasks.abs L))
    (hS : Settled (s.toTasks.abs L)) (hb : A (s.toTasks.abs L) (.block (.condition c)))
    (hr : ∀ a x, Releases m a x → A a x) : RunsS A (s.toTasks.abs L) (doConditionWait m c s) := by
  refine (blockCurrent_runs hL (hS.unqueued hT) hS.not_exited hb).bind fun s₁ _ _ hpath ⟨L₁, hL₁,
    h₁⟩ => ?_
  subst h₁
  exact (doMutexLockRelease_runs hL₁ hr).thenScheduler hA _ (tidy_path hT hpath)

theorem doBarrierWait_runs (b : Nat) (hL : Family s.queues L) (hT : Tidy (s.toTasks.abs L))
    (hS : Settled (s.toTasks.abs L)) (hb : A (s.toTasks.abs L) (.block (.barrier b)))
    (hw : ∀ a p, A a (.wake (.barrier b) p)) : RunsS A (s.toTasks.abs L) (doBarrierWait b s) := by
  rw [doBarrierWait]
  split
  · refine Runs.settle hT hS ?_
    refine (drain_fuel_runs (wakeHead_wakes _) (by simp) (fun a p => ⟨hw a p, trivial⟩) hL).bind ?_
    exact fun s₁ _ _ _ ⟨L₁, hL₁, h₁⟩ => Simulates.ok ⟨L₁, hL₁, h₁⟩
  · exact blockThenScheduler_runs
      (s := { s with notArriveNum := Function.update s.notArriveNum b (s.notArriveNum b - 1) })
      hA hL hT hS hb

theorem doWaitpid_runs (n : Nat) (hL : Family s.queues L) (hT : Tidy (s.toTasks.abs L))
    (hS : Settled (s.toTasks.abs L))
    (hb : ∀ i, slotOfPid n s.toTasks = some i → s.status (.task i) ≠ .exited →
      A (s.toTasks.abs L) (.block (.waiting (.task i)))) :
    RunsS A (s.toTasks.abs L) (doWaitpid n s) := by
  rw [doWaitpid]
  split
  · exact Simulates.ok ⟨⟨L, hL, rfl⟩, hS⟩
  · next i hi =>
    split
    · next hlive => exact blockThenScheduler_runs hA hL hT hS (hb i hi hlive)
    · exact Simulates.ok ⟨⟨L, hL, rfl⟩, hS⟩

theorem irqTimer_runs (recv : Bool) (hL : Family s.queues L) (hT : Tidy (s.toTasks.abs L))
    (hw : ∀ p, recv = true → A (s.toTasks.abs L) (.wake .recvBlock p)) :
    RunsS A (s.toTasks.abs L) (irqTimer recv s) := by
  refine Runs.thenScheduler hA .user hT ?_
  rw [checkRecvBlockQueue]
  split
  · next h =>
    exact doUnblockOne_runs (s := { s with timeElapsed := word (s.timeElapsed + 15) }) hL fun p =>
      hw p h
  · exact Simulates.ok ⟨L, hL, rfl⟩

end Blocking

theorem releaseAll_runs (hL : Family s.queues L) (hA : ∀ m a x, Releases m a x → A a x) :
    Runs A (s.toTasks.abs L) (releaseAll p s) := by
  refine Simulates.foldlM ⟨L, hL, rfl⟩ fun s' b i _ _ ⟨L', hL', hb⟩ => ?_
  subst hb
  rw [releaseRecord]
  cases s'.lock p i with
  | none => exact Simulates.ok ⟨L', hL', rfl⟩
  | some m => exact doMutexLockRelease_runs hL' (hA m)

theorem Switch.not_spawn {x : Act} (h : Switch x) : ∀ i n e, x = .spawn i n e → p ≠ .task i := by
  rintro i n e rfl
  exact h.elim

theorem finishExit_runs (hL : Family s.queues L) (hT : Tidy (s.toTasks.abs L))
    (hS : Settled (s.toTasks.abs L)) (hA : ∀ a x, Switch x → A a x)
    (hw : ∀ a p, A a (.wake (.waiting s.currentRunning) p))
    (he : ∀ a, a.current = s.currentRunning → A a .exit) :
    Simulates (fun s' b => SimS s' b ∧ Gone s.currentRunning b) (Trans A) (fun a => a.lists .ready =
    [])
      (s.toTasks.abs L) (finishExit s.currentRunning s) := by
  let p := s.currentRunning
  have hdrain := drain_fuel_runs (A := fun a x => A a x ∧ Quiet a x) (wakeHead_wakes (.waiting p))
    (by simp)
    (fun a p => ⟨hw a p, trivial⟩) hL
  refine (Simulates.weaken hdrain (fun _ _ ⟨x, hx, h, hb⟩ => ⟨x, hx, h.1, hb⟩)
    (S := fun s' b => Sim s' b ∧ Tidy b ∧ Settled b ∧ b.current = p)
    fun _ _ _ hpath h => ⟨h, quiet_path hT hS hpath⟩).bind ?_
  rintro s₁ _ hrun - ⟨⟨L₁, hL₁, rfl⟩, hT₁, hS₁, hp⟩
  have hen : Enabled (s₁.toTasks.abs L₁) .exit :=
    ⟨hS₁.unqueued hT₁, by rw [hp]; exact (queueIsEmpty_iff hL₁).mp (drain_isEmpty hrun)⟩
  have hact : act (s₁.toTasks.abs L₁) .exit =
      Tasks.abs { s₁.toTasks with status := Function.update s₁.status p .exited } L₁ := by
    rw [← hp]
    rfl
  have hT₂ := hact ▸ tidy_act hT₁ hen
  have hgone : Gone p (Tasks.abs { s₁.toTasks with status := Function.update s₁.status p .exited }
      L₁) :=
    ⟨by simp [Tasks.abs], hp ▸ hen.1⟩
  refine Simulates.step ⟨.exit, hen, he _ hp, hact.symm⟩ ?_
  refine (doScheduler_runs (s := { s₁ with status := Function.update s₁.status p .exited })
    (A := fun a x => A a x ∧ Switch x) (fun a x h => ⟨hA a x h, h⟩) .user hL₁ hT₂).weaken
    (fun _ _ ⟨x, hx, h, hb⟩ => ⟨x, hx, h.1, hb⟩) fun _ _ _ hpath hsim => ⟨hsim, ?_⟩
  exact gone_path hT₂ hgone (fun _ _ h => h.2.not_spawn) hpath

theorem doExit_runs (hL : Family s.queues L) (hT : Tidy (s.toTasks.abs L))
    (hS : Settled (s.toTasks.abs L))
    (hA : ∀ a x, Switch x → A a x) (hr : ∀ m a x, Releases m a x → A a x)
    (hw : ∀ a p, A a (.wake (.waiting s.currentRunning) p)) (he : ∀ a, A a .exit) :
    RunsS A (s.toTasks.abs L) (doExit s) := by
  refine ((releaseAll_runs (A := fun a x => A a x ∧ Quiet a x) hL fun m a x h =>
    ⟨hr m a x h, h.quiet⟩).weaken (fun _ _ ⟨x, hx, h, hb⟩ => ⟨x, hx, h.1, hb⟩)
    (S := fun s' b => Sim s' b ∧ Tidy b ∧ Settled b ∧ b.current = s.currentRunning)
    fun _ _ _ hpath h => ⟨h, quiet_path hT hS hpath⟩).bind ?_
  rintro s₁ _ - - ⟨⟨L₁, hL₁, rfl⟩, hT₁, hS₁, hp⟩
  have hp : s₁.currentRunning = s.currentRunning := hp
  rw [← hp]
  exact (finishExit_runs hL₁ hT₁ hS₁ hA (hp ▸ hw) fun a _ => he a).weaken (fun _ _ => id)
    fun _ _ _ _ h => h.1

theorem doSpawn_runs (t : TaskInfo) (hL : Family s.queues L) (hT : Tidy (s.toTasks.abs L))
    (hA : ∀ i, freeSlot s.toTasks = some i →
      A (s.toTasks.abs L) (.spawn i (word (s.lastPid + 1)) t.entryPoint)) :
    Runs A (s.toTasks.abs L) (doSpawn t s) := by
  rw [doSpawn]
  split
  · exact Simulates.ok ⟨L, hL, rfl⟩
  · next i hi =>
    have hex : s.status (.task i) = .exited := by simpa using List.find?_some hi
    have hfam := queueInit_family (q := QueueRef.waiting (.task i)) hL
    obtain ⟨h', hpush, hfam'⟩ := queuePush_family (q := QueueRef.ready) hfam
      (fun q hq => hT.exited _ hex q (mem_update_nil hq))
    simp only [hpush, bind, Except.bind]
    exact .of_act (.spawn i _ _) hex (hA i hi) ⟨_, hfam', rfl⟩

section Kill

def Removable (a : Abs) (p : PcbRef) : Prop :=
  match a.status p with
  | .ready | .created => p ∈ a.lists .ready
  | .sleeping => p ∈ a.lists .sleeping
  | .blocked => ∀ q, p ∈ a.lists q → ∃ k < maxLockNumTotal, q = .mutex k
  | .running | .exited => True

theorem leaveLock_runs (k : Nat) (hL : Family s.queues L) (hA : ∀ a q, A a (.leave q p)) :
    Simulates (fun s' b => Sim s' b ∧ ∀ q, p ∈ b.lists q → p ∈ L q ∧ q ≠ .mutex k) (Trans A)
      (fun a => a.lists .ready = []) (s.toTasks.abs L) (leaveLock p s k) := by
  have hcheck := checkInQueue_eq hL (.mutex k) p
  by_cases hp : p ∈ L (.mutex k)
  · obtain ⟨h', hrun, hfam⟩ := queueRemove_family hL hp
    simp only [leaveLock, hcheck, hp, decide_true, bind, Except.bind, hrun]
    refine ⟨_, .single ⟨.leave (.mutex k) p, hp, hA _ _, rfl⟩, ⟨_, hfam, rfl⟩, fun q hq => ?_⟩
    exact absurd hq ((Family.apart hL).unqueued_unlink hp q)
  · simp only [leaveLock, hcheck, hp, decide_false, bind, Except.bind]
    exact Simulates.ok ⟨⟨L, hL, rfl⟩, fun q hq => ⟨hq, fun e => hp (e ▸ hq)⟩⟩

theorem leaveLocks_runs (hL : Family s.queues L) (hA : ∀ a q, A a (.leave q p)) :
    Simulates (fun s' b => Sim s' b ∧ ∀ q, p ∈ b.lists q → p ∈ L q ∧ ∀ k < maxLockNumTotal,
    q ≠ .mutex k)
      (Trans A) (fun a => a.lists .ready = []) (s.toTasks.abs L) (leaveLocks p s) := by
  have key : ∀ (l : List Nat) (s : Kernel) (L : Lists), Family s.queues L →
      Simulates (fun s' b => Sim s' b ∧ ∀ q, p ∈ b.lists q → p ∈ L q ∧ ∀ k ∈ l, q ≠ .mutex k)
        (Trans A) (fun a => a.lists .ready = []) (s.toTasks.abs L) (l.foldlM (leaveLock p) s) := by
    intro l
    induction l with
    | nil => exact fun s L hL => Simulates.ok ⟨⟨L, hL, rfl⟩, fun q hq => ⟨hq, by simp⟩⟩
    | cons k l ih =>
      intro s L hL
      rw [List.foldlM_cons]
      refine (leaveLock_runs k hL hA).bind ?_
      rintro s₁ _ - - ⟨⟨L₁, hL₁, rfl⟩, h₁⟩
      refine (ih s₁ L₁ hL₁).weaken (fun _ _ => id) fun s₂ b _ _ ⟨hsim, h₂⟩ => ⟨hsim, fun q hq => ?_⟩
      obtain ⟨hq₁, hl⟩ := h₂ q hq
      refine ⟨(h₁ q hq₁).1, fun j hj => ?_⟩
      rcases List.mem_cons.mp hj with rfl | hj
      · exact (h₁ q hq₁).2
      · exact hl j hj
  refine (key _ s L hL).weaken (fun _ _ => id) fun s' b _ _ ⟨hsim, h⟩ => ⟨hsim, fun q hq =>
    ⟨(h q hq).1, ?_⟩⟩
  exact fun k hk => (h q hq).2 k (List.mem_range.mpr hk)

theorem leaveQueue_runs (hL : Family s.queues L) (hT : Tidy (s.toTasks.abs L))
    (hp : Removable (s.toTasks.abs L) p) (hA : ∀ a q, A a (.leave q p)) :
    Simulates (fun s' b => Sim s' b ∧ Unqueued b.lists p) (Trans A)
      (fun a => a.lists .ready = []) (s.toTasks.abs L) (leaveQueue p s) := by
  have hleave : ∀ q, p ∈ L q → Simulates (fun s' b => Sim s' b ∧ Unqueued b.lists p) (Trans A)
      (fun a => a.lists .ready = []) (s.toTasks.abs L)
      (do return { s with queues := ← queueRemove q p s.queues } : Except Fault Kernel) := by
    intro q hq
    obtain ⟨h', hrun, hfam⟩ := queueRemove_family hL hq
    rw [hrun]
    exact ⟨_, .single ⟨.leave q p, hq, hA _ _, rfl⟩, ⟨_, hfam, rfl⟩,
      (Family.apart hL).unqueued_unlink hq⟩
  rw [leaveQueue]
  cases h : s.status p with
  | ready => exact hleave .ready (by simpa [Removable, Tasks.abs, h] using hp)
  | created => exact hleave .ready (by simpa [Removable, Tasks.abs, h] using hp)
  | sleeping => exact hleave .sleeping (by simpa [Removable, Tasks.abs, h] using hp)
  | running => exact Simulates.ok ⟨⟨L, hL, rfl⟩, hT.running p h⟩
  | exited => exact Simulates.ok ⟨⟨L, hL, rfl⟩, hT.exited p h⟩
  | blocked =>
    have hq : ∀ q, p ∈ L q → ∃ k < maxLockNumTotal, q = .mutex k := by
      simpa [Removable, Tasks.abs, h] using hp
    refine (leaveLocks_runs hL hA).weaken (fun _ _ => id) fun s' b _ _ ⟨hsim, hb⟩ =>
      ⟨hsim, fun q hqb => ?_⟩
    obtain ⟨k, hk, rfl⟩ := hq q (hb q hqb).1
    exact (hb _ hqb).2 k hk rfl

theorem Kills.not_spawn {x : Act} {r : PcbRef} (h : Kills r x) :
    ∀ i n e, x = .spawn i n e → p ≠ .task i := by
  rintro i n e rfl
  exact h.elim

theorem killPcb_runs (hL : Family s.queues L) (hT : Tidy (s.toTasks.abs L))
    (hp : Removable (s.toTasks.abs L) p) (hl : ∀ a q, A a (.leave q p)) (hd : ∀ a, A a (.die p))
    (hr : ∀ m a x, Releases m a x → A a x) (hw : ∀ a r, A a (.wake (.waiting p) r)) :
    Simulates (fun s' b => Sim s' b ∧ Gone p b) (Trans fun a x => A a x ∧ Kills p x)
      (fun a => a.lists .ready = []) (s.toTasks.abs L) (killPcb p s) := by
  rw [killPcb]
  split
  · refine (leaveQueue_runs hL hT hp fun a q => ⟨hl a q, trivial⟩).bind ?_
    rintro s₁ _ - hpath ⟨⟨L₁, hL₁, rfl⟩, hun⟩
    let s₂ : Kernel := { s₁ with status := Function.update s₁.status p .exited }
    have hgone : Gone p (s₂.toTasks.abs L₁) := ⟨by simp [s₂, Tasks.abs], hun⟩
    have hT₂ : Tidy (s₂.toTasks.abs L₁) := tidy_act (x := .die p) (tidy_path hT hpath) hun
    refine Simulates.step ⟨.die p, hun, ⟨hd _, rfl⟩, rfl⟩ ?_
    have hrest : Runs (fun a x => A a x ∧ Kills p x) (s₂.toTasks.abs L₁)
        (releaseAll p s₂ >>= clearWaitingQueue (.waiting p)) := by
      refine (releaseAll_runs (s := s₂) (A := fun a x => A a x ∧ Kills p x) hL₁
        fun m a x h => ⟨hr m a x h, ?_⟩).bind ?_
      · cases x <;> trivial
      · rintro s₃ _ - - ⟨L₃, hL₃, rfl⟩
        exact drain_fuel_runs (wakeHead_wakes _) (by simp) (fun a r => ⟨hw a r, trivial⟩) hL₃
    exact hrest.weaken (fun _ _ => id) fun _ _ _ hpath hsim =>
      ⟨hsim, gone_path hT₂ hgone (fun _ _ h => h.2.not_spawn) hpath⟩
  · next hex => exact Simulates.ok ⟨⟨L, hL, rfl⟩, not_not.mp hex, hT.exited _ (not_not.mp hex)⟩

theorem doKill_gone (n : Nat) (hL : Family s.queues L) (hT : Tidy (s.toTasks.abs L))
    (hS : Settled (s.toTasks.abs L)) (hA : ∀ a x, Switch x → A a x)
    (hk : ∀ i, slotOfPid n s.toTasks = some i → Removable (s.toTasks.abs L) (.task i) ∧
      (∀ a q, A a (.leave q (.task i))) ∧ (∀ a, A a (.die (.task i))) ∧
      (∀ a r, A a (.wake (.waiting (.task i)) r)))
    (hr : ∀ m a x, Releases m a x → A a x) :
    Simulates (fun s' b => SimS s' b ∧ ∀ i, slotOfPid n s.toTasks = some i → Gone (.task i) b)
    (Trans A)
      (fun a => a.lists .ready = []) (s.toTasks.abs L) (doKill n s) := by
  rw [doKill]
  split
  · next hn => exact Simulates.ok ⟨⟨⟨L, hL, rfl⟩, hS⟩, by simp [hn]⟩
  · next i hi =>
    obtain ⟨hrem, hl, hd, hw⟩ := hk i hi
    have hpid : s.pid (.task i) = n := by simpa using List.find?_some hi
    refine ((killPcb_runs hL hT hrem hl hd hr hw).weaken
      (S := fun s' b => (Sim s' b ∧ Gone (.task i) b) ∧ b.current = s.currentRunning ∧
        b.pid = s.pid ∧
        (s.pid s.currentRunning ≠ n → Settled b)) (fun _ _ ⟨x, hx, h, hb⟩ => ⟨x, hx, h.1, hb⟩)
          ?_).bind ?_
    · intro s' b _ hpath hsim
      refine ⟨hsim, (kill_path hpath).1, (kill_path hpath).2, fun hne => ?_⟩
      have hvictim : PcbRef.task i ≠ s.currentRunning := fun e => hne (e ▸ hpid)
      exact kill_path_settled hT hS hvictim hpath
    · rintro s₁ _ - hpath ⟨⟨⟨L₁, hL₁, rfl⟩, hgone⟩, hc, hp, hsettled⟩
      have htest : s₁.pid s₁.currentRunning = s.pid s.currentRunning := by
        rw [show s₁.pid = s.pid from hp, show s₁.currentRunning = s.currentRunning from hc]
      have hslot : ∀ {b}, Gone (.task i) b → ∀ j, slotOfPid n s.toTasks = some j →
          Gone (.task j) b := by
        intro b hb j hj
        cases hi.symm.trans hj
        exact hb
      have hT₁ := tidy_path hT hpath
      rw [htest]
      split
      · refine (doScheduler_runs (A := fun a x => A a x ∧ Switch x) (fun a x h => ⟨hA a x h, h⟩)
          .user hL₁
          hT₁).weaken (fun _ _ ⟨x, hx, h, hb⟩ => ⟨x, hx, h.1, hb⟩) fun _ _ _ hpath hsim =>
            ⟨hsim, ?_⟩
        exact hslot (gone_path hT₁ hgone (fun _ _ h => h.2.not_spawn) hpath)
      · next hne => exact Simulates.ok ⟨⟨⟨L₁, hL₁, rfl⟩, hsettled hne⟩, hslot hgone⟩

end Kill

def May (s : Kernel) (a : Abs) (op : Op) (a' : Abs) (x : Act) : Prop :=
  Switch x ∨ match op with
  | .schedule => False
  | .tick recv => recv = true ∧ ∃ p, x = .wake .recvBlock p
  | .resume => ∃ m, s.kernelContext s.currentRunning = .acquire m ∧
      (Acquires m s.currentRunning x ∨ (s.mutexStatus m = .locked ∧ a' = a ∧ x = .block (.mutex m)))
  | .spawn t => ∃ i, freeSlot s.toTasks = some i ∧ x = .spawn i (word (s.lastPid + 1)) t.entryPoint
  | .exit => (∃ m, Releases m a' x) ∨ (∃ p, x = .wake (.waiting s.currentRunning) p) ∨ x = .exit
  | .waitpid n => ∃ i, slotOfPid n s.toTasks = some i ∧ s.status (.task i) ≠ .exited ∧ a' = a ∧
      x = .block (.waiting (.task i))
  | .kill n => (∃ m, Releases m a' x) ∨ ∃ i, slotOfPid n s.toTasks = some i ∧
      ((∃ q, x = .leave q (.task i)) ∨ x = .die (.task i) ∨ ∃ p, x = .wake (.waiting (.task i)) p)
  | .sleep _ => x = .sleep
  | .block q => a' = a ∧ x = .block q
  | .unblockOne q | .unblockAll q => ∃ p, x = .wake q p
  | .mutexInit m => (a' = a ∧ x = .clear (.mutex m)) ∨ x = .setMutex m .unlocked
  | .acquire m =>
    Acquires m s.currentRunning x ∨ (s.mutexStatus m = .locked ∧ a' = a ∧ x = .block (.mutex m))
  | .release m => Releases m a' x
  | .semaphoreInit n _ => a' = a ∧ x = .clear (.semaphore n)
  | .up n => ∃ p, x = .wake (.semaphore n) p
  | .down n => x = .block (.semaphore n)
  | .conditionInit c => a' = a ∧ x = .clear (.condition c)
  | .wait m c => x = .block (.condition c) ∨ Releases m a' x
  | .signal c | .broadcast c => ∃ p, x = .wake (.condition c) p
  | .barrierInit b _ => a' = a ∧ x = .clear (.barrier b)
  | .barrierWait b => x = .block (.barrier b) ∨ ∃ p, x = .wake (.barrier b) p

def Covered (s : Kernel) (a : Abs) : Op → Prop
  | .unblockAll q => q ≠ .ready
  | .kill n => ∀ i, slotOfPid n s.toTasks = some i → Removable a (.task i)
  | _ => True

theorem clear_runs (hL : Family s.queues L) (hT : Tidy (s.toTasks.abs L))
    (hS : Settled (s.toTasks.abs L))
    (hA : A (s.toTasks.abs L) (.clear q)) {s' : Kernel} (hq : s'.queues = queueInit q s.queues)
    (ht : ∀ L, s'.toTasks.abs L = s.toTasks.abs L) : RunsS A (s.toTasks.abs L) (.ok s') := by
  refine Runs.settle hT hS (.of_act (.clear q) trivial ⟨hA, trivial⟩ ⟨_, hq ▸ queueInit_family hL,
    ?_⟩)
  rw [ht]
  rfl

theorem exec_runs {op : Op} (hL : Family s.queues L) (hT : Tidy (s.toTasks.abs L))
    (hS : Settled (s.toTasks.abs L)) (hop : Covered s (s.toTasks.abs L) op) (hne : op ≠ .resume) :
    RunsS (May s (s.toTasks.abs L) op) (s.toTasks.abs L) (exec op s) := by
  have hA : ∀ a x, Switch x → May s (s.toTasks.abs L) op a x := fun a x hx => .inl hx
  cases op with
  | schedule => exact doScheduler_runs hA .user hL hT
  | tick recv => exact irqTimer_runs hA recv hL hT fun p h => .inr ⟨h, p, rfl⟩
  | resume => exact absurd rfl hne
  | spawn t =>
    exact Runs.settle hT hS (doSpawn_runs t hL hT fun i hi => ⟨.inr ⟨i, hi, rfl⟩, trivial⟩)
  | exit =>
    exact doExit_runs hL hT hS hA (fun m a x h => .inr (.inl ⟨m, h⟩))
      (fun a p => .inr (.inr (.inl ⟨p, rfl⟩))) fun a => .inr (.inr (.inr rfl))
  | waitpid n => exact doWaitpid_runs hA n hL hT hS fun i hi hl => .inr ⟨i, hi, hl, rfl, rfl⟩
  | kill n =>
    refine (doKill_gone n hL hT hS hA (fun i hi => ⟨hop i hi, ?_, ?_, ?_⟩)
      fun m a x h => .inr (.inl ⟨m, h⟩)).weaken (fun _ _ => id) fun _ _ _ _ h => h.1
    · exact fun a q => .inr (.inr ⟨i, hi, .inl ⟨q, rfl⟩⟩)
    · exact fun a => .inr (.inr ⟨i, hi, .inr (.inl rfl)⟩)
    · exact fun a r => .inr (.inr ⟨i, hi, .inr (.inr ⟨r, rfl⟩)⟩)
  | sleep t => exact doSleep_runs hA t hL hT fun a => .inr rfl
  | block q => exact doBlock_runs hA .user hL hT (.inr ⟨rfl, rfl⟩)
  | unblockOne q => exact Runs.settle hT hS (doUnblockOne_runs hL fun p => ⟨.inr ⟨p, rfl⟩, trivial⟩)
  | unblockAll q =>
    exact Runs.settle hT hS
      (drain_fuel_runs (doUnblockOne_wakes q) hop (fun a p => ⟨.inr ⟨p, rfl⟩, trivial⟩) hL)
  | mutexInit m =>
    refine Runs.settle hT hS (Simulates.step ⟨.clear (.mutex m), trivial, ⟨.inr (.inl ⟨rfl, rfl⟩),
      trivial⟩, rfl⟩ ?_)
    exact Runs.of_act (.setMutex m .unlocked) trivial ⟨.inr (.inr rfl), trivial⟩
      ⟨_, queueInit_family hL, rfl⟩
  | acquire m =>
    exact doMutexLockAcquire_runs hL hT hS hA (fun h => .inr (.inr ⟨h, rfl, rfl⟩)) fun a x h =>
      .inr (.inl h)
  | release m => exact Runs.settle hT hS (doMutexLockRelease_runs hL fun a x h => ⟨.inr h, h.quiet⟩)
  | semaphoreInit n val => exact clear_runs hL hT hS (.inr ⟨rfl, rfl⟩) rfl fun _ => rfl
  | up n =>
    rw [exec, doSemaphoreUp]
    split
    · exact Simulates.ok ⟨⟨L, hL, rfl⟩, hS⟩
    · next h =>
      refine Runs.settle hT hS ((wakeHead_wakes _).runs hL ?_ fun p => ⟨.inr ⟨p, rfl⟩, trivial⟩)
      exact mt (queueIsEmpty_iff hL).mpr h
  | down n => exact doSemaphoreDown_runs hA n hL hT hS (.inr rfl)
  | conditionInit c => exact clear_runs hL hT hS (.inr ⟨rfl, rfl⟩) rfl fun _ => rfl
  | wait m c =>
    exact doConditionWait_runs hA c hL hT hS (.inr (.inl rfl)) fun a x h => .inr (.inr h)
  | signal c =>
    rw [exec, doConditionSignal]
    split
    · exact Simulates.ok ⟨⟨L, hL, rfl⟩, hS⟩
    · next h =>
      refine Runs.settle hT hS ((wakeHead_wakes _).runs hL ?_ fun p => ⟨.inr ⟨p, rfl⟩, trivial⟩)
      exact mt (queueIsEmpty_iff hL).mpr h
  | broadcast c =>
    exact Runs.settle hT hS
      (drain_fuel_runs (wakeHead_wakes _) (by simp) (fun a p => ⟨.inr ⟨p, rfl⟩, trivial⟩) hL)
  | barrierInit b goal => exact clear_runs hL hT hS (.inr ⟨rfl, rfl⟩) rfl fun _ => rfl
  | barrierWait b =>
    exact doBarrierWait_runs hA b hL hT hS (.inr (.inl rfl)) fun a p => .inr (.inr ⟨p, rfl⟩)

theorem step_runs {op : Op} (h : SimS s a) (hT : Tidy a) (hop : Covered s a op) :
    step op s = .error .disabled ∨ RunsS (May s a op) a (step op s) := by
  obtain ⟨⟨L, hL, rfl⟩, hS⟩ := h
  rw [step]
  cases hk : s.kernelContext s.currentRunning with
  | user =>
    by_cases hne : op = .resume
    · subst hne
      exact .inl rfl
    · exact .inr (exec_runs hL hT hS hop hne)
  | acquire m =>
    by_cases hne : op = .resume
    · subst hne
      refine .inr (doMutexLockAcquire_runs
        (s := { s with kernelContext := Function.update s.kernelContext s.currentRunning .user })
        hL hT hS (fun _ _ hx => .inl hx) (fun hm => .inr ⟨m, hk, .inr ⟨hm, rfl, rfl⟩⟩) ?_)
      exact fun a x hx => .inr ⟨m, hk, .inl hx⟩
    · exact .inl (if_neg hne)

theorem step_invariant {I : Abs → Prop} {op : Op} {s' : Kernel} (h : SimS s a) (hT : Tidy a)
    (hop : Covered s a op) (ha : I a)
    (hact : ∀ b x, Tidy b → I b → Enabled b x → May s a op b x → I (act b x))
    (hrun : step op s = .ok s') : ∃ a', SimS s' a' ∧ Tidy a' ∧ I a' := by
  rcases step_runs h hT hop with hd | hr
  · rw [hrun] at hd
    cases hd
  · rw [hrun] at hr
    obtain ⟨a', hpath, hsim⟩ := hr
    refine ⟨a', hsim, invariant_of_path (I := fun b => Tidy b ∧ I b) ?_ ⟨hT, ha⟩ hpath⟩
    rintro b _ ⟨hTb, hb⟩ ⟨x, hx, hm, rfl⟩
    exact ⟨tidy_act hTb hx, hact b x hTb hb hx hm⟩

def initAbs (entryPoint : Nat) : Abs where
  pid p := if p = shell then 1 else 0
  status p := if p = shell ∨ p = .init then .created else .exited
  entryPoint p := if p = shell then entryPoint else 0
  current := .init
  mutexStatus _ := .unlocked
  lock _ _ := none
  lockNum _ := 0
  lists := enqueue .ready shell fun _ => []

theorem mem_initAbs {e : Nat} : p ∈ (initAbs e).lists q ↔ q = .ready ∧ p = shell := by
  simp [initAbs, mem_enqueue]

theorem initPcb_sim {e : Nat} {s₀ : Kernel} (h : initPcb e = .ok s₀) :
    SimS s₀ (initAbs e) ∧ Tidy (initAbs e) := by
  obtain ⟨h', hpush, hfam⟩ := queuePush_family (q := QueueRef.ready) emptyLinks_family fun _ =>
    (by simp : shell ∉ [])
  have hne : PcbRef.init ≠ shell := by simp [shell]
  simp only [initPcb, hpush, bind, Except.bind] at h
  cases h
  refine ⟨⟨⟨_, hfam, rfl⟩, .inr ⟨rfl, by simp [initAbs], fun q hq => hne (mem_initAbs.mp hq).2⟩⟩,
    Family.apart hfam, fun p hp q hq => ?_, fun p hp q hq => ?_⟩
  · simp [initAbs, (mem_initAbs.mp hq).2] at hp
  · simp [initAbs, (mem_initAbs.mp hq).2] at hp

end Ucas.Sched

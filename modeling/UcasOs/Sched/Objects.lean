import UcasOs.Sched.Frame

/-! What a step of the kernel does to the objects that processes wait on: the counters of semaphores
and barriers, the place where each process goes on, and the members of one queue. -/

namespace Ucas.Sched
open Ucas.Lib Relation

variable {s s' t : Kernel} {a b : Abs} {x : Act} {L : Lists} {op : Op} {q : QueueRef} {p : PcbRef}

structure SameObjects (s s' : Kernel) : Prop where
  semValue : s'.semValue = s.semValue
  maxNum : s'.maxNum = s.maxNum
  notArriveNum : s'.notArriveNum = s.notArriveNum
  kernelContext : s'.kernelContext = s.kernelContext

theorem Undisturbed.objects (h : Undisturbed s s') : SameObjects s s' :=
  ⟨congrArg Core.semValue h, congrArg Core.maxNum h, congrArg Core.notArriveNum h,
    congrArg Core.kernelContext h⟩

def objectsAfter (op : Op) (s : Kernel) : Kernel :=
  match op with
  | .resume =>
    match s.kernelContext s.currentRunning with
    | .user => s
    | .acquire m =>
      if s.mutexStatus m = .locked then s
      else { s with kernelContext := Function.update s.kernelContext s.currentRunning .user }
  | .acquire m =>
    if s.mutexStatus m = .locked then
      { s with kernelContext := Function.update s.kernelContext s.currentRunning (.acquire m) }
    else s
  | .wait m _ =>
    { s with kernelContext := Function.update s.kernelContext s.currentRunning (.acquire m) }
  | .spawn _ =>
    match freeSlot s.toTasks with
    | none => s
    | some i => { s with kernelContext := Function.update s.kernelContext (.task i) .user }
  | .semaphoreInit x val => { s with semValue := Function.update s.semValue x val }
  | .up x =>
    if queueIsEmpty (.semaphore x) s.queues then
      { s with semValue := Function.update s.semValue x (s.semValue x + 1) }
    else s
  | .down x =>
    if s.semValue x = 0 then s else
      { s with semValue := Function.update s.semValue x (s.semValue x - 1) }
  | .barrierInit b goal =>
    { s with
      maxNum := Function.update s.maxNum b goal
      notArriveNum := Function.update s.notArriveNum b goal }
  | .barrierWait b =>
    let n := if s.notArriveNum b = 1 then s.maxNum b else s.notArriveNum b - 1
    { s with notArriveNum := Function.update s.notArriveNum b n }
  | _ => s

section Step

theorem step_of_user (hu : s.kernelContext s.currentRunning = .user) : step op s = exec op s := by
  rw [step, hu]

theorem step_exec (hne : op ≠ .resume) (h : step op s = .ok s') :
    s.kernelContext s.currentRunning = .user ∧ exec op s = .ok s' := by
  rw [step] at h
  split at h
  · next hu => exact ⟨hu, h⟩
  · rw [if_neg hne] at h
    cases h

theorem acquire_undisturbed {m : MutexRef} (h : doMutexLockAcquire m s = .ok s') :
    Undisturbed (objectsAfter (.acquire m) s) s' := by
  rw [doMutexLockAcquire] at h
  simp only [objectsAfter]
  by_cases hm : s.mutexStatus m = .locked
  · rw [if_pos hm] at h ⊢
    exact (frames_whenRunning (frames_blockCurrent _)).thenScheduler h
  · rw [if_neg hm] at h ⊢
    cases h
    have hset : SameCore s { s with mutexStatus := Function.update s.mutexStatus m .locked } :=
      rfl
    exact (hset.trans (sameCore_recordLock _ _)).undisturbed

theorem doExit_undisturbed (hu : s.kernelContext s.currentRunning = .user) (h : doExit s = .ok s') :
    Undisturbed s s' := by
  obtain ⟨t, ht, h⟩ := exists_of_bind_ok h
  obtain ⟨u, hu', h⟩ := exists_of_bind_ok h
  have hexit : SameCore u { u with status := Function.update u.status s.currentRunning .exited } :=
    rfl
  exact .of_user hu ((((frames_releaseAll _ _ _ ht).trans
    (frames_drain (frames_wakeHead _) _ _ _ hu')).trans hexit).thenScheduler h)

theorem doWaitpid_undisturbed {n : Nat} (hu : s.kernelContext s.currentRunning = .user)
    (h : doWaitpid n s = .ok s') : Undisturbed s s' := by
  rw [doWaitpid] at h
  split at h
  · cases h
    rfl
  · split at h
    · exact .of_user hu ((frames_blockCurrent _).thenScheduler h)
    · cases h
      rfl

theorem doKill_undisturbed {n : Nat} (hu : s.kernelContext s.currentRunning = .user)
    (h : doKill n s = .ok s') : Undisturbed s s' := by
  rw [doKill] at h
  split at h
  · cases h
    rfl
  · obtain ⟨t, ht, h⟩ := exists_of_bind_ok h
    have hkill := frames_killPcb _ _ _ ht
    split at h
    · exact .of_user hu (hkill.thenScheduler h)
    · cases h
      exact hkill.undisturbed

theorem irqTimer_undisturbed {recv : Bool} (hu : s.kernelContext s.currentRunning = .user)
    (h : irqTimer recv s = .ok s') : Undisturbed s s' := by
  obtain ⟨t, ht, h⟩ := exists_of_bind_ok h
  have htime : SameCore s { s with timeElapsed := word (s.timeElapsed + 15) } := rfl
  have hcheck : SameCore s t := by
    rw [checkRecvBlockQueue] at ht
    split at ht
    · exact htime.trans (frames_doUnblockOne _ _ _ ht)
    · cases ht
      exact htime
  exact .of_user hu (hcheck.thenScheduler h)

theorem doBarrierWait_undisturbed {n : Nat} (hu : s.kernelContext s.currentRunning = .user)
    (h : doBarrierWait n s = .ok s') : Undisturbed (objectsAfter (.barrierWait n) s) s' := by
  rw [doBarrierWait] at h
  simp only [objectsAfter]
  split at h
  · next hlast =>
    obtain ⟨t, ht, h⟩ := exists_of_bind_ok h
    cases h
    have hcore : t.core = s.core := frames_drain (frames_wakeHead _) _ _ _ ht
    rw [if_pos hlast, Undisturbed]
    change { t.core with notArriveNum := Function.update t.core.notArriveNum n (t.core.maxNum n) } =
      { s.core with
        notArriveNum := Function.update s.core.notArriveNum n (s.core.maxNum n)
        currentRunning := t.core.currentRunning }
    rw [hcore]
  · next hlast =>
    rw [if_neg hlast]
    exact .of_user hu ((frames_blockCurrent _).thenScheduler h)

theorem exec_undisturbed (hu : s.kernelContext s.currentRunning = .user)
    (hspawn : ∀ i, op ≠ .spawn i)
    (h : exec op s = .ok s') : Undisturbed (objectsAfter op s) s' := by
  cases op with
  | schedule => exact .of_user hu (doScheduler_undisturbed h)
  | tick recv => exact irqTimer_undisturbed hu h
  | resume => cases h
  | spawn t => cases hspawn t rfl
  | exit => exact doExit_undisturbed hu h
  | waitpid n => exact doWaitpid_undisturbed hu h
  | kill n => exact doKill_undisturbed hu h
  | sleep n => exact .of_user hu ((frames_whenRunning (frames_sleepCurrent n)).thenScheduler h)
  | block q => exact .of_user hu ((frames_whenRunning (frames_blockCurrent q)).thenScheduler h)
  | unblockOne q => exact (frames_doUnblockOne _ _ _ h).undisturbed
  | unblockAll q => exact (frames_drain (frames_doUnblockOne _) _ _ _ h).undisturbed
  | mutexInit m =>
    cases h
    rfl
  | acquire m => exact acquire_undisturbed h
  | release m => exact (frames_release _ _ _ h).undisturbed
  | semaphoreInit n v =>
    cases h
    rfl
  | up n =>
    simp only [exec, doSemaphoreUp] at h
    by_cases hq : queueIsEmpty (.semaphore n) s.queues = true
    · rw [if_pos hq] at h
      cases h
      rw [objectsAfter, if_pos hq]
      rfl
    · rw [if_neg hq] at h
      rw [objectsAfter, if_neg hq]
      exact (frames_wakeHead _ _ _ h).undisturbed
  | down n =>
    simp only [exec, doSemaphoreDown] at h
    by_cases hz : s.semValue n = 0
    · rw [if_pos hz] at h
      rw [objectsAfter, if_pos hz]
      exact .of_user hu ((frames_blockCurrent _).thenScheduler h)
    · rw [if_neg hz] at h
      cases h
      rw [objectsAfter, if_neg hz]
      rfl
  | conditionInit c =>
    cases h
    rfl
  | wait m c =>
    obtain ⟨t, ht, h⟩ := exists_of_bind_ok h
    obtain ⟨u, hu', h⟩ := exists_of_bind_ok h
    exact ((frames_blockCurrent _ _ _ ht).trans (frames_release m _ _ hu')).thenScheduler h
  | signal c =>
    simp only [exec, doConditionSignal] at h
    split at h
    · cases h
      rfl
    · exact (frames_wakeHead _ _ _ h).undisturbed
  | broadcast c => exact (frames_drain (frames_wakeHead _) _ _ _ h).undisturbed
  | barrierInit b goal =>
    cases h
    rfl
  | barrierWait b => exact doBarrierWait_undisturbed hu h

theorem step_undisturbed (hspawn : ∀ i, op ≠ .spawn i) (h : step op s = .ok s') :
    Undisturbed (objectsAfter op s) s' := by
  rw [step] at h
  split at h
  · next hu => exact exec_undisturbed hu hspawn h
  · next m hm =>
    split at h
    · next hop =>
      subst hop
      have hacq := acquire_undisturbed h
      simp only [objectsAfter, hm] at hacq ⊢
      split
      · next hl =>
        rw [if_pos hl, Function.update_idem, ← hm, Function.update_eq_self] at hacq
        exact hacq
      · next hl =>
        rw [if_neg hl] at hacq
        exact hacq
    · cases h

theorem doSpawn_objects {i : TaskInfo} (h : doSpawn i s = .ok s') :
    SameObjects (objectsAfter (.spawn i) s) s' := by
  simp only [doSpawn] at h
  simp only [objectsAfter]
  change (match freeSlot s.toTasks with | none => _ | some i => _) = _ at h
  cases hf : freeSlot s.toTasks with
  | none =>
    rw [hf] at h
    cases h
    exact ⟨rfl, rfl, rfl, rfl⟩
  | some j =>
    rw [hf] at h
    obtain ⟨l, -, h⟩ := exists_of_bind_ok h
    cases h
    exact ⟨rfl, rfl, rfl, rfl⟩

theorem step_objects (h : step op s = .ok s') : SameObjects (objectsAfter op s) s' := by
  by_cases hspawn : ∃ i, op = .spawn i
  · obtain ⟨i, rfl⟩ := hspawn
    exact doSpawn_objects (step_exec (nofun : Op.spawn i ≠ .resume) h).2
  · exact (step_undisturbed (not_exists.mp hspawn) h).objects

end Step

def IsObject : QueueRef → Prop
  | .semaphore _ | .condition _ | .barrier _ => True
  | _ => False

def ActsOn (q : QueueRef) : Act → Prop
  | .wake q' _ | .leave q' _ | .block q' | .clear q' => q' = q
  | _ => False

theorem lists_act (hq : IsObject q) (hx : ¬ ActsOn q x) : (act a x).lists q = a.lists q := by
  have henq : ∀ {L : Lists} {q' r}, q ≠ q' → enqueue q' r L q = L q :=
    fun h => Function.update_of_ne h ..
  have hun : ∀ {L : Lists} {q' r}, q ≠ q' → unlink q' r L q = L q :=
    fun h => Function.update_of_ne h ..
  have hready : q ≠ .ready := by
    rintro rfl
    exact hq
  have hsleeping : q ≠ .sleeping := by
    rintro rfl
    exact hq
  cases x with
  | wake q' r => exact (henq hready).trans (hun (Ne.symm hx))
  | block q' => exact henq (Ne.symm hx)
  | sleep => exact henq hsleeping
  | preempt => exact henq hready
  | dispatch r => exact hun hready
  | spawn i n e =>
    have hwait : q ≠ .waiting (.task i) := by
      rintro rfl
      exact hq
    exact (henq hready).trans (Function.update_of_ne hwait ..)
  | leave q' r => exact hun (Ne.symm hx)
  | clear q' => exact Function.update_of_ne (Ne.symm hx) ..
  | retire => rfl
  | exit => rfl
  | die r => rfl
  | setMutex m st => rfl
  | record r l n => rfl

theorem lists_path {A : Abs → Act → Prop} (hq : IsObject q) (hA : ∀ b x, A b x → ¬ ActsOn q x)
    (hpath : ReflTransGen (Trans A) a b) : b.lists q = a.lists q := by
  refine invariant_of_path (I := fun b => b.lists q = a.lists q) ?_ rfl hpath
  rintro b _ hb ⟨x, -, hx, rfl⟩
  exact (lists_act hq (hA b x hx)).trans hb

def OpOn (q : QueueRef) : Op → Prop
  | .block q' | .unblockOne q' | .unblockAll q' => q' = q
  | .semaphoreInit n _ | .up n | .down n => q = .semaphore n
  | .conditionInit c | .wait _ c | .signal c | .broadcast c => q = .condition c
  | .barrierInit b _ | .barrierWait b => q = .barrier b
  | .kill _ => True
  | _ => False

section ActsOn
variable (hq : IsObject q)
include hq

theorem IsObject.ne_ready : q ≠ .ready := by
  rintro rfl
  exact hq

theorem IsObject.ne_sleeping : q ≠ .sleeping := by
  rintro rfl
  exact hq

theorem Switch.not_actsOn (h : Switch x) : ¬ ActsOn q x := by
  intro hx
  cases x with
  | wake q' r =>
    cases q' with
    | sleeping => exact hq.ne_sleeping hx.symm
    | _ => exact h
  | _ => first | exact hx | exact h

theorem Releases.not_actsOn {m : MutexRef} (h : Releases m a x) : ¬ ActsOn q x := by
  intro hx
  cases x with
  | wake q' r =>
    cases h
    cases hx
    exact hq
  | _ => first | exact hx | exact h

omit hq in
theorem Acquires.not_actsOn {m : MutexRef} (h : Acquires m p x) : ¬ ActsOn q x := by
  intro hx
  cases x <;> first | exact hx | exact h

theorem May.not_actsOn (hop : ¬ OpOn q op) (h : May s a op b x) : ¬ ActsOn q x := by
  rcases h with h | h
  · exact h.not_actsOn hq
  intro hx
  cases op with
  | schedule => exact h
  | tick recv =>
    obtain ⟨-, p, rfl⟩ := h
    cases hx
    exact hq
  | resume =>
    obtain ⟨m, -, h | ⟨-, -, rfl⟩⟩ := h
    · exact h.not_actsOn hx
    · cases hx
      exact hq
  | spawn t =>
    obtain ⟨i, -, rfl⟩ := h
    exact hx
  | exit =>
    rcases h with ⟨m, h⟩ | ⟨p, rfl⟩ | rfl
    · exact h.not_actsOn hq hx
    · cases hx
      exact hq
    · exact hx
  | waitpid n =>
    obtain ⟨i, -, -, -, rfl⟩ := h
    cases hx
    exact hq
  | kill n => exact hop trivial
  | sleep n =>
    subst h
    exact hx
  | block q' =>
    obtain ⟨-, rfl⟩ := h
    exact hop hx
  | unblockOne q' =>
    obtain ⟨p, rfl⟩ := h
    exact hop hx
  | unblockAll q' =>
    obtain ⟨p, rfl⟩ := h
    exact hop hx
  | mutexInit m =>
    rcases h with ⟨-, rfl⟩ | rfl
    · cases hx
      exact hq
    · exact hx
  | acquire m =>
    rcases h with h | ⟨-, -, rfl⟩
    · exact h.not_actsOn hx
    · cases hx
      exact hq
  | release m => exact h.not_actsOn hq hx
  | semaphoreInit n v =>
    obtain ⟨-, rfl⟩ := h
    exact hop hx.symm
  | up n =>
    obtain ⟨p, rfl⟩ := h
    exact hop hx.symm
  | down n =>
    subst h
    exact hop hx.symm
  | conditionInit c =>
    obtain ⟨-, rfl⟩ := h
    exact hop hx.symm
  | wait m c =>
    rcases h with rfl | h
    · exact hop hx.symm
    · exact h.not_actsOn hq hx
  | signal c =>
    obtain ⟨p, rfl⟩ := h
    exact hop hx.symm
  | broadcast c =>
    obtain ⟨p, rfl⟩ := h
    exact hop hx.symm
  | barrierInit b goal =>
    obtain ⟨-, rfl⟩ := h
    exact hop hx.symm
  | barrierWait b =>
    rcases h with rfl | ⟨p, rfl⟩
    · exact hop hx.symm
    · exact hop hx.symm

theorem step_members (hs : SimS s a) (hT : Tidy a) (hcov : Covered s a op) (hop : ¬ OpOn q op)
    (hrun : step op s = .ok s') : s'.members q = s.members q := by
  obtain ⟨a', hs', -, hl⟩ := step_invariant (I := fun b => b.lists q = a.lists q) hs hT hcov rfl
    (fun b x _ hb _ hm => (lists_act hq (hm.not_actsOn hq hop)).trans hb) hrun
  rw [hs'.1.members, hs.1.members, hl]

end ActsOn

def WaitersBlocked (q : QueueRef) (a : Abs) : Prop := ∀ p ∈ a.lists q, a.status p = .blocked

theorem waitersBlocked_act (hq : IsObject q) (hT : Tidy a) (h : WaitersBlocked q a)
    (hx : Enabled a x) :
    WaitersBlocked q (act a x) := by
  intro p hp
  have hmove : ∀ {r st}, p ∈ a.lists q → p ≠ r → (a.setStatus r st).status p = .blocked :=
      fun hp hr =>
    (Abs.setStatus_of_ne hr).trans (h p hp)
  have henq : ∀ {L : Lists} {q' r}, q ≠ q' → p ∈ enqueue q' r L q → p ∈ L q := fun hne hm =>
    (mem_enqueue.mp hm).resolve_right fun e => hne e.1
  have hother : ∀ {r}, Unqueued a.lists r → p ∈ a.lists q → p ≠ r := by
    rintro r hr hp rfl
    exact hr q hp
  cases x with
  | wake q' r =>
    obtain ⟨hp, hr⟩ := (hT.apart.mem_unlink hx).mp (henq hq.ne_ready hp)
    exact hmove hp hr
  | block q' =>
    by_cases hr : p = a.current
    · simp [act, Abs.setStatus, hr]
    · exact hmove ((mem_enqueue.mp hp).resolve_right fun e => hr e.2) hr
  | sleep =>
    have hp := henq hq.ne_sleeping hp
    exact hmove hp (hother (hT.running _ hx) hp)
  | preempt =>
    have hp := henq hq.ne_ready hp
    exact hmove hp (hother (hT.running _ hx.1) hp)
  | retire => exact hmove hp (hother (hT.running _ hx.1) hp)
  | dispatch r =>
    obtain ⟨hp, hr⟩ := (hT.apart.mem_unlink hx.1).mp hp
    exact hmove hp hr
  | spawn i n e =>
    have hp := mem_update_nil (henq hq.ne_ready hp)
    exact hmove hp (hother (hT.exited _ hx) hp)
  | exit => exact hmove hp (hother hx.1 hp)
  | leave q' r => exact h p ((hT.apart.mem_unlink hx).mp hp).1
  | die r => exact hmove hp (hother hx hp)
  | clear q' => exact h p (mem_update_nil hp)
  | setMutex m st => exact h p hp
  | record r l n => exact h p hp

/-- The kernel between two operations of a run in which every `do_kill` finds its victim. -/
def WellFormed (s : Kernel) : Prop := ∃ a, SimS s a ∧ Tidy a ∧ Sleepers (fun _ => False) a

namespace WellFormed
variable (h : WellFormed s)
include h

theorem step (hop : KillsFind s op) (hrun : step op s = .ok s') : WellFormed s' := by
  obtain ⟨a, hs, hT, hz⟩ := h
  exact killsFind_step hs hT hz hop hrun

theorem nodup (q : QueueRef) : (s.members q).Nodup := by
  obtain ⟨a, hs, hT, -⟩ := h
  exact hs.1.members q ▸ hT.apart.nodup q

theorem eq_of_mem {q' : QueueRef} (hp : p ∈ s.members q) (hp' : p ∈ s.members q') : q = q' := by
  obtain ⟨a, hs, hT, -⟩ := h
  rw [hs.1.members] at hp hp'
  exact hT.apart.eq_of_mem hp hp'

theorem current_not_mem (q : QueueRef) : s.currentRunning ∉ s.members q := by
  obtain ⟨a, hs, hT, -⟩ := h
  rw [hs.1.members]
  obtain ⟨⟨L, -, rfl⟩, hS⟩ := hs
  exact hS.unqueued hT q

theorem current_live : s.status s.currentRunning ≠ .exited := by
  obtain ⟨a, ⟨⟨L, -, rfl⟩, hS⟩, -⟩ := h
  exact hS.not_exited

theorem members_step (hq : IsObject q) (hop : KillsFind s op) (hon : ¬ OpOn q op)
    (hrun : Sched.step op s = .ok s') : s'.members q = s.members q := by
  obtain ⟨a, hs, hT, hz⟩ := h
  exact step_members hq hs hT (hop.covered hs.1 hz) hon hrun

theorem blocked_step (hq : IsObject q) (hop : KillsFind s op) (hrun : Sched.step op s = .ok s')
    (hb : ∀ p ∈ s.members q, s.status p = .blocked) :
    ∀ p ∈ s'.members q, s'.status p = .blocked := by
  obtain ⟨a, hs, hT, hz⟩ := h
  have hmem := hs.1.members q
  obtain ⟨a', hs', -, hb'⟩ := step_invariant (I := WaitersBlocked q) hs hT (hop.covered hs.1 hz) (by
      rw [hmem] at hb
      obtain ⟨⟨L, -, rfl⟩, -⟩ := hs
      exact hb)
    (fun b x hTb hb hx _ => waitersBlocked_act hq hTb hb hx) hrun
  rw [hs'.1.members]
  obtain ⟨⟨L, -, rfl⟩, -⟩ := hs'
  exact hb'

end WellFormed

/-- The processes of `l` have left the queue `q` and have been made ready, in this order. -/
structure Readied (q : QueueRef) (l : List PcbRef) (s s' : Kernel) : Prop where
  status : ∀ p, s'.status p = if p ∈ l then .ready else s.status p
  ready : s'.members .ready = s.members .ready ++ l
  left : s.members q = l ++ s'.members q
  others : ∀ q', q' ≠ .ready → q' ≠ q → s'.members q' = s.members q'
  currentRunning : s'.currentRunning = s.currentRunning

section Readied

theorem Readied.nil (q : QueueRef) (s : Kernel) : Readied q [] s s :=
  ⟨by simp, by simp, rfl, fun _ _ _ => rfl, rfl⟩

theorem Readied.trans {l l' : List PcbRef} {u : Kernel} (h : Readied q l s t)
    (h' : Readied q l' t u) :
    Readied q (l ++ l') s u := by
  refine ⟨fun p => ?_, ?_, ?_, fun q' hr hq => (h'.others q' hr hq).trans (h.others q' hr hq),
    h'.currentRunning.trans h.currentRunning⟩
  · rw [h'.status, h.status]
    by_cases hp : p ∈ l
    · simp [hp]
    · simp [hp]
  · rw [h'.ready, h.ready, List.append_assoc]
  · rw [h.left, h'.left, List.append_assoc]

theorem Readied.filter_left {l : List PcbRef} (h : Readied q l s s')
    (hnodup : (s.members q).Nodup) :
    (s.members q).filter (· ∉ s'.members q) = l := by
  rw [h.left] at hnodup ⊢
  have hdisj := List.disjoint_of_nodup_append hnodup
  rw [List.filter_append, List.filter_eq_self.mpr fun p
    hp => by simpa using fun hp' => hdisj hp hp',
    List.filter_eq_nil_iff.mpr fun p hp => not_not.mpr hp ∘ of_decide_eq_true, List.append_nil]

theorem wakeHead_readied {l : List PcbRef} (hs : Sim s a) (hq : q ≠ .ready)
    (hl : s.members q = p :: l) :
    ∃ s' a', wakeHead q s = .ok s' ∧ Sim s' a' ∧ Readied q [p] s s' := by
  have hmem := hs.members
  obtain ⟨L, hL, rfl⟩ := hs
  have hl : L q = p :: l := (hmem q).symm.trans hl
  obtain ⟨s', hrun, hs'⟩ := wakeHead_sim hL hl
  have hmem' := hs'.members
  refine ⟨s', _, hrun, hs', fun r => ?_, ?_, ?_, fun q' hr hne => ?_, ?_⟩
  · obtain ⟨L', -, hact⟩ := hs'
    rw [show s'.status = _ from (congrArg Abs.status hact).symm]
    by_cases hr : r = p
    · simp [act, Abs.setStatus, hr]
    · simp [act, Abs.setStatus, hr, Tasks.abs]
  · rw [hmem', hmem]
    simp [act, enqueue, unlink, Function.update_of_ne (Ne.symm hq), Tasks.abs]
  · rw [hmem', hmem]
    simp [act, enqueue, unlink, hq, Tasks.abs, hl]
  · rw [hmem', hmem]
    simp [act, enqueue, unlink, hr, hne, Tasks.abs]
  · obtain ⟨L', -, hact⟩ := hs'
    exact (congrArg Abs.current hact).symm

theorem queueIsEmpty_members (hs : Sim s a) :
    queueIsEmpty q s.queues = true ↔ s.members q = [] := by
  rw [hs.members]
  exact queueIsEmpty_iff hs.lists

theorem drain_readied (hq : q ≠ .ready) {n : Nat} (hs : Sim s a) (hn : (s.members q).length ≤ n) :
    ∃ s' a', drain q (wakeHead q) n s = .ok s' ∧ Sim s' a' ∧ Readied q (s.members q) s s' := by
  induction n generalizing s a with
  | zero =>
    have hnil := List.eq_nil_of_length_eq_zero (Nat.le_zero.mp hn)
    rw [drain, if_pos ((queueIsEmpty_members hs).mpr hnil), hnil]
    exact ⟨s, a, rfl, hs, .nil q s⟩
  | succ n ih =>
    cases hl : s.members q with
    | nil =>
      rw [drain, if_pos ((queueIsEmpty_members hs).mpr hl)]
      exact ⟨s, a, rfl, hs, .nil q s⟩
    | cons p l =>
      obtain ⟨t, b, hrun, ht, hread⟩ := wakeHead_readied hs hq hl
      have hleft : t.members q = l := by simpa [hl] using hread.left.symm
      obtain ⟨s', a', hrest, hs', hread'⟩ := ih ht (by simpa [hl, hleft] using hn)
      rw [drain, if_neg (by simp [queueIsEmpty_members hs, hl]), hrun]
      exact ⟨s', a', hrest, hs', hleft ▸ hread.trans hread'⟩

end Readied

section Effects
variable (h : WellFormed s)
include h

theorem WellFormed.length_lt (q : QueueRef) : (s.members q).length < fuel := by
  obtain ⟨a, hs, -⟩ := h
  rw [hs.1.members]
  exact Family.length_lt hs.1.lists

theorem wakeHead_effect {l : List PcbRef} (hq : q ≠ .ready) (hl : s.members q = p :: l) :
    ∃ s', wakeHead q s = .ok s' ∧ Readied q [p] s s' := by
  obtain ⟨a, hs, -⟩ := h
  obtain ⟨s', -, hrun, -, hread⟩ := wakeHead_readied hs.1 hq hl
  exact ⟨s', hrun, hread⟩

theorem drain_effect (hq : q ≠ .ready) :
    ∃ s', drain q (wakeHead q) fuel s = .ok s' ∧ Readied q (s.members q) s s' := by
  have hlen := h.length_lt q
  obtain ⟨a, hs, -⟩ := h
  obtain ⟨s', -, hrun, -, hread⟩ := drain_readied hq hs.1 hlen.le
  exact ⟨s', hrun, hread⟩

theorem block_effect {f : Kernel → Except Fault Kernel}
    (hf : ∀ t b, Sim t b → Tidy b → RunsS (fun _ x => ¬ ActsOn q x) b (f t)) (hq : IsObject q)
    (hrun : blockCurrent q s >>= f = .ok s') :
    s'.members q = s.members q ++ [s.currentRunning] := by
  obtain ⟨a, ⟨hs, hS⟩, hT, -⟩ := h
  have hmem := hs.members q
  obtain ⟨L, hL, rfl⟩ := hs
  have hblock : Enabled (s.toTasks.abs L) (.block q) := ⟨hS.unqueued hT, hS.not_exited⟩
  obtain ⟨t, ht, hsim⟩ := blockCurrent_sim hL (hS.unqueued hT) (q := q)
  obtain ⟨_, ht', hrun⟩ := exists_of_bind_ok hrun
  cases ht.symm.trans ht'
  obtain ⟨a', hpath, hs', -⟩ := (hf t _ hsim (tidy_act hT hblock)).of_ok hrun
  rw [hs'.members, lists_path hq (fun _ _ hx => hx) hpath, hmem]
  simp [act, enqueue, Tasks.abs]

theorem blockThenScheduler_effect {k : Resume} (hq : IsObject q)
    (hrun : blockCurrent q s >>= doScheduler k = .ok s') :
    s'.members q = s.members q ++ [s.currentRunning] := by
  refine block_effect h (fun t b ht hT => ?_) hq hrun
  obtain ⟨L, hL, rfl⟩ := ht
  exact doScheduler_runs (fun _ _ hx => hx.not_actsOn hq) k hL hT

end Effects

theorem members_queueInit (h : s'.queues = queueInit q s.queues) : s'.members q = [] := by
  have hhead : (s'.queues.queue q).head = none := by simp [h, queueInit, Heap.setHead]
  rw [Kernel.members, hhead]
  rfl

theorem members_queueInit_of_ne {q' : QueueRef} (hne : q' ≠ q)
    (h : s'.queues = queueInit q s.queues) :
    s'.members q' = s.members q' := by
  simp [Kernel.members, h, queueInit, Heap.setHead, Heap.setTail, hne]

/-- The counters of the object that processes wait on in `q`. -/
def Kernel.counters (s : Kernel) : QueueRef → Int × Int
  | .semaphore x => (s.semValue x, 0)
  | .barrier b => (s.notArriveNum b, s.maxNum b)
  | _ => (0, 0)

section Counters

theorem counters_setSemaphore {n : Nat} (hq : q ≠ .semaphore n) (v : Int) :
    Kernel.counters { s with semValue := Function.update s.semValue n v } q = s.counters q := by
  cases q with
  | semaphore x =>
    have hne : x ≠ n := fun e => hq (by rw [e])
    simp [Kernel.counters, hne]
  | _ => rfl

theorem counters_setBarrier {n : Nat} (hq : q ≠ .barrier n) (k goal : Int) :
    Kernel.counters { s with
      maxNum := Function.update s.maxNum n goal
      notArriveNum := Function.update s.notArriveNum n k } q = s.counters q := by
  cases q with
  | barrier b =>
    have hne : b ≠ n := fun e => hq (by rw [e])
    simp [Kernel.counters, hne]
  | _ => rfl

theorem counters_of_not_opOn (hon : ¬ OpOn q op) (hrun : step op s = .ok s') :
    s'.counters q = s.counters q := by
  have hobjects : s'.counters q = (objectsAfter op s).counters q := by
    obtain ⟨hsem, hmax, hnum, -⟩ := step_objects hrun
    cases q <;> simp only [Kernel.counters, hsem, hmax, hnum]
  rw [hobjects]
  cases op with
  | up n =>
    rw [objectsAfter]
    split
    · exact counters_setSemaphore hon _
    · rfl
  | down n =>
    rw [objectsAfter]
    split
    · rfl
    · exact counters_setSemaphore hon _
  | semaphoreInit n v => exact counters_setSemaphore hon _
  | barrierInit n goal => exact counters_setBarrier hon _ _
  | barrierWait n =>
    have h := counters_setBarrier (s := s) hon
      (if s.notArriveNum n = 1 then s.maxNum n else s.notArriveNum n - 1) (s.maxNum n)
    rwa [Function.update_eq_self] at h
  | resume =>
    rw [objectsAfter]
    split
    · rfl
    · split <;> rfl
  | acquire m =>
    rw [objectsAfter]
    split <;> rfl
  | spawn t =>
    rw [objectsAfter]
    split <;> rfl
  | _ => rfl

end Counters

/-- Calls without `do_kill` in a run that shares the object with queue `q`: only the object's own
operations touch it, and it is not initialised again. -/
def SharedCall (q : QueueRef) : Op → Prop
  | .kill _ => False
  | .block q' | .unblockOne q' | .unblockAll q' => q' ≠ .ready ∧ q' ≠ .sleeping ∧ q' ≠ q
  | .semaphoreInit x _ => q ≠ .semaphore x
  | .conditionInit c => q ≠ .condition c
  | .barrierInit b _ => q ≠ .barrier b
  | _ => True

theorem SharedCall.killsFind (h : SharedCall q op) : KillsFind s op := by
  refine ⟨?_, ?_⟩
  · cases op <;> first | exact trivial | exact ⟨h.1, h.2.1⟩
  · rintro n rfl
    exact h.elim

structure Traced (γ : Type) where
  kernel : Kernel
  record : γ

section Traced
variable {γ : Type} {P : Traced γ → Op → Prop} {log : Traced γ → Op → Kernel → γ} {c₀ c : Traced γ}

def traceStep (log : Traced γ → Op → Kernel → γ) (c : Traced γ) (op : Op) :
    Except Fault (Traced γ) := do
  let s ← step op c.kernel
  return ⟨s, log c op s⟩

def TracedSteps (P : Traced γ → Op → Prop) (log : Traced γ → Op → Kernel → γ)
    (c c' : Traced γ) : Prop := ∃ op, P c op ∧ traceStep log c op = .ok c'

theorem traced_invariant {I : Traced γ → Prop} (hrun : ReflTransGen (TracedSteps P log) c₀ c)
    (hP : ∀ c op, P c op → KillsFind c.kernel op)
    (hstep : ∀ c op s', WellFormed c.kernel → I c → P c op → step op c.kernel = .ok s' →
    I ⟨s', log c op s'⟩)
    (h₀ : WellFormed c₀.kernel) (hI : I c₀) :
    WellFormed c.kernel ∧ I c := by
  induction hrun with
  | refl => exact ⟨h₀, hI⟩
  | @tail b c _ hbc ih =>
    obtain ⟨op, hop, hrec⟩ := hbc
    obtain ⟨s', hs', hc⟩ := exists_of_bind_ok hrec
    cases hc
    exact ⟨ih.1.step (hP b op hop) hs', hstep b op s' ih.1 ih.2 hop hs'⟩

theorem traced_of_foldlM {ops : List Op} (hP : ∀ op ∈ ops, ∀ c, P c op)
    (h : ops.foldlM (traceStep log) c₀ = .ok c) : ReflTransGen (TracedSteps P log) c₀ c :=
  ReflTransGen.mono (fun c _ ⟨op, hop, hrun⟩ => ⟨op, hP op hop c, hrun⟩) _ _ (path_of_foldlM h)

theorem traced_of_checked {check : Traced γ → Op → Bool} {ops : List Op}
    (hP : ∀ c op, check c op = true → P c op)
    (h : ops.foldlM (checked check .disabled (traceStep log)) c₀ = .ok c) :
    ReflTransGen (TracedSteps P log) c₀ c :=
  ReflTransGen.mono (fun c _ ⟨op, hop, hrun⟩ => ⟨op, hP c op hop, hrun⟩) _ _ (path_of_checked h)

end Traced

end Ucas.Sched

import UcasOs.Sched.Priority
import UcasOs.Sched.Objects
import Mathlib.Algebra.Order.BigOperators.Group.Finset
import Mathlib.Algebra.BigOperators.Group.Finset.Piecewise
import Mathlib.Algebra.Ring.Nat

/-! How often `scheduler` can pass over a process that is ready. Whoever it picks in front of that
process makes room for it, and whoever it picks behind it has a higher priority and loses some of it
by running. -/

namespace Ucas.Sched
open Ucas.Lib

variable {s s' t : Kernel} {p r : PcbRef} {q : QueueRef} {op : Op} {L : Lists}

def Tasks.lead (s : Tasks) (π : Int) (r : PcbRef) : Nat :=
  if π < s.priority r then (s.priority r - π).toNat + (if r = s.currentRunning then 0 else 1) else 0

def Kernel.rank (s : Kernel) (p : PcbRef) : Nat :=
  (s.members .ready).idxOf p + ∑ r, s.lead (s.priority p) r

section Later

structure Later (p : PcbRef) (s s' : Kernel) : Prop where
  family : Family s'.queues s'.members
  priority : s'.priority = s.priority
  current : s'.currentRunning = s.currentRunning
  place : p ∈ s.members .ready → p ∈ s'.members .ready ∧
    (s'.members .ready).idxOf p ≤ (s.members .ready).idxOf p

def Steady (p : PcbRef) (f : Kernel → Except Fault Kernel) : Prop :=
  ∀ s s', Family s.queues s.members → f s = .ok s' → Later p s s'

theorem Later.trans {u : Kernel} (h : Later p s t) (h' : Later p t u) : Later p s u where
  family := h'.family
  priority := h'.priority.trans h.priority
  current := h'.current.trans h.current
  place hp := ⟨(h'.place (h.place hp).1).1, (h'.place (h.place hp).1).2.trans (h.place hp).2⟩

theorem Later.of_append (hL : Family s'.queues L) (hprio : s'.priority = s.priority)
    (hcur : s'.currentRunning = s.currentRunning) {l : List PcbRef}
    (hready : L .ready = s.members .ready ++ l) :
    Later p s s' := by
  have hmem : s'.members = L := funext (members_eq hL)
  refine ⟨hmem ▸ hL, hprio, hcur, fun hp => ?_⟩
  rw [hmem, hready, List.idxOf_append_of_mem hp]
  exact ⟨List.mem_append_left _ hp, le_rfl⟩

theorem Later.of_eq (hs : Family s.queues s.members) (hqueues : s'.queues = s.queues)
    (hprio : s'.priority = s.priority)
    (hcur : s'.currentRunning = s.currentRunning) : Later p s s' :=
  .of_append (L := s.members) (hqueues ▸ hs) hprio hcur (List.append_nil _).symm

theorem Later.refl (hs : Family s.queues s.members) : Later p s s := .of_eq hs rfl rfl rfl

theorem Steady.bind {f g : Kernel → Except Fault Kernel} (hf : Steady p f) (hg : Steady p g) :
    Steady p fun s => f s >>= g := by
  intro s s' hs h
  obtain ⟨t, ht, h⟩ := exists_of_bind_ok h
  have hlater := hf s t hs ht
  exact hlater.trans (hg t s' hlater.family h)

theorem Steady.pure : Steady p .ok := by
  intro s s' hs h
  cases h
  exact .refl hs

theorem Steady.error {e : Fault} : Steady p fun _ => .error e := by
  intro s s' hs h
  cases h

theorem Steady.ite {c : Kernel → Prop} [DecidablePred c] {f g : Kernel → Except Fault Kernel}
    (hf : Steady p f)
    (hg : Steady p g) : Steady p fun s => if c s then f s else g s := by
  intro s s' hs h
  by_cases hc : c s
  · exact hf s s' hs ((if_pos hc).symm.trans h)
  · exact hg s s' hs ((if_neg hc).symm.trans h)

theorem steady_foldlM {β : Type} {f : Kernel → β → Except Fault Kernel} (l : List β)
    (hf : ∀ x, Steady p fun s => f s x) :
    Steady p fun s => l.foldlM f s := by
  induction l with
  | nil => exact .pure
  | cons x l ih => exact fun s s' hs h => (hf x).bind ih s s' hs (List.foldlM_cons.symm.trans h)

theorem later_wake (hs : Family s.queues s.members) (hr : r ∈ s.members q) (hq : q ≠ .ready)
    (h : (do makeReady r { s with queues := ← queueRemove q r s.queues }) = .ok s') :
    Later p s s' := by
  obtain ⟨l, hrun, hfam⟩ := wake_eq hs hr
  cases hrun.symm.trans h
  exact .of_append (l := [r]) hfam rfl rfl (by simp [enqueue, unlink, hq.symm])

theorem steady_doUnblockOne (hq : q ≠ .ready) : Steady p (doUnblockOne q) := by
  intro s s' hs h
  rw [doUnblockOne] at h
  split at h
  · exact Steady.pure s s' hs h
  · next hne =>
    obtain ⟨r, hclimb, h⟩ := exists_of_bind_ok h
    obtain ⟨r', hr, hclimb'⟩ := queueClimb_family hs (mt (queueIsEmpty_iff hs).mpr hne) s.priority
    cases hclimb.symm.trans hclimb'
    exact later_wake hs hr hq h

theorem steady_wakeHead (hq : q ≠ .ready) : Steady p (wakeHead q) := by
  intro s s' hs h
  cases hl : s.members q with
  | nil =>
    have hhead : (s.queues.queue q).head = none := by
      rw [(hs.repr q).head, hl]
      rfl
    rw [wakeHead, queueDequeue, hhead] at h
    cases h
  | cons r l =>
    have hr : r ∈ s.members q := hl ▸ List.mem_cons_self
    obtain ⟨d, hdequeue, hrest⟩ := exists_of_bind_ok h
    obtain ⟨s'', hs'', hact⟩ := wakeHead_sim hs hl
    cases h.symm.trans hs''
    obtain ⟨h', -, hd⟩ := exists_of_bind_ok hrest
    cases hd
    refine .of_append hact.lists rfl rfl (l := [r]) ?_
    simp [act, enqueue, unlink, hq.symm, Tasks.abs]

theorem steady_drain {f : Kernel → Except Fault Kernel} (hf : Steady p f) (n : Nat) :
    Steady p (drain q f n) := by
  induction n with
  | zero => exact .ite .pure .error
  | succ n ih => exact .ite .pure (hf.bind ih)

theorem later_eraseWaiters (m : MutexRef) (l : List PcbRef) (hs : Family s.queues s.members) :
    Later p s (l.foldl (eraseWaiter m) s) := by
  induction l generalizing s with
  | nil => exact .refl hs
  | cons r l ih =>
    have hone : Later p s (eraseWaiter m s r) := .of_eq hs rfl rfl rfl
    exact hone.trans (ih hone.family)

theorem steady_release (m : MutexRef) : Steady p (doMutexLockRelease m) := by
  intro s s' hs h
  rw [doMutexLockRelease] at h
  split at h
  · obtain ⟨l, -, h⟩ := exists_of_bind_ok h
    have hset : Later p s { s with mutexStatus := Function.update s.mutexStatus m .unlocked } :=
      .of_eq hs rfl rfl rfl
    have herase := hset.trans (later_eraseWaiters m l hset.family)
    exact herase.trans (steady_drain (steady_doUnblockOne (by simp)) fuel _ _ herase.family h)
  · exact Steady.pure s s' hs h

theorem steady_releaseAll (r : PcbRef) : Steady p (releaseAll r) := by
  refine steady_foldlM _ fun i s s' hs h => ?_
  simp only [releaseRecord] at h
  split at h
  · exact Steady.pure s s' hs h
  · exact steady_release _ s s' hs h

section Block
variable (hs : Family s.queues s.members) (hcur : ∀ q, s.currentRunning ∉ s.members q)
include hs hcur

theorem later_blockCurrent (hq : q ≠ .ready) (h : blockCurrent q s = .ok s') : Later p s s' := by
  obtain ⟨l, hpush, hfam⟩ := queuePush_family (q := q) hs hcur
  rw [blockCurrent, hpush] at h
  cases h
  exact .of_append (l := []) hfam rfl rfl (by simp [hq.symm])

theorem later_sleepCurrent {n : Nat} (h : sleepCurrent n s = .ok s') : Later p s s' := by
  obtain ⟨l, hpush, hfam⟩ := queuePush_family (q := QueueRef.sleeping) hs hcur
  simp only [sleepCurrent, hpush, ok_bind] at h
  cases h
  exact .of_append (l := []) hfam rfl rfl (by simp)

end Block

theorem later_whenRunning {f : Kernel → Except Fault Kernel} (hs : Family s.queues s.members)
    (hf : f s = .ok s' → Later p s s') (h : whenRunning f s = .ok s') : Later p s s' := by
  rw [whenRunning] at h
  split at h
  · exact hf h
  · exact Steady.pure s s' hs h

theorem idxOf_erase_le {l : List PcbRef} (hne : r ≠ p) : (l.erase r).idxOf p ≤ l.idxOf p := by
  induction l with
  | nil => exact le_rfl
  | cons a l ih =>
    by_cases har : a = r
    · subst har
      rw [List.erase_cons_head, List.idxOf_cons_ne _ hne]
      exact Nat.le_succ _
    · rw [List.erase_cons_tail (by simpa using har)]
      by_cases hap : a = p
      · subst hap
        rw [List.idxOf_cons_self]
        exact Nat.zero_le _
      · rw [List.idxOf_cons_ne _ hap, List.idxOf_cons_ne _ hap]
        exact Nat.succ_le_succ ih

theorem later_leave (hs : Family s.queues s.members) (hr : r ∈ s.members q) (hne : r ≠ p)
    (h : (do return { s with queues := ← queueRemove q r s.queues } : Except Fault Kernel) = .ok
    s') :
    Later p s s' := by
  obtain ⟨l, hremove, hfam⟩ := queueRemove_family hs hr
  rw [hremove] at h
  cases h
  have hmem : Kernel.members { s with queues := l } = unlink q r s.members :=
    funext (members_of_family hfam)
  refine ⟨hmem ▸ hfam, rfl, rfl, fun hp => ?_⟩
  rw [hmem]
  by_cases hq : q = .ready
  · subst hq
    rw [unlink, Function.update_self]
    exact ⟨(List.mem_erase_of_ne hne.symm).mpr hp, idxOf_erase_le hne⟩
  · rw [unlink, Function.update_of_ne (Ne.symm hq)]
    exact ⟨hp, le_rfl⟩

theorem steady_leaveLocks (hne : r ≠ p) : Steady p (leaveLocks r) := by
  refine steady_foldlM _ fun k s s' hs h => ?_
  obtain ⟨found, hfound, h⟩ := exists_of_bind_ok h
  rw [checkInQueue_eq hs] at hfound
  cases found with
  | true => exact later_leave hs (of_decide_eq_true (Except.ok.inj hfound)) hne h
  | false => exact Steady.pure s s' hs h

theorem later_killPcb (hs : Family s.queues s.members) (hrem : Removable (s.toTasks.abs s.members)
    r) (hne : r ≠ p)
    (h : killPcb r s = .ok s') : Later p s s' := by
  rw [killPcb] at h
  split at h
  · obtain ⟨t, ht, h⟩ := exists_of_bind_ok h
    have hleave : Later p s t := by
      simp only [Removable, Tasks.abs] at hrem
      rw [leaveQueue] at ht
      cases hst : s.status r with
      | ready | created | sleeping =>
        exact later_leave hs (by simpa [hst] using hrem) hne (by simpa [hst] using ht)
      | blocked => exact steady_leaveLocks hne s t hs (by simpa [hst] using ht)
      | running | exited => exact Steady.pure s t hs (by simpa [hst] using ht)
    have hdie : Later p s { t with status := Function.update t.status r .exited } :=
      hleave.trans (.of_eq hleave.family rfl rfl rfl)
    exact hdie.trans ((steady_releaseAll r).bind (steady_drain (steady_wakeHead (by simp)) fuel) _ _
      hdie.family h)
  · exact Steady.pure s s' hs h

end Later

section Step

theorem Sim.linked {a : Abs} (hs : Sim s a) (hT : Tidy a) : s.Linked := by
  have hmem : s.members = a.lists := funext hs.members
  obtain ⟨L, hL, rfl⟩ := hs
  refine ⟨hmem ▸ hL, fun hrun => ?_⟩
  rw [hmem]
  exact hT.running _ hrun

theorem WellFormed.family (h : WellFormed s) : Family s.queues s.members := by
  obtain ⟨a, hs, hT, -⟩ := h
  exact (hs.1.linked hT).family

theorem WellFormed.removable (h : WellFormed s) {n : Nat} (hop : KillsFind s (.kill n))
    {i : Fin numMaxTask}
    (hi : slotOfPid n s.toTasks = some i) : Removable (s.toTasks.abs s.members) (.task i) := by
  obtain ⟨a, hs, -, hz⟩ := h
  have hcovered := hop.covered hs.1 hz i hi
  have hmem : s.members = a.lists := funext hs.1.members
  obtain ⟨⟨L, hL, rfl⟩, -⟩ := hs
  rwa [hmem]

def Settles (p : PcbRef) (s s' : Kernel) (call : Except Fault (Option Kernel)) : Prop :=
  (∃ t, call = .ok (some t) ∧ Later p s t ∧ scheduler t = .ok s') ∨ call = .ok none ∧ Later p s s'

theorem Settles.of_bind {e : Except Fault Kernel} {k : Resume} (he : ∀ u, e = .ok u → Later p s u)
    (h : e >>= doScheduler k = .ok s') : Settles p s s' (do return some (saved k (← e))) := by
  obtain ⟨u, rfl, h⟩ := exists_of_bind_ok h
  exact .inl ⟨saved k u, rfl, (he u rfl).trans (.of_eq (he u rfl).family rfl rfl rfl), h⟩

theorem Later.init (hs : Family s.queues s.members) (hq : q ≠ .ready)
    (hqueues : s'.queues = queueInit q s.queues)
    (hprio : s'.priority = s.priority) (hcur : s'.currentRunning = s.currentRunning) :
    Later p s s' :=
  .of_append (L := Function.update s.members q []) (l := []) (hqueues ▸ queueInit_family hs) hprio
    hcur (by simp [hq.symm])

variable (hw : WellFormed s)
include hw

theorem settles_acquire {m : MutexRef} (h : doMutexLockAcquire m s = .ok s') :
    Settles p s s' (acquireCall m s) := by
  unfold doMutexLockAcquire at h
  unfold acquireCall
  split at h
  · next hm =>
    rw [if_pos hm]
    exact .of_bind (fun u => later_whenRunning hw.family (later_blockCurrent hw.family
      hw.current_not_mem (by simp))) h
  · next hm =>
    cases h
    refine .inr ⟨if_neg hm, ?_⟩
    rw [recordLock]
    split
    · exact .of_eq hw.family rfl rfl rfl
    · exact .of_eq hw.family rfl rfl rfl

theorem settles_exit (h : doExit s = .ok s') : Settles p s s' (exitCall s) := by
  obtain ⟨s₁, hs₁, h⟩ := exists_of_bind_ok h
  obtain ⟨s₂, hs₂, h⟩ := exists_of_bind_ok h
  have hrelease : Later p s s₁ := steady_releaseAll s.currentRunning s s₁ hw.family hs₁
  have hdrain := hrelease.trans (steady_drain (steady_wakeHead (by simp)) fuel s₁ s₂ hrelease.family
    hs₂)
  refine .inl ⟨saved .user { s₂ with status := Function.update s₂.status s.currentRunning .exited },
    ?_,
    hdrain.trans (.of_eq hdrain.family rfl rfl rfl), h⟩
  rw [exitCall, hs₁, ok_bind, hs₂]
  rfl

theorem settles_waitpid {n : Nat} (h : doWaitpid n s = .ok s') :
    Settles p s s' (execCall (.waitpid n) s) := by
  rw [doWaitpid] at h
  rw [execCall]
  cases hslot : slotOfPid n s.toTasks with
  | none =>
    rw [hslot] at h
    cases h
    exact .inr ⟨rfl, .refl hw.family⟩
  | some i =>
    simp only [hslot] at h ⊢
    split at h
    · next hlive =>
      rw [if_pos hlive]
      exact .of_bind (fun u => later_blockCurrent hw.family hw.current_not_mem (by simp)) h
    · next hlive =>
      cases h
      exact .inr ⟨if_neg hlive, .refl hw.family⟩

theorem settles_kill {n : Nat} (hop : KillsFind s (.kill n))
    (hne : ∀ i, slotOfPid n s.toTasks = some i → .task i ≠ p)
    (h : doKill n s = .ok s') : Settles p s s' (killCall n s) := by
  rw [doKill] at h
  rw [killCall]
  cases hslot : slotOfPid n s.toTasks with
  | none =>
    rw [hslot] at h
    cases h
    exact .inr ⟨rfl, .refl hw.family⟩
  | some i =>
    simp only [hslot] at h ⊢
    obtain ⟨s₁, hs₁, h⟩ := exists_of_bind_ok h
    have hlater := later_killPcb hw.family (hw.removable hop hslot) (hne i hslot) hs₁
    rw [hs₁, ok_bind]
    split at h
    · next hpid => exact .inl ⟨_, if_pos hpid, hlater.trans (.of_eq hlater.family rfl rfl rfl), h⟩
    · next hpid =>
      cases h
      exact .inr ⟨if_neg hpid, hlater⟩

variable (hop : KillsFind s op) (hkill : ∀ n i, op = .kill n → slotOfPid n s.toTasks = some i →
  .task i ≠ p)
include hop hkill

theorem settles_exec (hspawn : ∀ t, op ≠ .spawn t) (h : exec op s = .ok s') :
    Settles p s s' (execCall op s) := by
  have hs := hw.family
  have hblock : ∀ {q}, q ≠ .ready → ∀ u, blockCurrent q s = .ok u → Later p s u :=
    fun hq u => later_blockCurrent hs hw.current_not_mem hq
  cases op with
  | schedule => exact .inl ⟨_, rfl, .of_eq hs rfl rfl rfl, h⟩
  | tick recv =>
    refine .of_bind (fun u hu => ?_) h
    have hset : Later p s { s with timeElapsed := word (s.timeElapsed + 15) } :=
      .of_eq hs rfl rfl rfl
    have hcheck : Steady p (checkRecvBlockQueue recv) := .ite (steady_doUnblockOne (by simp)) .pure
    exact hset.trans (hcheck _ u hset.family hu)
  | resume => cases h
  | spawn t => exact absurd rfl (hspawn t)
  | exit => exact settles_exit hw h
  | waitpid n => exact settles_waitpid hw h
  | kill n => exact settles_kill hw hop (fun i => hkill n i rfl) h
  | sleep n =>
    exact .of_bind (fun u => later_whenRunning hs (later_sleepCurrent hs hw.current_not_mem)) h
  | block q => exact .of_bind (fun u => later_whenRunning hs (hblock hop.1.1 u)) h
  | unblockOne q => exact .inr ⟨rfl, steady_doUnblockOne hop.1.1 s s' hs h⟩
  | unblockAll q => exact .inr ⟨rfl, steady_drain (steady_doUnblockOne hop.1.1) fuel s s' hs h⟩
  | mutexInit m =>
    cases h
    exact .inr ⟨rfl, .init (q := .mutex m) hs (by simp) rfl rfl rfl⟩
  | acquire m => exact settles_acquire hw h
  | release m => exact .inr ⟨rfl, steady_release m s s' hs h⟩
  | semaphoreInit n val =>
    cases h
    exact .inr ⟨rfl, .init (q := .semaphore n) hs (by simp) rfl rfl rfl⟩
  | up n =>
    refine .inr ⟨rfl, ?_⟩
    rw [exec, doSemaphoreUp] at h
    split at h
    · cases h
      exact .of_eq hs rfl rfl rfl
    · exact steady_wakeHead (by simp) s s' hs h
  | down n =>
    rw [exec, doSemaphoreDown] at h
    rw [execCall]
    split at h
    · next hzero =>
      rw [if_pos hzero]
      exact .of_bind (hblock (by simp)) h
    · next hzero =>
      cases h
      exact .inr ⟨if_neg hzero, .of_eq hs rfl rfl rfl⟩
  | conditionInit c =>
    cases h
    exact .inr ⟨rfl, .init (q := .condition c) hs (by simp) rfl rfl rfl⟩
  | wait m c =>
    obtain ⟨s₁, hs₁, h⟩ := exists_of_bind_ok h
    have hlater := hblock (by simp) s₁ hs₁
    rw [execCall, hs₁]
    exact .of_bind (fun u hu => hlater.trans (steady_release m s₁ u hlater.family hu)) h
  | signal c =>
    have hsignal : Steady p (doConditionSignal c) := .ite .pure (steady_wakeHead (by simp))
    exact .inr ⟨rfl, hsignal s s' hs h⟩
  | broadcast c => exact .inr ⟨rfl, steady_drain (steady_wakeHead (by simp)) fuel s s' hs h⟩
  | barrierInit b goal =>
    cases h
    exact .inr ⟨rfl, .init (q := .barrier b) hs (by simp) rfl rfl rfl⟩
  | barrierWait b =>
    rw [exec, doBarrierWait] at h
    rw [execCall]
    split at h
    · next hone =>
      obtain ⟨u, hu, h⟩ := exists_of_bind_ok h
      cases h
      have hclear := steady_drain (p := p) (steady_wakeHead (by simp)) fuel s u hs hu
      exact .inr ⟨if_pos hone, hclear.trans (.of_eq hclear.family rfl rfl rfl)⟩
    · next hone =>
      let s₁ : Kernel :=
        { s with notArriveNum := Function.update s.notArriveNum b (s.notArriveNum b - 1) }
      have hset : Later p s s₁ := .of_eq hs rfl rfl rfl
      rw [if_neg hone]
      exact .of_bind (fun u hu => hset.trans (later_blockCurrent (s := s₁) hset.family
        hw.current_not_mem (by simp) hu)) h

theorem settles_step (h : step op s = .ok s') :
    Settles p s s' (schedulerCall op s) ∨ ∃ i, op = .spawn i ∧ schedulerCall op s = .ok none ∧
    doSpawn i s = .ok s' := by
  unfold schedulerCall
  unfold step at h
  cases hctx : s.kernelContext s.currentRunning with
  | user =>
    simp only [hctx] at h ⊢
    by_cases hspawn : ∃ i, op = .spawn i
    · obtain ⟨i, rfl⟩ := hspawn
      exact .inr ⟨i, rfl, rfl, h⟩
    · exact .inl (settles_exec hw hop hkill (fun i hi => hspawn ⟨i, hi⟩) h)
  | acquire m =>
    simp only [hctx] at h ⊢
    split at h
    · next hres =>
      let s₁ : Kernel :=
        { s with kernelContext := Function.update s.kernelContext s.currentRunning .user }
      have hset : Later p s s₁ := .of_eq hw.family rfl rfl rfl
      rw [if_pos hres]
      refine .inl ((settles_acquire (s := s₁) (p := p) hw h).imp ?_ (And.imp_right hset.trans))
      exact fun ⟨t, hcall, hlater, hrun⟩ => ⟨t, hcall, hset.trans hlater, hrun⟩
    · cases h

end Step

section Rank

theorem Later.rank_le (h : Later p s t) (hp : p ∈ s.members .ready) : t.rank p ≤ s.rank p := by
  have hlead : t.lead (t.priority p) = s.lead (s.priority p) := by
    funext r
    simp only [Tasks.lead, h.priority, h.current]
  rw [Kernel.rank, Kernel.rank, hlead]
  exact Nat.add_le_add_right (h.place hp).2 _

theorem later_yieldCurrent (hs : s.Linked) (h : yieldCurrent s = .ok s') : Later p s s' := by
  simp only [yieldCurrent] at h
  split at h
  · next hrun =>
    split at h
    · obtain ⟨l, hpush, hfam⟩ := queuePush_family (q := QueueRef.ready) hs.family (hs.running hrun)
      simp only [makeReady, hpush, ok_bind] at h
      cases h
      exact .of_append hfam rfl rfl (Function.update_self ..)
    · cases h
      exact .of_eq hs.family rfl rfl rfl
  · cases h
    exact .of_eq hs.family rfl rfl rfl

theorem steady_checkSleeping : Steady p checkSleeping := by
  intro s s' hs h
  cases hfind : (s.members .sleeping).find? s.due with
  | none =>
    cases h.symm.trans (checkSleeping_of_none hs hfind)
    exact .refl hs
  | some r =>
    obtain ⟨l, hrun, hfam⟩ := checkSleeping_of_some hs hfind
    cases h.symm.trans hrun
    exact .of_append (l := [r]) hfam rfl rfl (by simp [enqueue, unlink])

theorem steady_awaitReady (n : Nat) : Steady p (awaitReady n) := by
  induction n with
  | zero => exact .ite .error .pure
  | succ n ih => exact .ite (steady_checkSleeping.bind ih) .pure

theorem lead_dispatch {u : Tasks} (π : Int) (hprio : u.priority =
      Function.update s.priority s.currentRunning (s.priority s.currentRunning - 1))
    (hcur : u.currentRunning = r) :
    (∀ x, u.lead π x ≤ s.lead π x) ∧ (π < s.priority r → u.lead π r < s.lead π r) := by
  have hold : ∀ x, u.priority x = s.priority x - if x = s.currentRunning then 1 else 0 := by
    intro x
    rw [hprio]
    by_cases hx : x = s.currentRunning
    · simp [hx]
    · simp [hx]
  refine ⟨fun x => ?_, fun hr => ?_⟩
  · rw [Tasks.lead, Tasks.lead, hold, hcur]
    split_ifs <;> omega
  · simp only [Tasks.lead, hold, hcur, if_true]
    split_ifs <;> omega

theorem idxOf_erase_peak {l : List PcbRef} {a : PcbRef} {priority : PcbRef → Int}
    (hr : firstPeak priority a l = r) (hne : r ≠ p) :
    ((a :: l).erase r).idxOf p < (a :: l).idxOf p ∨
      ((a :: l).erase r).idxOf p = (a :: l).idxOf p ∧ priority p < priority r := by
  obtain ⟨before, after, hsplit, hpair⟩ := firstPeak_split priority a l
  rw [hr] at hsplit hpair
  have hrise : ∀ b ∈ before, priority b < priority r := fun b hb =>
    (List.pairwise_append.mp hpair).2.2 b hb r (List.mem_singleton_self r)
  have herase : (a :: l).erase r = before ++ after := by
    rw [hsplit, List.erase_append_right _ fun hmem => lt_irrefl _ (hrise r hmem),
      List.erase_cons_head]
  rw [herase, hsplit]
  by_cases hmem : p ∈ before
  · right
    rw [List.idxOf_append_of_mem hmem, List.idxOf_append_of_mem hmem]
    exact ⟨rfl, hrise p hmem⟩
  · left
    rw [List.idxOf_append_of_notMem hmem, List.idxOf_append_of_notMem hmem, List.idxOf_cons_ne _
      hne]
    omega

/-- Every priority can be lowered `k` more times before `priority--` wraps around. -/
def Tasks.Room (s : Tasks) (k : Nat) : Prop :=
  ∀ r, -2 ^ 31 + (k : Int) < s.priority r ∧ s.priority r ≤ initialPriority

theorem Tasks.Room.mono {u : Tasks} {k n : Nat} (h : u.Room k) (hn : n ≤ k) : u.Room n := by
  intro r
  have hr := h r
  omega

theorem Tasks.Room.int_pred {u : Tasks} (h : u.Room 0) (r : PcbRef) :
    int (u.priority r - 1) = u.priority r - 1 := by
  obtain ⟨hmin, hmax⟩ := h r
  simp only [initialPriority] at hmax
  exact int_of_lt (by omega) (by omega)

theorem dispatch_cases (hs : Family s.queues s.members) (h : dispatch s = .ok s') :
    ∃ a l, s.members .ready = a :: l ∧ s'.currentRunning = firstPeak s.priority a l ∧
      s'.members .ready = (s.members .ready).erase s'.currentRunning ∧ s'.priority =
        Function.update s.priority s.currentRunning (int (s.priority s.currentRunning - 1)) := by
  cases hl : s.members .ready with
  | nil =>
    rw [dispatch_of_empty hs hl] at h
    cases h
  | cons a l =>
    rw [dispatch, queueClimb_eq hs hl, ok_bind] at h
    obtain ⟨queues, hremove, h⟩ := exists_of_bind_ok h
    cases h
    obtain ⟨queues', hremove', hfam⟩ := queueRemove_family hs (hl ▸ firstPeak_mem s.priority a l)
    cases hremove.symm.trans hremove'
    refine ⟨a, l, rfl, rfl, ?_, rfl⟩
    rw [members_of_family hfam, Function.update_self, hl]

theorem rank_dispatch (hs : Family s.queues s.members) (hroom : s.Room 0)
    (hcur : s.currentRunning ≠ p) (h : dispatch s = .ok s') (hne : s'.currentRunning ≠ p) :
    s'.rank p < s.rank p := by
  obtain ⟨a, l, hl, hpeak, hready, hprio⟩ := dispatch_cases hs h
  rw [hroom.int_pred] at hprio
  obtain ⟨hle, hlt⟩ := lead_dispatch (s.priority p) hprio rfl
  have hself : s'.priority p = s.priority p := by rw [hprio, Function.update_of_ne hcur.symm]
  rw [Kernel.rank, Kernel.rank, hready, hself, hl]
  rcases idxOf_erase_peak hpeak.symm hne with hidx | ⟨hidx, hrise⟩
  · exact Nat.add_lt_add_of_lt_of_le hidx (Finset.sum_le_sum fun r _ => hle r)
  · exact Nat.add_lt_add_of_le_of_lt hidx.le
      (Finset.sum_lt_sum (fun r _ => hle r) ⟨s'.currentRunning, Finset.mem_univ _, hlt hrise⟩)

theorem Later.room {k : Nat} (h : Later p s t) (hs : s.Room k) : t.Room k := by
  intro r
  rw [h.priority]
  exact hs r

theorem scheduler_later (hs : s.Linked) (h : scheduler s = .ok s') :
    ∃ t, Later p s t ∧ dispatch t = .ok s' := by
  obtain ⟨t, ht, h⟩ := exists_of_bind_ok h
  obtain ⟨u, hu, h⟩ := exists_of_bind_ok h
  obtain ⟨v, hv, h⟩ := exists_of_bind_ok h
  have hyield : Later p s t := later_yieldCurrent hs ht
  have hcheck := hyield.trans (steady_checkSleeping t u hyield.family hu)
  exact ⟨v, hcheck.trans (steady_awaitReady fuel u v hcheck.family hv), h⟩

theorem rank_scheduler (hs : s.Linked) (hroom : s.Room 0) (hp : p ∈ s.members .ready)
    (hcur : s.currentRunning ≠ p) (h : scheduler s = .ok s') (hne : s'.currentRunning ≠ p) :
    s'.priority p = s.priority p ∧ s'.rank p < s.rank p := by
  obtain ⟨t, hlater, h⟩ := scheduler_later (p := p) hs h
  have hroom' := hlater.room hroom
  have hcur' : t.currentRunning ≠ p := by rwa [hlater.current]
  obtain ⟨-, -, -, -, -, hprio⟩ := dispatch_cases hlater.family h
  refine ⟨?_, (rank_dispatch hlater.family hroom' hcur' h hne).trans_le (hlater.rank_le hp)⟩
  rw [hprio, Function.update_of_ne hcur'.symm, hlater.priority]

/-- What a new process adds to the rank of one with priority `π`. -/
def newcomer (π : Int) : Nat := if π < initialPriority then (initialPriority - π).toNat + 1 else 0

theorem lead_spawn {u : Tasks} (π : Int) (hprio : u.priority = Function.update s.priority r
    initialPriority)
    (hcur : u.currentRunning = s.currentRunning) :
    ∑ x, u.lead π x ≤ ∑ x, s.lead π x + newcomer π := by
  have hterm : ∀ x, u.lead π x ≤ s.lead π x + if x = r then newcomer π else 0 := by
    intro x
    by_cases hx : x = r
    · simp only [Tasks.lead, newcomer, hprio, hx, Function.update_self, if_true]
      split_ifs <;> omega
    · simp [Tasks.lead, hprio, hcur, hx]
  calc ∑ x, u.lead π x ≤ ∑ x, (s.lead π x + if x = r then newcomer π else 0) :=
    Finset.sum_le_sum fun x _ => hterm x
    _ = ∑ x, s.lead π x + newcomer π := by
      rw [Finset.sum_add_distrib, Finset.sum_ite_eq' Finset.univ r, if_pos (Finset.mem_univ r)]

theorem WellFormed.not_exited (hw : WellFormed s) (hp : p ∈ s.members q) :
    s.status p ≠ .exited := by
  obtain ⟨a, hs, hT, -⟩ := hw
  rw [hs.1.members] at hp
  obtain ⟨⟨L, -, rfl⟩, -⟩ := hs
  exact fun h => hT.exited p h q hp

theorem doSpawn_cases (hw : WellFormed s) {i : TaskInfo} (h : doSpawn i s = .ok s') :
    Later p s s' ∨ ∃ r, s.status r = .exited ∧ s'.priority = Function.update s.priority r
    initialPriority ∧
      s'.currentRunning = s.currentRunning ∧ s'.members .ready = s.members .ready ++ [r] := by
  have hs := hw.family
  rw [doSpawn] at h
  split at h
  · cases h
    exact .inl (.of_eq hs rfl rfl rfl)
  · next k hk =>
    have hexited : s.status (.task k) = .exited := by simpa using List.find?_some hk
    obtain ⟨l, hpush, hfam⟩ := queuePush_family (q := QueueRef.ready) (queueInit_family
      (q := .waiting (.task k)) hs)
      fun q hq => hw.not_exited (mem_update_nil hq) hexited
    simp only [hpush, ok_bind] at h
    cases h
    refine .inr ⟨.task k, hexited, rfl, rfl, ?_⟩
    rw [members_of_family hfam]
    simp

theorem rank_doSpawn (hw : WellFormed s) {i : TaskInfo} (h : doSpawn i s = .ok s')
    (hp : p ∈ s.members .ready)
    (hp' : s.status p ≠ .exited) :
    s'.priority p = s.priority p ∧ s'.rank p ≤ s.rank p + newcomer (s.priority p) := by
  obtain hlater | ⟨r, hexited, hprio, hcur, hready⟩ := doSpawn_cases (p := p) hw h
  · exact ⟨congrFun hlater.priority p, (hlater.rank_le hp).trans (Nat.le_add_right ..)⟩
  · have hself : s'.priority p = s.priority p := by
      rw [hprio, Function.update_of_ne]
      rintro rfl
      exact hp' hexited
    have hsum := lead_spawn (s.priority p) hprio hcur
    rw [Kernel.rank, Kernel.rank, hready, hself, List.idxOf_append_of_mem hp]
    exact ⟨rfl, by omega⟩

end Rank

section Run

def turns (op : Op) (s : Kernel) : Nat :=
  match schedulerCall op s with
  | .ok (some _) => 1
  | _ => 0

def spawns : Op → Nat
  | .spawn _ => 1
  | _ => 0

theorem WellFormed.linked_call (hw : WellFormed s) (hop : KillsFind s op)
    (h : schedulerCall op s = .ok (some t)) :
    t.Linked := by
  obtain ⟨a, hs, hT, hz⟩ := hw
  obtain ⟨b, hpath, hb⟩ := schedulerCall_runs hs hT (hop.covered hs.1 hz) h
  exact hb.linked (tidy_path hT hpath)

theorem WellFormed.not_victim (hw : WellFormed s) {n : Nat} (hop : KillsFind s (.kill n))
    (h : Sched.step (.kill n) s = .ok s')
    (hp : p ∈ s'.members q) {i : Fin numMaxTask} (hi : slotOfPid n s.toTasks = some i) :
    .task i ≠ p := by
  obtain ⟨a, hs, hT, hz⟩ := hw
  obtain ⟨a', hs', -, -, hgone⟩ := kill_step hs hT hz (hop.2 n rfl) h
  rintro rfl
  rw [hs'.1.members] at hp
  exact (hgone i hi).2 q hp

theorem rank_step (hw : WellFormed s) (hop : KillsFind s op) (hroom : s.Room 0)
    (h : step op s = .ok s') (hp : p ∈ s.members .ready) (hp' : p ∈ s'.members .ready) :
    s'.priority p = s.priority p ∧
      s'.rank p + turns op s ≤ s.rank p + spawns op * newcomer (s.priority p) := by
  have hcur : s.currentRunning ≠ p := fun heq => hw.current_not_mem .ready (heq ▸ hp)
  have hcur' : s'.currentRunning ≠ p := fun heq => (hw.step hop h).current_not_mem .ready
    (heq ▸ hp')
  obtain (⟨t, hcall, hlater, hrun⟩ | ⟨hcall, hlater⟩) | ⟨i, rfl, hcall, hspawn⟩ :=
    settles_step (p := p) hw hop
    (by rintro n i rfl hi; exact hw.not_victim hop h hp' hi) h
  · obtain ⟨hprio, hrank⟩ := rank_scheduler (hw.linked_call hop hcall) (hlater.room hroom)
      (hlater.place hp).1 (by rwa [hlater.current]) hrun hcur'
    have hle := hlater.rank_le hp
    have hturn : turns op s = 1 := by rw [turns, hcall]
    exact ⟨hprio.trans (congrFun hlater.priority p), by omega⟩
  · have hturn : turns op s = 0 := by rw [turns, hcall]
    have hle := hlater.rank_le hp
    exact ⟨congrFun hlater.priority p, by omega⟩
  · have hturn : turns (.spawn i) s = 0 := by rw [turns, hcall]
    obtain ⟨hprio, hrank⟩ := rank_doSpawn hw hspawn hp (hw.not_exited hp)
    exact ⟨hprio, by rwa [hturn, spawns, Nat.one_mul, Nat.add_zero]⟩

/-- A run during which `p` stays ready, with `k` calls of `scheduler` and `n` of `do_spawn`. -/
inductive Waits (p : PcbRef) : Kernel → Kernel → Nat → Nat → Prop
  | refl {s : Kernel} (hp : p ∈ s.members .ready) : Waits p s s 0 0
  | step {s t s' : Kernel} {op : Op} {k n : Nat} (hp : p ∈ s.members .ready) (hop : KillsFind s op)
      (hrun : step op s = .ok t) (h : Waits p t s' k n) :
    Waits p s s' (turns op s + k) (spawns op + n)

theorem Waits.mem {k n : Nat} (h : Waits p s s' k n) : p ∈ s.members .ready := by
  cases h with
  | refl hp => exact hp
  | step hp => exact hp

theorem priority_step (hw : WellFormed s) (hop : KillsFind s op) (hroom : s.Room 0)
    (h : step op s = .ok s') (r : PcbRef) :
    (s.priority r - turns op s ≤ s'.priority r ∧ s'.priority r ≤ s.priority r) ∨
      s'.priority r = initialPriority := by
  -- `pcb_init` is nobody's victim, so `settles_step` applies to it
  obtain (⟨t, hcall, hlater, hrun⟩ | ⟨-, hlater⟩) | ⟨i, -, -, hspawn⟩ :=
    settles_step (p := .init) hw hop (by rintro n i - -; simp) h
  · obtain ⟨u, hawait, h⟩ := scheduler_later (p := .init) (hw.linked_call hop hcall) hrun
    have hturn : turns op s = 1 := by rw [turns, hcall]
    obtain ⟨-, -, -, -, -, hprio⟩ := dispatch_cases hawait.family h
    left
    rw [hprio, (hawait.room (hlater.room hroom)).int_pred, Function.update_apply, hawait.priority,
      hlater.priority, hturn]
    split_ifs with hr
    · subst hr
      omega
    · omega
  · left
    rw [hlater.priority]
    omega
  · obtain hlater | ⟨k, -, hprio, -⟩ := doSpawn_cases (p := .init) hw hspawn
    · left
      rw [hlater.priority]
      omega
    · rw [hprio, Function.update_apply]
      split_ifs
      · exact .inr rfl
      · left
        omega

theorem room_step (hw : WellFormed s) (hop : KillsFind s op) {k n : Nat} (hroom : s.Room k)
    (hk : n + turns op s ≤ k) (h : step op s = .ok s') : s'.Room n := by
  intro r
  have hr := hroom r
  rcases priority_step hw hop (hroom.mono (Nat.zero_le k)) h r with hr' | hr' <;> omega

theorem Waits.rank_le {k n : Nat} (h : Waits p s s' k n) (hw : WellFormed s)
    (hroom : s.Room (s.rank p + n * newcomer (s.priority p))) :
    s'.rank p + k ≤ s.rank p + n * newcomer (s.priority p) := by
  induction h with
  | refl hp => omega
  | @step s t s' op k n hp hop hrun h ih =>
    obtain ⟨hprio, hrank⟩ := rank_step hw hop (hroom.mono (Nat.zero_le _)) hrun hp h.mem
    rw [Nat.add_mul] at hroom ⊢
    have hroom' := room_step (n := t.rank p + n * newcomer (s.priority p)) hw hop hroom
      (by omega) hrun
    rw [← hprio] at hroom'
    have ih := ih (hw.step hop hrun) hroom'
    rw [hprio] at ih
    omega

/-- Calls before any priority has come down to the least `int`. -/
def Unwrapped (s : Kernel) (op : Op) : Prop := KillsFind s op ∧ ∀ r, -2 ^ 31 < s.priority r

theorem priority_le (h : Reachable Unwrapped s) :
    WellFormed s ∧ ∀ r, s.priority r ≤ initialPriority := by
  obtain ⟨e, s₀, -, hinit, hrun⟩ := h
  induction hrun with
  | refl =>
    refine ⟨⟨_, (initPcb_sim hinit).1, (initPcb_sim hinit).2, sleepers_initAbs⟩, fun r => ?_⟩
    obtain ⟨l, -, hs₀⟩ := exists_of_bind_ok hinit
    cases hs₀
    simp only [initialPriority]
    split <;> omega
  | tail _ hstep ih =>
    obtain ⟨op, ⟨hop, hlow⟩, hrun⟩ := hstep
    refine ⟨ih.1.step hop hrun, fun r => ?_⟩
    have hr := ih.2 r
    have hstep := priority_step ih.1 hop (fun r => ⟨by simpa using hlow r, ih.2 r⟩) hrun r
    omega

theorem rank_le (h : Reachable Unwrapped s) (hp : p ∈ s.members .ready) :
    s.rank p ≤ 40 + 41 * newcomer (s.priority p) := by
  obtain ⟨hw, hle⟩ := priority_le h
  have hidx : (s.members .ready).idxOf p ≤ 40 := by
    have hlt := List.idxOf_lt_length_of_mem hp
    have hlength := hw.length_lt .ready
    simp only [fuel, numMaxTask] at hlength
    omega
  have hlead : ∀ r ∈ Finset.univ, s.lead (s.priority p) r ≤ newcomer (s.priority p) := by
    intro r _
    have hr := hle r
    rw [Tasks.lead, newcomer]
    split_ifs <;> omega
  have hsum := Finset.sum_le_card_nsmul Finset.univ _ _ hlead
  have hcard : (Finset.univ : Finset PcbRef).card = 41 := by decide
  rw [hcard, Nat.nsmul_eq_mul] at hsum
  exact Nat.add_le_add hidx hsum

/-- No starvation: while a process is ready, `scheduler` picks others at most so many times. The
bound depends on the priority of the process and on how many processes are started meanwhile, and it
holds as long as no priority can wrap around. -/
theorem bypasses_bounded {k n : Nat} (h : Reachable Unwrapped s)
    (hlow : ∀ r, -2 ^ 31 + ((s.rank p + n * newcomer (s.priority p) : Nat) : Int) < s.priority r)
    (hwaits : Waits p s s' k n) :
    k ≤ s.rank p + n * newcomer (s.priority p) ∧ s.rank p ≤ 40 + 41 * newcomer (s.priority p) := by
  obtain ⟨hw, hle⟩ := priority_le h
  have hrank := hwaits.rank_le hw fun r => ⟨hlow r, hle r⟩
  exact ⟨by omega, rank_le h hwaits.mem⟩

theorem third_bypassed_twice :
    ∃ s s', Reachable Unwrapped s ∧ Waits (.task ⟨3, by decide⟩) s s' 2 1 ∧
      2 ≤ s.rank (.task ⟨3, by decide⟩) + 1 * newcomer (s.priority (.task ⟨3, by decide⟩)) := by
  let p : PcbRef := .task ⟨3, by decide⟩
  let low (s : Kernel) (k : Nat) : Prop := ∀ r, -2 ^ 31 + (k : Int) < s.priority r
  obtain ⟨s, hs, htest⟩ := exists_of_endsIn
    (t := fun s : Kernel => low s (s.rank p + 1 * newcomer (s.priority p)) ∧
      (p ∈ s.members .ready ∧ turns (.tick false) s = 1) ∧
      endsIn (fun t => (p ∈ t.members .ready ∧ turns (.spawn ⟨1⟩) t = 0) ∧
        endsIn (fun u => (p ∈ u.members .ready ∧ turns (.tick false) u = 1) ∧
          endsIn (fun s' => p ∈ s'.members .ready) (step (.tick false) u) = true)
        (step (.spawn ⟨1⟩) t) = true) (step (.tick false) s) = true)
    (r := initPcb 1 >>= [Op.schedule, .spawn ⟨1⟩, .spawn ⟨1⟩, .spawn ⟨1⟩].foldlM
      (checked (fun s op => low s 0 ∧ (op = .schedule ∨ op = .spawn ⟨1⟩)) .disabled
        fun s op => step op s)) (by decide +kernel)
  obtain ⟨s₀, hinit, hrun⟩ := exists_of_bind_ok hs
  obtain ⟨hlow, ⟨hp, hturn⟩, htest⟩ := of_decide_eq_true htest
  obtain ⟨t, ht, htest⟩ := exists_of_endsIn htest
  obtain ⟨⟨hpt, hturnt⟩, htest⟩ := of_decide_eq_true htest
  obtain ⟨u, hu, htest⟩ := exists_of_endsIn htest
  obtain ⟨⟨hpu, hturnu⟩, htest⟩ := of_decide_eq_true htest
  obtain ⟨s', hs', hps'⟩ := exists_of_endsIn htest
  have hreach : Reachable Unwrapped s := by
    refine ⟨1, s₀, by decide, hinit, Relation.ReflTransGen.mono ?_ _ _ (path_of_checked hrun)⟩
    rintro s s' ⟨op, hop, hstep⟩
    obtain ⟨hlow, hop⟩ := of_decide_eq_true hop
    refine ⟨op, ⟨?_, fun r => by have := hlow r; omega⟩, hstep⟩
    rcases hop with rfl | rfl <;> simp [KillsFind, AnyCall]
  have hwaits : Waits p s s' 2 1 := by
    have h := Waits.step hp (by simp [KillsFind, AnyCall]) ht
      (.step hpt (by simp [KillsFind, AnyCall]) hu
        (.step hpu (by simp [KillsFind, AnyCall]) hs' (.refl (of_decide_eq_true hps'))))
    rwa [hturn, hturnt, hturnu] at h
  exact ⟨s, s', hreach, hwaits, (bypasses_bounded hreach hlow hwaits).1⟩

end Run

end Ucas.Sched

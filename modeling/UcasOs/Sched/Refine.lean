import UcasOs.Sched.Lifecycle
import UcasOs.Sched.Process
import Mathlib.Data.Fintype.List

/-! The kernel refines the life cycle: every operation, run on links that represent lists apart from
each other, is a sequence of acts, and it fails only where nobody is ready. -/

namespace Ucas.Sched
open Ucas.Lib Relation

variable {s : Kernel} {L : Lists} {A : Abs → Act → Prop} {a : Abs} {p : PcbRef} {q : QueueRef}

def Sim (s : Kernel) (a : Abs) : Prop := ∃ L, Family s.queues L ∧ a = s.toTasks.abs L

def SimS (s : Kernel) (a : Abs) : Prop := Sim s a ∧ Settled a

def Runs (A : Abs → Act → Prop) (a : Abs) (r : Except Fault Kernel) : Prop :=
  Simulates Sim (Trans A) (fun a => a.lists .ready = []) a r

def RunsS (A : Abs → Act → Prop) (a : Abs) (r : Except Fault Kernel) : Prop :=
  Simulates SimS (Trans A) (fun a => a.lists .ready = []) a r

theorem emptyLinks_family : Family emptyLinks fun _ => [] :=
  ⟨fun _ => ⟨rfl, rfl, trivial, List.nodup_nil⟩, fun _ _ _ => by simp⟩

theorem Family.apart {h : Links} (hL : Family h L) : Apart L :=
  ⟨fun q => (hL.repr q).nodup, hL.disjoint⟩

theorem Family.length_lt {h : Links} (hL : Family h L) : (L q).length < fuel := by
  have h := (hL.repr q).nodup.length_le_card
  have hcard : Fintype.card PcbRef < fuel := by decide
  omega

theorem checkInQueue_eq {h : Links} (hL : Family h L) (q : QueueRef) (item : PcbRef) :
    checkInQueue q item h = .ok (decide (item ∈ L q)) := by
  rw [checkInQueue, queueFind, findFrom_eq hL (Family.length_lt hL)]
  refine congrArg Except.ok ?_
  rw [Bool.eq_iff_iff, List.find?_isSome]
  simp

theorem members_eq (hL : Family s.queues L) (q : QueueRef) : Kernel.members s q = L q := by
  rw [Kernel.members, (hL.repr q).head]
  exact walk_eq_of_seg (hL.repr q).seg (Family.length_lt hL).le

theorem Sim.lists (h : Sim s a) : Family s.queues a.lists := by
  obtain ⟨L, hL, rfl⟩ := h
  exact hL

theorem Sim.members (h : Sim s a) (q : QueueRef) : Kernel.members s q = a.lists q :=
  members_eq h.lists q

theorem Sim.unique {b : Abs} (ha : Sim s a) (hb : Sim s b) : a = b := by
  have hlists : a.lists = b.lists := funext fun q => (ha.members q).symm.trans (hb.members q)
  obtain ⟨L, -, rfl⟩ := ha
  obtain ⟨L', -, rfl⟩ := hb
  exact congrArg s.toTasks.abs hlists

def firstPeak (priority : PcbRef → Int) (p : PcbRef) : List PcbRef → PcbRef
  | [] => p
  | b :: l => if priority p < priority b then firstPeak priority b l else p

theorem firstPeak_mem (priority : PcbRef → Int) (p : PcbRef) (l : List PcbRef) :
    firstPeak priority p l ∈ p :: l := by
  induction l generalizing p with
  | nil => exact List.mem_singleton_self p
  | cons b l ih =>
    rw [firstPeak]
    split
    · exact List.mem_cons_of_mem _ (ih b)
    · exact List.mem_cons_self

theorem climbFrom_seg {next prev : PcbRef → Option PcbRef} (priority : PcbRef → Int)
    {l : List PcbRef} {o tail : Option PcbRef} {n : Nat} (hs : Seg next prev o (p :: l) none)
    (ht : tail = (p :: l).getLast?) (hd : (p :: l).Nodup) (hn : l.length < n) :
    climbFrom next tail priority n p = .ok (firstPeak priority p l) := by
  induction l generalizing p o n with
  | nil =>
    cases n with
    | zero => simp at hn
    | succ n => simp [climbFrom, ht, firstPeak]
  | cons b l ih =>
    cases n with
    | zero => simp at hn
    | succ n =>
      obtain ⟨-, hnext, hl⟩ := hs
      rw [List.head?_cons, Option.some_or] at hnext
      rw [List.getLast?_cons_cons] at ht
      have hp : some p ≠ tail := fun e =>
        (List.nodup_cons.mp hd).1 (List.mem_of_getLast? (ht.symm.trans e.symm))
      rw [climbFrom, hnext, if_neg hp, firstPeak]
      dsimp only
      split
      · exact ih hl ht (List.nodup_cons.mp hd).2 (by simpa using hn)
      · rfl

theorem queueClimb_eq {l : List PcbRef} (hL : Family s.queues L) (hq : L q = p :: l)
    (priority : PcbRef → Int) :
    queueClimb q priority s.queues = .ok (firstPeak priority p l) := by
  obtain ⟨hh, ht, hs, hd⟩ := hL.repr q
  have hlen := Family.length_lt hL (q := q)
  rw [hq] at hh ht hs hd hlen
  rw [queueClimb, hh]
  exact climbFrom_seg priority hs ht hd (Nat.lt_of_succ_lt hlen)

theorem queueClimb_family (hL : Family s.queues L) (hq : L q ≠ []) (priority : PcbRef → Int) :
    ∃ p ∈ L q, queueClimb q priority s.queues = .ok p := by
  obtain ⟨p, l, hl⟩ := List.exists_cons_of_ne_nil hq
  exact ⟨_, hl ▸ firstPeak_mem priority p l, queueClimb_eq hL hl priority⟩

theorem Runs.of_act {s' : Kernel} (x : Act) (hx : Enabled a x) (hA : A a x) (h : Sim s' (act a x)) :
    Runs A a (.ok s') := ⟨_, .single ⟨x, hx, hA, rfl⟩, h⟩

theorem wake_eq (hL : Family s.queues L) (hp : p ∈ L q) :
    ∃ h, (do makeReady p { s with queues := ← queueRemove q p s.queues }) =
        .ok { s with status := Function.update s.status p .ready, queues := h } ∧
      Family h (enqueue .ready p (unlink q p L)) := by
  obtain ⟨h', hrun, hfam⟩ := queueRemove_family hL hp
  obtain ⟨h'', hpush, hfam'⟩ := queuePush_family (q := QueueRef.ready) hfam
    ((Family.apart hL).unqueued_unlink hp)
  simp only [hrun, makeReady, bind, Except.bind, hpush]
  exact ⟨_, rfl, hfam'⟩

theorem wake_sim (hL : Family s.queues L) (hp : p ∈ L q) :
    ∃ s', (do makeReady p { s with queues := ← queueRemove q p s.queues }) = .ok s' ∧
      Sim s' (act (s.toTasks.abs L) (.wake q p)) := by
  obtain ⟨h, hrun, hfam⟩ := wake_eq hL hp
  exact ⟨_, hrun, _, hfam, rfl⟩

theorem wake_runs (hL : Family s.queues L) (hp : p ∈ L q) (hA : A (s.toTasks.abs L) (.wake q p)) :
    Runs A (s.toTasks.abs L) (do makeReady p { s with queues := ← queueRemove q p s.queues }) := by
  obtain ⟨s', hrun, hsim⟩ := wake_sim hL hp
  exact hrun ▸ .of_act (.wake q p) hp hA hsim

theorem blockCurrent_sim (hL : Family s.queues L) (hc : Unqueued L s.currentRunning) :
    ∃ s', blockCurrent q s = .ok s' ∧ Sim s' (act (s.toTasks.abs L) (.block q)) := by
  obtain ⟨h', hrun, hfam⟩ := queuePush_family (q := q) hL hc
  rw [blockCurrent, hrun]
  exact ⟨_, rfl, _, hfam, rfl⟩

theorem blockCurrent_runs (hL : Family s.queues L) (hc : Unqueued L s.currentRunning)
    (he : s.status s.currentRunning ≠ .exited) (hA : A (s.toTasks.abs L) (.block q)) :
    Runs A (s.toTasks.abs L) (blockCurrent q s) := by
  obtain ⟨s', hrun, hsim⟩ := blockCurrent_sim hL hc (q := q)
  exact hrun ▸ .of_act (.block q) ⟨hc, he⟩ hA hsim

theorem whenRunning_block_runs (hL : Family s.queues L) (hT : Tidy (s.toTasks.abs L))
    (hb : A (s.toTasks.abs L) (.block q)) :
    Runs A (s.toTasks.abs L) (whenRunning (blockCurrent q) s) := by
  rw [whenRunning]
  split
  · next hrun => exact blockCurrent_runs hL (hT.running _ hrun) (by simp [hrun]) hb
  · exact Simulates.ok ⟨L, hL, rfl⟩

theorem whenRunning_sleep_runs (t : Nat) (hL : Family s.queues L) (hT : Tidy (s.toTasks.abs L))
    (hs : A (s.toTasks.abs L) .sleep) :
    Runs A (s.toTasks.abs L) (whenRunning (sleepCurrent t) s) := by
  rw [whenRunning]
  split
  · next hrun =>
    obtain ⟨h', hpush, hfam⟩ := queuePush_family (q := QueueRef.sleeping) hL (hT.running _ hrun)
    simp only [sleepCurrent, hpush, bind, Except.bind]
    exact .of_act .sleep hrun hs ⟨_, hfam, rfl⟩
  · exact Simulates.ok ⟨L, hL, rfl⟩

def Switch : Act → Prop
  | .wake .sleeping _ | .preempt | .retire | .dispatch _ => True
  | _ => False

section Scheduler

theorem checkSleeping_runs (hA : ∀ a p, A a (.wake .sleeping p)) (hL : Family s.queues L) :
    Runs A (s.toTasks.abs L) (checkSleeping s) := by
  rw [checkSleeping, queueFind, findFrom_eq hL (Family.length_lt hL)]
  cases hf : (L .sleeping).find? fun p => s.sleepingDeadline p < getTimer s.toTasks with
  | none => exact Simulates.ok ⟨L, hL, rfl⟩
  | some p => exact wake_runs hL (List.mem_of_find?_eq_some hf) (hA _ p)

theorem awaitReady_runs (hA : ∀ a p, A a (.wake .sleeping p)) (n : Nat) (hL : Family s.queues L) :
    Runs A (s.toTasks.abs L) (awaitReady n s) := by
  induction n generalizing s L with
  | zero =>
    rw [awaitReady]
    by_cases h : (queueIsEmpty .ready s.queues && !queueIsEmpty .sleeping s.queues) = true
    · rw [if_pos h]
      exact Simulates.error _ ((queueIsEmpty_iff hL).mp (by simp_all))
    · rw [if_neg h]
      exact Simulates.ok ⟨L, hL, rfl⟩
  | succ n ih =>
    rw [awaitReady]
    split
    · refine (checkSleeping_runs hA hL).bind fun s' b _ _ hb => ?_
      obtain ⟨L', hL', rfl⟩ := hb
      exact ih hL'
    · exact Simulates.ok ⟨L, hL, rfl⟩

theorem yieldCurrent_not_running {s' : Kernel} (h : yieldCurrent s = .ok s') :
    s'.status s'.currentRunning ≠ .running := by
  simp only [yieldCurrent] at h
  split at h
  · split at h
    · rw [makeReady] at h
      cases hp : queuePush .ready s.currentRunning s.queues with
      | error e => simp [hp, bind, Except.bind] at h
      | ok l =>
        simp only [hp, bind, Except.bind] at h
        cases h
        simp
    · cases h
      simp
  · next hne =>
    cases h
    exact hne

variable (hA : ∀ a x, Switch x → A a x)
include hA

theorem yieldCurrent_runs (hL : Family s.queues L) (hT : Tidy (s.toTasks.abs L)) :
    Runs A (s.toTasks.abs L) (yieldCurrent s) := by
  simp only [yieldCurrent]
  split
  · next hrun =>
    split
    · next hentry =>
      obtain ⟨h', hpush, hfam⟩ := queuePush_family (q := QueueRef.ready) hL (hT.running _ hrun)
      simp only [makeReady, hpush, bind, Except.bind]
      exact .of_act .preempt ⟨hrun, hentry⟩ (hA _ .preempt trivial) ⟨_, hfam, rfl⟩
    · next hentry =>
      exact .of_act .retire ⟨hrun, not_not.mp hentry⟩ (hA _ .retire trivial) ⟨_, hL, rfl⟩
  · exact Simulates.ok ⟨L, hL, rfl⟩

theorem dispatch_runs (hL : Family s.queues L) (hc : s.status s.currentRunning ≠ .running) :
    RunsS A (s.toTasks.abs L) (dispatch s) := by
  by_cases hq : L .ready = []
  · have hhead : (s.queues.queue .ready).head = none := by rw [(hL.repr _).head, hq]; rfl
    simp only [dispatch, queueClimb, hhead, bind, Except.bind]
    exact Simulates.error _ hq
  · obtain ⟨p, hp, hclimb⟩ := queueClimb_family hL hq s.priority
    obtain ⟨h', hrun, hfam⟩ := queueRemove_family hL hp
    simp only [dispatch, hclimb, hrun, bind, Except.bind]
    refine ⟨_, .single ⟨.dispatch p, ⟨hp, hc⟩, hA _ (.dispatch p) trivial, rfl⟩, ⟨_, hfam, rfl⟩,
      .inl ?_⟩
    simp [act, Abs.setStatus]

theorem scheduler_runs (hL : Family s.queues L) (hT : Tidy (s.toTasks.abs L)) :
    RunsS A (s.toTasks.abs L) (scheduler s) := by
  have hwake : ∀ a p, A a (.wake .sleeping p) ∧ ∃ q r, Act.wake .sleeping p = .wake q r :=
    fun a p => ⟨hA a _ trivial, _, _, rfl⟩
  refine (yieldCurrent_runs hA hL hT).bind fun s₁ _ hrun _ ⟨L₁, hL₁, h₁⟩ => h₁ ▸ ?_
  have hwait : Runs (fun a x => A a x ∧ ∃ q p, x = .wake q p) (s₁.toTasks.abs L₁)
      (checkSleeping s₁ >>= awaitReady fuel) :=
    (checkSleeping_runs hwake hL₁).bind fun s₂ _ _ _ ⟨L₂, hL₂, h₂⟩ => h₂ ▸ awaitReady_runs hwake _
      hL₂
  have hsplit : (do awaitReady fuel (← checkSleeping s₁)) >>= dispatch =
      (do let s ← checkSleeping s₁; let s ← awaitReady fuel s; dispatch s) := bind_assoc ..
  rw [← hsplit]
  refine (hwait.weaken (S := fun s b => Sim s b ∧ b.status b.current ≠ .running)
    (fun _ _ ⟨x, hx, h, hb⟩ => ⟨x, hx, h.1, hb⟩) fun _ _ _ hpath h =>
      ⟨h, not_running_of_wakes (yieldCurrent_not_running hrun) hpath⟩).bind ?_
  rintro s₃ _ - - ⟨⟨L₃, hL₃, rfl⟩, hc⟩
  exact dispatch_runs hA hL₃ hc

theorem doScheduler_runs (k : Resume) (hL : Family s.queues L) (hT : Tidy (s.toTasks.abs L)) :
    RunsS A (s.toTasks.abs L) (doScheduler k s) :=
  scheduler_runs
    (s := { s with kernelContext := Function.update s.kernelContext s.currentRunning k })
    hA hL hT

theorem Runs.thenScheduler {r : Except Fault Kernel} (k : Resume) (hT : Tidy a) (h : Runs A a r) :
    RunsS A a (r >>= doScheduler k) := by
  refine Simulates.bind h fun s' b _ hab ⟨L', hL', hb⟩ => ?_
  exact hb ▸ doScheduler_runs hA k hL' (hb ▸ tidy_path hT hab)

theorem doSleep_runs (t : Nat) (hL : Family s.queues L) (hT : Tidy (s.toTasks.abs L))
    (hs : ∀ a, A a .sleep) : RunsS A (s.toTasks.abs L) (doSleep t s) :=
  (whenRunning_sleep_runs t hL hT (hs _)).thenScheduler hA .user hT

theorem doBlock_runs (k : Resume) (hL : Family s.queues L) (hT : Tidy (s.toTasks.abs L))
    (hb : A (s.toTasks.abs L) (.block q)) : RunsS A (s.toTasks.abs L) (doBlock q k s) :=
  (whenRunning_block_runs hL hT hb).thenScheduler hA k hT

end Scheduler

theorem Runs.settle {r : Except Fault Kernel} (hT : Tidy a) (hS : Settled a)
    (h : Runs (fun a x => A a x ∧ Quiet a x) a r) : RunsS A a r :=
  Simulates.weaken h (fun _ _ ⟨x, hx, hA, hb⟩ => ⟨x, hx, hA.1, hb⟩)
    fun _ _ _ hpath hsim => ⟨hsim, (quiet_path hT hS hpath).2.1⟩

section Wake

/-- `body` takes somebody out of the queue `q` and makes it ready. -/
def Wakes (q : QueueRef) (body : Kernel → Except Fault Kernel) : Prop :=
  ∀ s L, Family s.queues L → L q ≠ [] →
    ∃ p ∈ L q, ∃ s', body s = .ok s' ∧ Sim s' (act (s.toTasks.abs L) (.wake q p))

theorem doUnblockOne_wakes (q : QueueRef) : Wakes q (doUnblockOne q) := by
  intro s L hL hq
  obtain ⟨p, hp, hclimb⟩ := queueClimb_family hL hq s.priority
  obtain ⟨s', hrun, hsim⟩ := wake_sim hL hp
  refine ⟨p, hp, s', ?_, hsim⟩
  rw [doUnblockOne, if_neg (mt (queueIsEmpty_iff hL).mp hq), hclimb]
  exact hrun

theorem wakeHead_sim {l : List PcbRef} (hL : Family s.queues L) (hl : L q = p :: l) :
    ∃ s', wakeHead q s = .ok s' ∧ Sim s' (act (s.toTasks.abs L) (.wake q p)) := by
  have hp : p ∈ L q := by simp [hl]
  obtain ⟨h', hrun, hfam⟩ := queueDequeue_family hL hl
  have hfam' : Family h' (unlink q p L) := by simpa [unlink, hl] using hfam
  obtain ⟨h'', hpush, hfam''⟩ := queuePush_family (q := QueueRef.ready) hfam'
    ((Family.apart hL).unqueued_unlink hp)
  simp only [wakeHead, hrun, makeReady, hpush, bind, Except.bind]
  exact ⟨_, rfl, _, hfam'', rfl⟩

theorem wakeHead_wakes (q : QueueRef) : Wakes q (wakeHead q) := by
  intro s L hL hq
  cases hl : L q with
  | nil => exact absurd hl hq
  | cons p l => exact ⟨p, by simp, wakeHead_sim hL hl⟩

theorem Wakes.runs {body : Kernel → Except Fault Kernel} (h : Wakes q body) (hL : Family s.queues L)
    (hq : L q ≠ []) (hA : ∀ p, A (s.toTasks.abs L) (.wake q p)) :
    Runs A (s.toTasks.abs L) (body s) := by
  obtain ⟨p, hp, s', hrun, hsim⟩ := h s L hL hq
  exact hrun ▸ .of_act (.wake q p) hp (hA p) hsim

theorem doUnblockOne_runs (hL : Family s.queues L) (hA : ∀ p, A (s.toTasks.abs L) (.wake q p)) :
    Runs A (s.toTasks.abs L) (doUnblockOne q s) := by
  by_cases hq : L q = []
  · rw [doUnblockOne, if_pos ((queueIsEmpty_iff hL).mpr hq)]
    exact Simulates.ok ⟨L, hL, rfl⟩
  · exact (doUnblockOne_wakes q).runs hL hq hA

theorem length_wake (hq : q ≠ .ready) (hp : p ∈ L q) :
    (enqueue .ready p (unlink q p L) q).length + 1 = (L q).length := by
  simp [enqueue, unlink, hq, List.length_erase_of_mem hp, Nat.sub_add_cancel (List.length_pos_of_mem
    hp)]

theorem drain_runs {body : Kernel → Except Fault Kernel} (h : Wakes q body) (hq : q ≠ .ready)
    (hA : ∀ a p, A a (.wake q p)) {n : Nat} (hL : Family s.queues L) (hn : (L q).length ≤ n) :
    Runs A (s.toTasks.abs L) (drain q body n s) := by
  induction n generalizing s L with
  | zero =>
    have hnil : L q = [] := List.eq_nil_of_length_eq_zero (Nat.le_zero.mp hn)
    rw [drain, if_pos ((queueIsEmpty_iff hL).mpr hnil)]
    exact Simulates.ok ⟨L, hL, rfl⟩
  | succ n ih =>
    rw [drain]
    by_cases hnil : L q = []
    · rw [if_pos ((queueIsEmpty_iff hL).mpr hnil)]
      exact Simulates.ok ⟨L, hL, rfl⟩
    · rw [if_neg (mt (queueIsEmpty_iff hL).mp hnil)]
      obtain ⟨p, hp, s', hrun, L', hL', hsim⟩ := h s L hL hnil
      rw [hrun]
      have hlists : enqueue .ready p (unlink q p L) = L' := congrArg Abs.lists hsim
      have hlen := length_wake hq hp
      rw [hlists] at hlen
      exact Simulates.step ⟨.wake q p, hp, hA _ p, hsim.symm⟩ (ih hL' (by omega))

theorem drain_fuel_runs {body : Kernel → Except Fault Kernel} (h : Wakes q body) (hq : q ≠ .ready)
    (hA : ∀ a p, A a (.wake q p)) (hL : Family s.queues L) :
    Runs A (s.toTasks.abs L) (drain q body fuel s) := drain_runs h hq hA hL (Family.length_lt hL).le

theorem drain_isEmpty {body : Kernel → Except Fault Kernel} {n : Nat} {s' : Kernel}
    (h : drain q body n s = .ok s') : queueIsEmpty q s'.queues = true := by
  induction n generalizing s with
  | zero =>
    rw [drain] at h
    split at h
    · next hq => exact Except.ok.inj h ▸ hq
    · cases h
  | succ n ih =>
    rw [drain] at h
    split at h
    · next hq => exact Except.ok.inj h ▸ hq
    · cases hb : body s with
      | error e => simp [hb, bind, Except.bind] at h
      | ok s₁ => exact ih (by simpa [hb, bind, Except.bind] using h)

end Wake

end Ucas.Sched

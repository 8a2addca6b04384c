import UcasOs.Sched.Mutex
import UcasOs.Sched.Objects

/-! Conditions. Beside the kernel we record who holds the mutex, who has entered `do_condition_wait`
and has not returned from it, and in which order processes entered it and were woken. -/

namespace Ucas.Sched
open Ucas.Lib Relation

structure CondRecord where
  holders : Finset PcbRef := ∅
  inside : Finset PcbRef := ∅
  entered : List PcbRef := []
  signalled : List PcbRef := []

variable {s s' : Kernel} {a b : Abs} {x : Act} {op : Op} {m : MutexRef} {n : Nat} {p : PcbRef}
  {c : Traced CondRecord}

/-- A process returns from `do_condition_wait` in the step that leaves it in user mode. -/
def condLog (m : MutexRef) (n : Nat) (c : Traced CondRecord) (op : Op) (s' : Kernel) :
    CondRecord where
  holders := holdersAfter m c.kernel op s' c.record.holders
  inside :=
    if op = .wait m n then insert c.kernel.currentRunning c.record.inside
    else c.record.inside.filter fun p => s'.kernelContext p ≠ .user
  entered := if op = .wait m n then c.record.entered ++ [c.kernel.currentRunning] else
    c.record.entered
  signalled :=
    if op = .signal n ∨ op = .broadcast n then
      c.record.signalled ++ (c.kernel.members (.condition n)).filter (· ∉ s'.members (.condition n))
    else c.record.signalled

/-- Runs without exit and kill in which `do_mutex_lock_release` and `do_condition_wait` are called
by holders of the mutex, and the condition is used with this mutex only. -/
def CondCall (m : MutexRef) (n : Nat) (c : Traced CondRecord) (op : Op) : Prop :=
  MutexCall m ⟨c.kernel, c.record.holders⟩ op ∧ SharedCall (.condition n) op ∧
    ∀ m', op = .wait m' n → m' = m

/-- Who has entered and has not been woken is in the queue and blocked; who has not returned goes on
in `do_mutex_lock_acquire`. -/
structure Attended (m : MutexRef) (n : Nat) (c : Traced CondRecord) : Prop where
  excluded : Excluded m ⟨c.kernel, c.record.holders⟩
  queue : c.record.entered = c.record.signalled ++ c.kernel.members (.condition n)
  waiting : ∀ p ∈ c.kernel.members (.condition n), p ∈ c.record.inside ∧
    c.kernel.status p = .blocked
  inside : ∀ p ∈ c.record.inside, c.kernel.kernelContext p = .acquire m ∧
    c.kernel.status p ≠ .exited

section Live

theorem live_act (h : a.status p ≠ .exited) (hexit : x ≠ .exit) (hdie : ∀ r, x ≠ .die r) :
    (act a x).status p ≠ .exited := by
  have hset : ∀ {r st}, st ≠ .exited → (a.setStatus r st).status p ≠ .exited := by
    intro r st hst
    by_cases hr : p = r
    · simpa [Abs.setStatus, hr] using hst
    · rwa [Abs.setStatus_of_ne hr]
  cases x with
  | exit => exact absurd rfl hexit
  | die r => exact absurd rfl (hdie r)
  | wake q r => exact hset (by decide)
  | block q => exact hset (by decide)
  | sleep => exact hset (by decide)
  | preempt => exact hset (by decide)
  | retire => exact hset (by decide)
  | dispatch r => exact hset (by decide)
  | spawn i k e => exact hset (by decide)
  | leave q r => exact h
  | clear q => exact h
  | setMutex m st => exact h
  | record r l k => exact h

theorem May.live (hexit : op ≠ .exit) (hkill : ∀ k, op ≠ .kill k) (h : May s a op b x) :
    x ≠ .exit ∧ ∀ r, x ≠ .die r := by
  refine ⟨?_, ?_⟩
  · rintro rfl
    exact hexit h.cause
  · rintro r rfl
    obtain ⟨k, -, rfl, -⟩ := h.cause
    exact hkill k rfl

theorem WellFormed.live_step (h : WellFormed s) (hop : KillsFind s op) (hexit : op ≠ .exit)
    (hkill : ∀ k, op ≠ .kill k) (hrun : Sched.step op s = .ok s') (hp : s.status p ≠ .exited) :
    s'.status p ≠ .exited := by
  obtain ⟨a, hs, hT, hz⟩ := h
  have hp' : a.status p ≠ .exited := by
    obtain ⟨⟨L, -, rfl⟩, -⟩ := hs
    exact hp
  obtain ⟨a', ⟨⟨L', -, rfl⟩, -⟩, -, hp'⟩ := step_invariant (I := fun b => b.status p ≠ .exited) hs
    hT
    (hop.covered hs.1 hz) hp'
    (fun b x _ hb _ hm => live_act hb (hm.live hexit hkill).1 (hm.live hexit hkill).2) hrun
  exact hp'

end Live

section Contexts

theorem context_step (hrun : step op s = .ok s') (hp : p ≠ s.currentRunning)
    (hlive : s.status p ≠ .exited) :
    s'.kernelContext p = s.kernelContext p := by
  rw [(step_objects hrun).kernelContext]
  cases op with
  | resume =>
    rw [objectsAfter]
    split
    · rfl
    · split
      · rfl
      · exact Function.update_of_ne hp ..
  | acquire m =>
    rw [objectsAfter]
    split
    · exact Function.update_of_ne hp ..
    · rfl
  | wait m n => exact Function.update_of_ne hp ..
  | spawn t =>
    rw [objectsAfter]
    split
    · rfl
    · next i hi =>
      have hne : p ≠ .task i := by
        rintro rfl
        exact hlive (by simpa using List.find?_some hi)
      exact Function.update_of_ne hne ..
  | up k =>
    rw [objectsAfter]
    split <;> rfl
  | down k =>
    rw [objectsAfter]
    split <;> rfl
  | _ => rfl

theorem resume_step (hctx : s.kernelContext s.currentRunning = .acquire m)
    (hrun : step op s = .ok s') :
    op = .resume ∧ ((s.mutexStatus m = .locked ∧ s'.kernelContext = s.kernelContext) ∨
      (s.mutexStatus m = .unlocked ∧ s'.currentRunning = s.currentRunning ∧
        s'.kernelContext s.currentRunning = .user)) := by
  have hres : op = .resume := by
    by_contra hne
    rw [step, hctx] at hrun
    simp [hne] at hrun
  subst hres
  refine ⟨rfl, ?_⟩
  have hkc := (step_objects hrun).kernelContext
  rw [objectsAfter, hctx] at hkc
  cases hm : s.mutexStatus m with
  | locked => exact .inl ⟨rfl, by simpa [hm] using hkc⟩
  | unlocked =>
    refine .inr ⟨rfl, ?_, by simp [hkc, hm]⟩
    simp only [step, hctx, if_true, doMutexLockAcquire, hm] at hrun
    cases hrun
    exact congrArg Core.currentRunning (sameCore_recordLock _ _)

end Contexts

section Steps
variable (h : WellFormed s)
include h

theorem wait_step (hrun : step (.wait m n) s = .ok s') :
    s'.members (.condition n) = s.members (.condition n) ++ [s.currentRunning] ∧
      s'.kernelContext s.currentRunning = .acquire m := by
  obtain ⟨-, hexec⟩ := step_exec (by simp) hrun
  have hkc := congrFun (step_objects hrun).kernelContext s.currentRunning
  refine ⟨block_effect h (fun t b ht hT => ?_) trivial hexec, by simpa [objectsAfter] using hkc⟩
  obtain ⟨L, hL, rfl⟩ := ht
  have hrel := doMutexLockRelease_runs (m := m) (A := fun _ x => ¬ ActsOn (.condition n) x) hL
    fun _ _ hx => hx.not_actsOn (q := .condition n) trivial
  exact hrel.thenScheduler (fun _ _ hx => hx.not_actsOn (q := .condition n) trivial) _ hT

theorem signal_step {l : List PcbRef} (hu : s.kernelContext s.currentRunning = .user)
    (hl : s.members (.condition n) = p :: l) :
    ∃ s', step (.signal n) s = .ok s' ∧ Readied (.condition n) [p] s s' := by
  obtain ⟨a, hs, -⟩ := id h
  rw [step_of_user hu, exec, doConditionSignal,
    if_neg (by simp [queueIsEmpty_members hs.1, hl])]
  exact wakeHead_effect h (by simp) hl

theorem signal_step_nil (hnil : s.members (.condition n) = [])
    (hrun : step (.signal n) s = .ok s') :
    s' = s := by
  obtain ⟨a, hs, -⟩ := id h
  obtain ⟨-, hexec⟩ := step_exec (by simp) hrun
  rw [exec, doConditionSignal, if_pos ((queueIsEmpty_members hs.1).mpr hnil)] at hexec
  exact (Except.ok.inj hexec).symm

theorem broadcast_step (hu : s.kernelContext s.currentRunning = .user) :
    ∃ s', step (.broadcast n) s = .ok s' ∧
      Readied (.condition n) (s.members (.condition n)) s s' := by
  rw [step_of_user hu, exec, doConditionBroadcast]
  exact drain_effect h (by simp)

end Steps

theorem SharedCall.not_opOn_condition (h : SharedCall (.condition n) op)
    (hwait : ∀ m', op ≠ .wait m' n)
    (hsignal : op ≠ .signal n) (hbroadcast : op ≠ .broadcast n) : ¬ OpOn (.condition n) op := by
  intro hon
  cases op with
  | wait m' k => exact hwait m' (by cases hon; rfl)
  | signal k => exact hsignal (by cases hon; rfl)
  | broadcast k => exact hbroadcast (by cases hon; rfl)
  | conditionInit k => exact h hon
  | kill k => exact h
  | block q => exact h.2.2 hon
  | unblockOne q => exact h.2.2 hon
  | unblockAll q => exact h.2.2 hon
  | _ => cases hon

theorem CondCall.live (h : WellFormed c.kernel) (hop : CondCall m n c op)
    (hrun : step op c.kernel = .ok s')
    (hp : c.kernel.status p ≠ .exited) : s'.status p ≠ .exited := by
  refine h.live_step hop.2.1.killsFind ?_ ?_ hrun hp
  · rintro rfl
    exact hop.1
  · rintro k rfl
    exact hop.1

theorem Attended.stays_inside (hc : Attended m n c) (hrun : step op c.kernel = .ok s')
    (hp : p ∈ c.record.inside) (hne : p ≠ c.kernel.currentRunning) :
    p ∈ (condLog m n c op s').inside := by
  obtain ⟨hctx, hlive⟩ := hc.inside p hp
  have hkc := (context_step hrun hne hlive).trans hctx
  simp only [condLog]
  split
  · exact Finset.mem_insert_of_mem hp
  · exact Finset.mem_filter.mpr ⟨hp, by simp [hkc]⟩

section Attended
variable (h : WellFormed c.kernel) (hc : Attended m n c) (hop : CondCall m n c op)
  (hrun : step op c.kernel = .ok s')
include h hc hop hrun

theorem CondCall.excluded : Excluded m ⟨s', (condLog m n c op s').holders⟩ := by
  obtain ⟨a, hs, hT, -⟩ := h
  exact excluded_of_step hs hT hc.excluded hop.1 hrun

theorem CondCall.inside (hp : p ∈ (condLog m n c op s').inside) :
    s'.kernelContext p = .acquire m ∧ s'.status p ≠ .exited := by
  by_cases hwait : op = .wait m n
  · subst hwait
    rw [show (condLog m n c (.wait m n) s').inside = insert c.kernel.currentRunning c.record.inside
      from
      if_pos rfl, Finset.mem_insert] at hp
    rcases hp with rfl | hp
    · exact ⟨(wait_step h hrun).2, hop.live h hrun h.current_live⟩
    · obtain ⟨hctx, hlive⟩ := hc.inside p hp
      by_cases hne : p = c.kernel.currentRunning
      · exact ⟨hne ▸ (wait_step h hrun).2, hop.live h hrun hlive⟩
      · exact ⟨(context_step hrun hne hlive).trans hctx, hop.live h hrun hlive⟩
  · rw [show (condLog m n c op s').inside = c.record.inside.filter fun p => s'.kernelContext
      p ≠ .user from
      if_neg hwait, Finset.mem_filter] at hp
    obtain ⟨hp, hne⟩ := hp
    obtain ⟨hctx, hlive⟩ := hc.inside p hp
    refine ⟨?_, hop.live h hrun hlive⟩
    by_cases hcur : p = c.kernel.currentRunning
    · subst hcur
      rcases (resume_step hctx hrun).2 with ⟨-, hkc⟩ | ⟨-, -, hkc⟩
      · rw [hkc, hctx]
      · exact absurd hkc hne
    · exact (context_step hrun hcur hlive).trans hctx

theorem CondCall.returns (hp : p ∈ c.record.inside) (hout : p ∉ (condLog m n c op s').inside) :
    (condLog m n c op s').holders = {p} ∧ s'.currentRunning = p ∧ s'.mutexStatus m = .locked := by
  have hcur : p = c.kernel.currentRunning := by
    by_contra hne
    exact hout (hc.stays_inside hrun hp hne)
  subst hcur
  obtain ⟨hctx, hlive⟩ := hc.inside _ hp
  obtain ⟨rfl, hcase⟩ := resume_step hctx hrun
  rcases hcase with ⟨-, hkc⟩ | ⟨hm, hsame, -⟩
  · refine absurd (Finset.mem_filter.mpr ⟨hp, ?_⟩) hout
    simp [hkc, hctx]
  · have hholders : (condLog m n c .resume s').holders = {c.kernel.currentRunning} := by
      have hacq : acquiring c.kernel .resume = some m := by simp [acquiring, hctx]
      have hempty : c.record.holders = ∅ := hc.excluded.holders_empty hm
      exact (holdersAfter_acquired hacq hm hrun).trans (by rw [hempty]; rfl)
    have hex := hop.excluded h hc hrun
    exact ⟨hholders, hsame, hex.locked.mpr (by simp [hholders])⟩

theorem CondCall.queue :
    (condLog m n c op s').entered = (condLog m n c op s').signalled ++ s'.members (.condition n) ∧
      ∀ p ∈ s'.members (.condition n), p ∈ c.kernel.members (.condition n) ∨
        (op = .wait m n ∧ p = c.kernel.currentRunning) := by
  have hnodup := h.nodup (.condition n)
  have hq := hc.queue
  by_cases hwait : op = .wait m n
  · subst hwait
    have hmem := (wait_step h hrun).1
    refine ⟨?_, fun p hp => ?_⟩
    · simp [condLog, hmem, hq]
    · rw [hmem, List.mem_append, List.mem_singleton] at hp
      exact hp.imp_right fun e => ⟨rfl, e⟩
  by_cases hwake : op = .signal n ∨ op = .broadcast n
  · have hread : ∃ l, Readied (.condition n) l c.kernel s' := by
      rcases hwake with rfl | rfl
      · obtain ⟨hu, -⟩ := step_exec (by simp) hrun
        cases hl : c.kernel.members (.condition n) with
        | nil => exact ⟨[], signal_step_nil h hl hrun ▸ .nil _ _⟩
        | cons p l =>
          obtain ⟨t, ht, hread⟩ := signal_step h hu hl
          cases hrun.symm.trans ht
          exact ⟨[p], hread⟩
      · obtain ⟨hu, -⟩ := step_exec (by simp) hrun
        obtain ⟨t, ht, hread⟩ := broadcast_step h hu (n := n)
        cases hrun.symm.trans ht
        exact ⟨_, hread⟩
    obtain ⟨l, hread⟩ := hread
    refine ⟨?_, fun p hp => .inl ?_⟩
    · simp only [condLog, if_neg hwait, if_pos hwake, hread.filter_left hnodup]
      rw [List.append_assoc, ← hread.left, hq]
    · rw [hread.left]
      exact List.mem_append_right _ hp
  · have hon : ¬ OpOn (.condition n) op := by
      refine hop.2.1.not_opOn_condition (fun m' e => hwait ?_) (fun e => hwake (.inl e)) fun e =>
        hwake (.inr e)
      rw [e, hop.2.2 m' e]
    have hmem := h.members_step (q := .condition n) trivial hop.2.1.killsFind hon hrun
    simp only [condLog, if_neg hwait, if_neg hwake, hmem]
    exact ⟨hq, fun p hp => .inl hp⟩

theorem attended_step : Attended m n ⟨s', condLog m n c op s'⟩ := by
  obtain ⟨hqueue, hmem⟩ := hop.queue h hc hrun
  have hblocked := h.blocked_step (q := .condition n) trivial hop.2.1.killsFind hrun fun p hp =>
    (hc.waiting p hp).2
  refine ⟨hop.excluded h hc hrun, hqueue, fun p hp => ⟨?_, hblocked p hp⟩, fun p hp => hop.inside h
    hc hrun hp⟩
  rcases hmem p hp with hp | ⟨rfl, rfl⟩
  · refine hc.stays_inside hrun (hc.waiting p hp).1 ?_
    rintro rfl
    exact h.current_not_mem _ hp
  · simp [condLog]

end Attended

theorem CondCall.waits (h : WellFormed c.kernel) (hc : Attended m n c)
    (hop : CondCall m n c (.wait m n))
    (hrun : step (.wait m n) c.kernel = .ok s') :
    s'.members (.condition n) = c.kernel.members (.condition n) ++ [c.kernel.currentRunning] ∧
      s'.mutexStatus m = .unlocked := by
  refine ⟨(wait_step h hrun).1, ?_⟩
  have hholders : (condLog m n c (.wait m n) s').holders = ∅ := by
    simp only [condLog, holdersAfter_released (.inr ⟨n, rfl⟩)]
    exact hc.excluded.holders_erase (hop.1 rfl)
  cases hm : s'.mutexStatus m with
  | unlocked => rfl
  | locked =>
    have hne := (hop.excluded h hc hrun).locked.mp hm
    simp [hholders] at hne

/-- However calls on a mutex and a condition interleave with the rest of the system: who returns
from `do_condition_wait` is the only holder of the mutex; a signal makes the process that has waited
longest ready and nobody else; a broadcast makes all waiters ready; and a process is in the queue
from the moment at which its wait gives up the mutex until a signal or a broadcast takes it out. -/
theorem condition_attended {s₁ s₂ s₃ : Kernel} (h : Reachable KillsFind s₁)
    (hm : step (.mutexInit m) s₁ = .ok s₂) (hn : step (.conditionInit n) s₂ = .ok s₃)
    (hrun : ReflTransGen (TracedSteps (CondCall m n) (condLog m n)) ⟨s₃, {}⟩ c) :
    Attended m n c ∧
      (∀ op s', CondCall m n c op → step op c.kernel = .ok s' → ∀ p ∈ c.record.inside,
        p ∉ (condLog m n c op s').inside →
          (condLog m n c op s').holders = {p} ∧ s'.currentRunning = p ∧
            s'.mutexStatus m = .locked) ∧
      (c.kernel.kernelContext c.kernel.currentRunning = .user →
        (∀ p l, c.kernel.members (.condition n) = p :: l →
          ∃ s', step (.signal n) c.kernel = .ok s' ∧ Readied (.condition n) [p] c.kernel s') ∧
        ∃ s', step (.broadcast n) c.kernel = .ok s' ∧
          Readied (.condition n) (c.kernel.members (.condition n)) c.kernel s' ∧
          s'.members (.condition n) = []) ∧
      ∀ s', CondCall m n c (.wait m n) → step (.wait m n) c.kernel = .ok s' →
        s'.members (.condition n) = c.kernel.members (.condition n) ++ [c.kernel.currentRunning] ∧
          s'.mutexStatus m = .unlocked := by
  have h₁ : WellFormed s₁ := reachable_killsFind h
  have hcall₁ : KillsFind s₁ (.mutexInit m) := ⟨trivial, by simp⟩
  have hcall₂ : KillsFind s₂ (.conditionInit n) := ⟨trivial, by simp⟩
  have h₂ := h₁.step hcall₁ hm
  have h₃ := h₂.step hcall₂ hn
  have hstart : Attended m n ⟨s₃, {}⟩ := by
    obtain ⟨-, hexec⟩ := step_exec (by simp) hm
    cases hexec
    obtain ⟨-, hexec⟩ := step_exec (by simp) hn
    cases hexec
    have hnil : (doConditionInit n (doMutexLockInit m s₁)).members (.condition n) = [] :=
      members_queueInit rfl
    have hfree : (doConditionInit n (doMutexLockInit m s₁)).mutexStatus m = .unlocked := by
      simp [doConditionInit, doMutexLockInit]
    have hnobody : (doConditionInit n (doMutexLockInit m s₁)).members (.mutex m) = [] :=
      (members_queueInit_of_ne (by simp) rfl).trans (members_queueInit (s := s₁) rfl)
    exact ⟨⟨by simp, by simp [hfree], fun _ => hnobody⟩, by simp [hnil], by simp [hnil], by simp⟩
  obtain ⟨hwf, hc⟩ := traced_invariant hrun (fun _ _ hop => hop.2.1.killsFind)
    (fun _ _ _ h hc hop hrun => attended_step h hc hop hrun) h₃ hstart
  refine ⟨hc, fun op s' hop hstep p hp hout => hop.returns hwf hc hstep hp hout,
    fun hu => ⟨fun p l hl => signal_step hwf hu hl, ?_⟩,
    fun s' hop hstep => hop.waits hwf hc hstep⟩
  obtain ⟨s', hstep, hread⟩ := broadcast_step hwf hu (n := n)
  exact ⟨s', hstep, hread, by simpa using hread.left⟩

def bothWait : List Op := [.acquire 0, .wait 0 0, .acquire 0, .wait 0 0, .acquire 0]

/-- A third process wakes both, and the first of them takes the mutex again. -/
def wakeBoth : List Op := [.broadcast 0, .release 0, .tick false]

def wakingCall (c : Traced CondRecord) (op : Op) : Bool :=
  op ∈ bothWait ++ wakeBoth ∧
    (op = .wait 0 0 ∨ op = .release 0 → c.kernel.currentRunning ∈ c.record.holders)

theorem condCall_of_wakingCall (c : Traced CondRecord) (op : Op) (h : wakingCall c op = true) :
    CondCall 0 0 c op := by
  obtain ⟨hop, hholds⟩ := of_decide_eq_true h
  simp only [bothWait, wakeBoth, List.mem_append, List.mem_cons, List.not_mem_nil, or_false] at hop
  rcases hop with (rfl | rfl | rfl | rfl | rfl) | rfl | rfl | rfl
  all_goals simp_all [CondCall, MutexCall, SharedCall]

theorem condition_attended_broadcast :
    ∃ s₁ s₂ s₃ c t c' s', Reachable KillsFind s₁ ∧ step (.mutexInit 0) s₁ = .ok s₂ ∧
      step (.conditionInit 0) s₂ = .ok s₃ ∧
      ReflTransGen (TracedSteps (CondCall 0 0) (condLog 0 0)) ⟨s₃, {}⟩ c ∧
      c.kernel.members (.condition 0) = [shell, .task ⟨0, by decide⟩] ∧
      step (.broadcast 0) c.kernel = .ok t ∧ t.members (.condition 0) = [] ∧
      t.status shell = .ready ∧ t.status (.task ⟨0, by decide⟩) = .ready ∧
      ReflTransGen (TracedSteps (CondCall 0 0) (condLog 0 0)) ⟨s₃, {}⟩ c' ∧
      shell ∈ c'.record.inside ∧ step .resume c'.kernel = .ok s' ∧
      (condLog 0 0 c' .resume s').holders = {shell} := by
  obtain ⟨s₁, hs₁, hinit⟩ := exists_of_endsIn
    (t := fun s₁ => endsIn (fun s₂ => endsIn (fun s₃ => endsIn (fun c : Traced CondRecord =>
      c.kernel.members (.condition 0) = [shell, .task ⟨0, by decide⟩] ∧
        c.kernel.kernelContext c.kernel.currentRunning = .user ∧
        endsIn (fun c' : Traced CondRecord => shell ∈ c'.record.inside ∧
          endsIn (fun s' => shell ∉ (condLog 0 0 c' .resume s').inside)
            (step .resume c'.kernel) = true)
        (wakeBoth.foldlM (checked wakingCall .disabled (traceStep (condLog 0 0))) c) = true)
      (bothWait.foldlM (checked wakingCall .disabled (traceStep (condLog 0 0))) ⟨s₃, {}⟩))
        (step (.conditionInit 0) s₂)) (step (.mutexInit 0) s₁))
    (r := execute 1 [.schedule, .spawn ⟨1⟩, .spawn ⟨1⟩]) (by decide +kernel)
  obtain ⟨s₂, hs₂, hinit⟩ := exists_of_endsIn hinit
  obtain ⟨s₃, hs₃, hinit⟩ := exists_of_endsIn hinit
  obtain ⟨c, hc, htest⟩ := exists_of_endsIn hinit
  obtain ⟨hmem, hu, hlater⟩ := of_decide_eq_true htest
  obtain ⟨c', hc', htest⟩ := exists_of_endsIn hlater
  obtain ⟨hin, hlast⟩ := of_decide_eq_true htest
  obtain ⟨s', hs', hout⟩ := exists_of_endsIn hlast
  have hreach : Reachable KillsFind s₁ :=
    reachable_execute (by decide) (by simp [KillsFind, AnyCall]) hs₁
  have hrun := traced_of_checked condCall_of_wakingCall hc
  have hrun' := hrun.trans (traced_of_checked condCall_of_wakingCall hc')
  obtain ⟨t, ht, hread, hnil⟩ := ((condition_attended hreach hs₂ hs₃ hrun).2.2.1 hu).2
  have hret := (condition_attended hreach hs₂ hs₃ hrun').2.1 .resume s'
    (by simp [CondCall, MutexCall, SharedCall]) hs' shell hin (of_decide_eq_true hout)
  exact ⟨s₁, s₂, s₃, c, t, c', s', hreach, hs₂, hs₃, hrun, hmem, ht, hnil,
    by simp [hread.status, hmem], by simp [hread.status, hmem], hrun', hin, hs', hret.1⟩

end Ucas.Sched
